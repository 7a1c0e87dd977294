import Detection.Language.Aql
import Detection.Proofs.Cleaning
import Detection.Proofs.SelectorCuts
import Detection.Proofs.SoleComparison
import Detection.Proofs.TextReading
import Mathlib.Data.List.Infix

/-!
# A quoted value in a QRadar search

A search for events whose user has some name passes through five readers: the head of the
search is cut off, then the clauses behind the condition, then the selectors, the rest is
cleaned, and what is left is read. None of the first four treats the quoted value as a unit.
The head is always found, and the selectors never are. The value gets through if and only if no
word of it looks like the beginning of a clause, and there is nothing to clean in it.
-/
namespace Detection.Aql

open Text Lexer Pattern Selector

variable {text : List Char} {c : Char} {later spot : Spot}

/-- What a search for events begins with. -/
def selection : List Char := "SELECT * FROM events WHERE ".toList

/-- What the condition begins with, up to the quoted value. -/
def subject : List Char := "username = ".toList

/-- The last part of the head, in front of the condition. -/
theorem matchAt_where (before : Option Char) (rest : List Char) :
    (optional (both (anyCase "where") spaces1)).matchAt?
      ⟨before, 'W' :: 'H' :: 'E' :: 'R' :: 'E' :: ' ' :: 'u' :: rest, []⟩ =
        some ⟨some ' ', 'u' :: rest, []⟩ := by
  have words : (seq [anyCase "where", spaces1]).matchAt?
      ⟨before, 'W' :: 'H' :: 'E' :: 'R' :: 'E' :: ' ' :: 'u' :: rest, []⟩ =
        some ⟨some ' ', 'u' :: rest, []⟩ :=
    matchAt_seq_word ['W', 'H', 'E', 'R', 'E'] (by decide)
      (matchAt_seq_many1 ' ' [] (List.all_eq_true.mp rfl) rfl rfl)
  rw [Pattern.optional, matchAt_either]
  change ((seq [anyCase "where", spaces1]).matchAt? _).or _ = _
  rw [words]
  rfl

/-- The head of the search is found word by word. -/
theorem matchAt_selectClause (rest : List Char) :
    selectClause.matchAt? ⟨none, selection ++ 'u' :: rest, []⟩ =
      some ⟨some ' ', 'u' :: rest, []⟩ := by
  have written : selection ++ 'u' :: rest = 'S' :: 'E' :: 'L' :: 'E' :: 'C' :: 'T' :: ' ' :: '*' ::
      ' ' :: 'F' :: 'R' :: 'O' :: 'M' :: ' ' :: 'e' :: 'v' :: 'e' :: 'n' :: 't' :: 's' ::
      ' ' :: 'W' :: 'H' :: 'E' :: 'R' :: 'E' :: ' ' :: 'u' :: rest := rfl
  rw [written]
  refine matchAt_seq_cons rfl ?_
  refine matchAt_seq_many [] (List.forall_mem_nil _) rfl ?_
  refine matchAt_seq_word ['S', 'E', 'L', 'E', 'C', 'T'] (by decide) ?_
  refine matchAt_seq_many1 ' ' [] (List.all_eq_true.mp rfl) rfl ?_
  rw [matchAt_few_cons rfl rfl]
  refine matchAt_seq_cons (matchAt_few _ _) ?_
  refine matchAt_seq_many1 ' ' [] (List.all_eq_true.mp rfl) rfl ?_
  refine matchAt_seq_word ['F', 'R', 'O', 'M'] (by decide) ?_
  refine matchAt_seq_many1 ' ' [] (List.all_eq_true.mp rfl) rfl ?_
  refine matchAt_seq_many1 'e' ['v', 'e', 'n', 't', 's'] (List.all_eq_true.mp rfl) rfl ?_
  refine matchAt_seq_many [' '] (List.all_eq_true.mp rfl) rfl ?_
  exact matchAt_where _ rest

/-- Cutting off the head leaves the condition. -/
theorem replaceAll_selectClause (rest : List Char) :
    selectClause.replaceAll (fun _ _ => []) (selection ++ 'u' :: rest) = 'u' :: rest := by
  have anchored (c : Char) (text : List Char) : selectClause.hitAt? (some c) text = none := by
    have none : start.ends ⟨some c, text, []⟩ = [] := rfl
    apply hitAt_eq_none
    rw [selectClause, ends_seq_cons, none]
    exact List.flatMap_nil
  have hit : selectClause.hitAt? none (selection ++ 'u' :: rest) =
      some ⟨some ' ', 'u' :: rest, []⟩ := by
    have size : selection.length = 27 := by decide
    have shorter : ('u' :: rest).length < (selection ++ 'u' :: rest).length := by
      rw [List.length_append]
      omega
    exact Option.filter_eq_some_iff.mpr ⟨matchAt_selectClause rest, decide_eq_true shorter⟩
  obtain ⟨taken, _, replaced⟩ := replaceAll_of_start_hit anchored hit fun _ _ => []
  exact replaced

/-- Whether white space in a text has the beginning of a clause right behind it. -/
def clauseInside : List Char → Bool
  | [] => false
  | c :: rest =>
    (isSpace c && !(clauseStart.ends ⟨some c, rest, []⟩).isEmpty) || clauseInside rest

theorem clauseInside_iff :
    clauseInside text = true ↔ ∃ early c late, text = early ++ c :: late ∧ isSpace c = true ∧
      clauseStart.ends ⟨some c, late, []⟩ ≠ [] := by
  induction text with
  | nil => simp [clauseInside]
  | cons c text ih =>
    rw [clauseInside, Bool.or_eq_true, ih]
    constructor
    · rintro (here | ⟨early, d, late, rfl, space, starts⟩)
      · exact ⟨[], c, text, rfl, by simpa using here⟩
      · exact ⟨c :: early, d, late, rfl, space, starts⟩
    · rintro ⟨early, d, late, split, space, starts⟩
      cases early with
      | nil =>
        cases split
        exact .inl (by simpa [space] using starts)
      | cons e early =>
        obtain ⟨rfl, rest⟩ := List.cons.inj split
        exact .inr ⟨early, d, late, rest, space, starts⟩

/-- No clause begins with white space, with the sign of equality or with a quote. -/
theorem clauseStart_none (other : isSpace c = true ∨ c = '=' ∨ c = '\'') (before : Option Char)
    (rest : List Char) : clauseStart.ends ⟨before, c :: rest, []⟩ = [] := by
  simp only [isSpace, isGap, Bool.or_eq_true, beq_iff_eq] at other
  rcases other with ((((rfl | rfl) | rfl) | rfl) | rfl) | rfl | rfl
  all_goals rfl

/-- A quote at the end of a text neither belongs to the words of a clause nor continues them. -/
theorem clauseStart_quote (c : Char) (late : List Char) :
    clauseStart.ends ⟨some c, late ++ ['\''], []⟩ = [] ↔
      clauseStart.ends ⟨some c, late, []⟩ = [] := by
  have blind : clauseStart.ends ⟨some c, late ++ ['\''], []⟩ =
      (clauseStart.ends ⟨some c, late, []⟩).map (Spot.extend ['\'']) :=
    ends_extend rfl rfl [] ⟨some c, late, []⟩
  rw [blind, List.map_eq_nil_iff]

/-- A match of the clauses behind a condition begins with white space, and the first clause
begins behind the last of it. -/
theorem mem_ends_tailClause (member : later ∈ tailClause.ends spot) :
    ∃ gap c rest, (∀ d ∈ gap ++ [c], isSpace d = true) ∧ spot.rest = (gap ++ [c]) ++ rest ∧
      clauseStart.ends ⟨some c, rest, spot.groups⟩ ≠ [] := by
  rw [tailClause, ends_seq_cons, List.mem_flatMap] at member
  obtain ⟨middle, spaced, member⟩ := member
  rw [ends_seq_cons, List.mem_flatMap] at member
  obtain ⟨named, tail, _⟩ := member
  obtain ⟨inner, found, _⟩ := List.mem_map.mp tail
  obtain ⟨first, starts, _⟩ := List.mem_flatMap.mp found
  obtain ⟨gap, ⟨some, blank⟩, split, rfl⟩ := (describes_spaces1 _ _).mp spaced
  obtain ⟨gap, c, rfl⟩ := (List.eq_nil_or_concat gap).resolve_left some
  rw [List.concat_eq_append] at blank split starts
  have last : spot.past (gap ++ [c]) =
      ⟨Option.some c, (spot.past (gap ++ [c])).rest, spot.groups⟩ := by simp [Spot.past]
  rw [last] at starts
  exact ⟨gap, c, _, blank, split, List.ne_nil_of_mem starts⟩

/-- Where white space has the beginning of a clause right behind it, there is one. -/
theorem exists_hit_tailClause {rest : List Char} (space : isSpace c = true)
    (starts : clauseStart.ends ⟨some c, rest, []⟩ ≠ []) (before : Option Char) :
    ∃ later, tailClause.hitAt? before (c :: rest) = some later := by
  obtain ⟨first, started⟩ := List.exists_mem_of_ne_nil _ starts
  have spaced : ⟨some c, rest, []⟩ ∈ spaces1.ends ⟨before, c :: rest, []⟩ :=
    (describes_spaces1 _ _).mpr ⟨[c], ⟨by simp, by simpa using space⟩, rfl, rfl⟩
  have all : first.past first.rest ∈ (many (one fun _ => true)).ends first :=
    (describes_many _ _ _).mpr ⟨first.rest, by simp, by simp [Spot.past], rfl⟩
  have ended : (first.past first.rest).rest = [] := by simp [Spot.past]
  have stopped (spot : Spot) (ended : spot.rest = []) : spot ∈ stop.ends spot := by
    simp [ends, ended]
  have found : ∃ later, later ∈ tailClause.ends ⟨before, c :: rest, []⟩ := by
    simp only [tailClause, ends_seq_cons, List.mem_flatMap]
    exact ⟨_, _, spaced, _, List.mem_map_of_mem (List.mem_flatMap.mpr ⟨first, started, all⟩),
      _, stopped _ ended, List.mem_singleton.mpr rfl⟩
  obtain ⟨later, member⟩ := found
  exact exists_hitAt rfl member

/-- A match of several patterns behind each other has the characters that are asked for. -/
theorem mem_of_mem_ends_seq {mark : Char} {patterns : List Pattern} (asked : char mark ∈ patterns)
    (member : later ∈ (seq patterns).ends spot) : mark ∈ spot.rest := by
  induction patterns generalizing spot with
  | nil => simp at asked
  | cons first others ih =>
    rw [ends_seq_cons, List.mem_flatMap] at member
    obtain ⟨middle, leads, member⟩ := member
    rcases List.mem_cons.mp asked with rfl | later
    · obtain ⟨_, rfl, text, _⟩ := (describes_char mark spot middle).mp leads
      simp [text]
    · obtain ⟨taken, leads, _⟩ := first.leads_of_mem_ends leads
      rw [leads.rest]
      exact List.mem_append_right _ (ih later member)

/-- A match of a name at the border of a word begins with the name. -/
theorem exists_word_of_mem_ends {name : String} {others : List Pattern}
    (member : later ∈ (seq (wordEdge :: anyCase name :: others)).ends spot) :
    ∃ word rest, word.map foldKey = name.toList.map foldKey ∧ spot.rest = word ++ rest := by
  rw [mem_seq_wordEdge, (describes_anyCase name).mem_seq] at member
  obtain ⟨_, word, same, text, _⟩ := member
  exact ⟨word, _, same, text⟩

/-- A selector that begins with a name and asks for a sign of equality or an opening
parenthesis. The name begins with none of the letters in front of the value. -/
def SpeltBy (selector : Selector) (name : String) : Prop :=
  (∃ others, selector.pattern = seq (wordEdge :: anyCase name :: others) ∧
    (char '=' ∈ others ∨ char '(' ∈ others)) ∧
  ∃ c letters, name.toList = c :: letters ∧ ∀ d ∈ subject, foldKey d ≠ foldKey c

theorem exists_speltBy : ∀ selector ∈ selectors, ∃ name, SpeltBy selector name := by
  have hints (key name : String) (initial : ∃ c letters, name.toList = c :: letters ∧
      ∀ d ∈ subject, foldKey d ≠ foldKey c) :
      ∀ selector ∈ hintSelectors key name, ∃ name, SpeltBy selector name := by
    intro selector member
    rcases List.mem_pair.mp member with rfl | rfl
    · exact ⟨name, ⟨_, rfl, .inl (by simp)⟩, initial⟩
    · exact ⟨name, ⟨_, rfl, .inr (by simp)⟩, initial⟩
  intro selector member
  simp only [selectors, List.mem_append, List.mem_singleton] at member
  rcases member with (((devices | events) | categories) | ids) | rfl
  · exact hints _ _ ⟨_, _, rfl, all_decide_iff.mp (by decide)⟩ _ devices
  · exact hints _ _ ⟨_, _, rfl, all_decide_iff.mp (by decide)⟩ _ events
  · exact hints _ _ ⟨_, _, rfl, all_decide_iff.mp (by decide)⟩ _ categories
  · exact hints _ _ ⟨_, _, rfl, all_decide_iff.mp (by decide)⟩ _ ids
  · exact ⟨"logsourcename", ⟨_, rfl, .inr (by simp)⟩, _, _, rfl, all_decide_iff.mp (by decide)⟩

/-- There are no selectors in the condition, if the value has no sign of equality and no
opening parenthesis. -/
theorem extract_subject {behind : List Char} (plain : ∀ c ∈ behind, c ≠ '=' ∧ c ≠ '(') :
    extract selectors (String.ofList (subject ++ behind)) =
      ([], String.ofList (clean (subject ++ behind))) := by
  have none : ∀ selector ∈ selectors,
      selector.find? (String.ofList (subject ++ behind)).toList = none := by
    intro selector listed
    obtain ⟨name, ⟨others, shape, asks⟩, c, letters, spelt, initial⟩ :=
      exists_speltBy selector listed
    rw [String.toList_ofList]
    refine Option.eq_none_iff_forall_ne_some.mpr fun selection found => ?_
    obtain ⟨matched, later, split, _, hit, _⟩ := find?_spec found
    have member := (mem_ends_of_hitAt hit).1
    rw [shape] at member
    obtain ⟨mark, isMark, marked⟩ : ∃ mark, (mark = '=' ∨ mark = '(') ∧
        mark ∈ matched ++ selection.after := by
      rcases asks with asked | asked
      · exact ⟨_, .inl rfl, mem_of_mem_ends_seq (by simp [asked]) member⟩
      · exact ⟨_, .inr rfl, mem_of_mem_ends_seq (by simp [asked]) member⟩
    have unmarked (inside : mark ∈ behind) : False := by
      obtain ⟨noSign, noOpening⟩ := plain mark inside
      exact isMark.elim noSign noOpening
    rcases List.append_eq_append_iff.mp split with ⟨more, _, same⟩ | ⟨more, front, rest⟩
    · exact unmarked (by simp [same, List.mem_append.mp marked])
    · cases more with
      | nil => exact unmarked (by simpa only [rest, List.nil_append] using marked)
      | cons d more =>
        obtain ⟨word, tail, folded, text⟩ := exists_word_of_mem_ends member
        have first : d :: (more ++ behind) = word ++ tail := rest.symm.trans text
        rw [spelt] at folded
        obtain ⟨e, word, rfl, same, _⟩ := List.map_eq_cons_iff.mp folded
        obtain rfl : d = e := (List.cons.inj first).1
        exact initial d (by simp [front]) same
  rw [extract_of_find_none none, String.toList_ofList]

section Condition

variable {value : List Char}

/-- The condition with a quoted value. -/
def condition (value : List Char) : List Char :=
  subject ++ '\'' :: (value ++ ['\''])

/-- A clause behind white space of the value is a clause inside it. -/
theorem clauseInside_of_append {front gap rest : List Char}
    (text : value ++ ['\''] = front ++ ((gap ++ [c]) ++ rest)) (space : isSpace c = true)
    (starts : clauseStart.ends ⟨some c, rest, []⟩ ≠ []) :
    clauseInside value = true ∧ front <+: value := by
  rcases List.eq_nil_or_concat rest with rfl | ⟨late, last, rfl⟩
  · exact absurd rfl starts
  · rw [List.concat_eq_append] at text starts
    have whole : value ++ ['\''] = (front ++ (gap ++ c :: late)) ++ [last] := by simp [text]
    obtain ⟨rfl, same⟩ := List.append_inj' whole rfl
    obtain rfl := (List.cons.inj same).1
    have inside := mt (clauseStart_quote c late).mpr starts
    exact ⟨clauseInside_iff.mpr ⟨front ++ gap, c, late, by simp, space, inside⟩,
      List.prefix_append _ _⟩

/-- White space in front of the value has a sign or a quote behind it. -/
theorem subject_tails : ∀ more ∈ (subject ++ ['\'']).tails, more = [] ∨
    (more ≠ [] ∧ more.dropWhile isSpace = more) ∨
    (more.dropWhile isSpace).head? = some '=' ∨ (more.dropWhile isSpace).head? = some '\'' := by
  decide

/-- Clauses are found in the value only. -/
theorem hit_tailClause {early late : List Char} {before : Option Char}
    (split : condition value = early ++ late) (hit : tailClause.hitAt? before late = some later) :
    clauseInside value = true ∧ ∃ kept, kept <+: value ∧ early = subject ++ '\'' :: kept := by
  obtain ⟨gap, c, rest, blank, text, starts⟩ := mem_ends_tailClause (mem_ends_of_hitAt hit).1
  change late = (gap ++ [c]) ++ rest at text
  subst text
  have space : isSpace c = true := blank c (by simp)
  have front : condition value = (subject ++ ['\'']) ++ (value ++ ['\'']) := by simp [condition]
  rcases List.append_eq_append_iff.mp (front.symm.trans split) with
    ⟨kept, rfl, behind⟩ | ⟨more, whole, behind⟩
  · obtain ⟨found, isPrefix⟩ := clauseInside_of_append behind space starts
    exact ⟨found, kept, isPrefix, by simp⟩
  · -- The white space stands in front of the value, or right behind its opening quote.
    obtain ⟨d, others, rfl, visible, noSign, noQuote⟩ :
        ∃ d others, rest = d :: others ∧ isSpace d = false ∧ d ≠ '=' ∧ d ≠ '\'' := by
      cases rest with
      | nil => exact absurd rfl starts
      | cons d others =>
        have other := mt (clauseStart_none · (some c) others) starts
        simp only [not_or, Bool.not_eq_true] at other
        exact ⟨d, others, rfl, other⟩
    have dropped : (more ++ (value ++ ['\''])).dropWhile isSpace = d :: others := by
      rw [← behind, List.dropWhile_append_of_pos blank]
      exact List.dropWhile_cons_of_neg (by simp [visible])
    rcases subject_tails more ((List.mem_tails _ _).mpr ⟨early, whole.symm⟩) with
      rfl | ⟨some, same⟩ | sign
    · have nothing : value ++ ['\''] = [] ++ ((gap ++ [c]) ++ d :: others) := behind.symm
      obtain ⟨found, _⟩ := clauseInside_of_append nothing space starts
      exact ⟨found, [], List.nil_prefix, by simpa using whole.symm⟩
    · rw [List.dropWhile_append, same, if_neg (by simpa using some), ← behind] at dropped
      have length := congrArg List.length dropped
      simp only [List.length_append, List.length_cons, List.length_nil] at length
      omega
    · have first : (more.dropWhile isSpace).head? = Option.some d := by
        rw [List.dropWhile_append] at dropped
        split at dropped
        · next none => simp [List.isEmpty_iff.mp none] at sign
        · next some =>
          have nonempty : more.dropWhile isSpace ≠ [] := mt List.isEmpty_iff.mpr some
          obtain ⟨e, letters, written⟩ := List.exists_cons_of_ne_nil nonempty
          rw [written] at dropped ⊢
          exact congrArg Option.some (List.cons.inj dropped).1
      simp [first, noSign, noQuote] at sign

/-- Without a clause inside the value nothing is cut off. -/
theorem firstMatch_tailClause_none (outside : clauseInside value = false) :
    tailClause.firstMatch? (condition value) = none := by
  rcases firstMatch_cases tailClause (condition value) with
    ⟨same, _⟩ | ⟨early, late, later, split, hit, _⟩
  · exact same
  · simp [(hit_tailClause split hit).1] at outside

/-- With a clause inside the value its end is cut off, and the closing quote with it. -/
theorem firstMatch_tailClause_some (inside : clauseInside value = true) :
    ∃ kept groups, kept <+: value ∧
      tailClause.firstMatch? (condition value) = some (subject ++ '\'' :: kept, groups) := by
  rcases firstMatch_cases tailClause (condition value) with
    ⟨_, none⟩ | ⟨early, late, later, split, hit, found⟩
  · obtain ⟨early, c, late, rfl, space, starts⟩ := clauseInside_iff.mp inside
    have closed := mt (clauseStart_quote c late).mp starts
    have whole : condition (early ++ c :: late) =
        (subject ++ '\'' :: early) ++ c :: (late ++ ['\'']) := by simp [condition]
    obtain ⟨later, hit⟩ := exists_hit_tailClause space closed (subject ++ '\'' :: early).getLast?
    rw [none _ _ whole] at hit
    contradiction
  · obtain ⟨_, kept, isPrefix, rfl⟩ := hit_tailClause split hit
    exact ⟨kept, later.groups, isPrefix, found⟩

end Condition

/-- A round of cleaning tidies what stands behind the quote and may take something without
walls off its end. -/
theorem cleanOnce_subject (tail : List Char) :
    ∃ kept taken, (∀ c ∈ taken, isWall c = false) ∧
      tidy tail = kept ++ taken ∧
      cleanOnce (subject ++ '\'' :: tail) = subject ++ '\'' :: kept := by
  have tidied : tidy (subject ++ '\'' :: tail) =
      subject ++ '\'' :: tidy tail := by
    have front : tidy subject = subject := by decide +kernel
    rw [acts_tidy.wall _ _ _ rfl, front]
  have lead : Selector.dropLead (subject ++ '\'' :: Selector.tidy tail) =
      subject ++ '\'' :: Selector.tidy tail := Selector.dropLead_of_head rfl (by decide)
  obtain ⟨taken, free, split⟩ :=
    exists_dropTrail_append (subject ++ '\'' :: tidy tail)
  obtain ⟨kept, dropped, rest⟩ := exists_behind_wall rfl free split
  exact ⟨kept, taken, free, rest, by rw [cleanOnce_eq, tidied, lead, dropped]⟩

/-- At the end white space behind the quote becomes single blanks, and some may be taken off. -/
theorem clean_subject {tail : List Char} (cleaned : cleanAll text = subject ++ '\'' :: tail) :
    ∃ kept taken, (∀ c ∈ taken, isWall c = false) ∧
      collapse tail = kept ++ taken ∧ clean text = subject ++ '\'' :: kept := by
  have collapsed : collapse (subject ++ '\'' :: tail) =
      subject ++ '\'' :: collapse tail := by
    have front : collapse subject = subject := by decide +kernel
    rw [acts_collapse.wall _ _ _ rfl, front]
  obtain ⟨lead, taken, leading, trailing, split⟩ :=
    exists_trimBy isBlank (subject ++ '\'' :: collapse tail)
  cases lead with
  | cons c lead =>
    obtain rfl : 'u' = c := (List.cons.inj split).1
    exact absurd (leading 'u' List.mem_cons_self) (by decide)
  | nil =>
    have free := free_of_blank trailing
    obtain ⟨kept, trimmed, rest⟩ := exists_behind_wall rfl free split
    refine ⟨kept, taken, free, rest, ?_⟩
    rw [clean_eq, cleaned, collapsed, trimChars]
    exact trimmed

/-- Nothing is taken off a text that ends with a wall. -/
theorem kept_of_closed {kept taken : List Char} (free : ∀ c ∈ taken, isWall c = false)
    (split : text ++ ['\''] = kept ++ taken) : kept = text ++ ['\''] := by
  obtain ⟨left, rfl, rest⟩ := exists_behind_wall rfl free split
  obtain ⟨rfl, -⟩ := List.append_eq_nil_iff.mp rest.symm
  rfl

/-- Cleaning changes a quoted value as it changes any stretch between walls. -/
theorem clean_condition (value : List Char) :
    ∃ rounds, clean (condition value) =
      condition (collapse (tidy^[rounds + 1] value)) := by
  have once (value : List Char) :
      cleanOnce (condition value) = condition (tidy value) := by
    obtain ⟨kept, taken, free, split, cleaned⟩ := cleanOnce_subject (value ++ ['\''])
    rw [acts_tidy.wall value '\'' [] rfl, acts_tidy.nil] at split
    rw [condition, cleaned, kept_of_closed free split]
    rfl
  have all (text value : List Char) (written : text = condition value) :
      ∃ rounds, cleanAll text = condition (tidy^[rounds + 1] value) := by
    fun_induction cleanAll text generalizing value with
    | case1 text shorter ih =>
      obtain ⟨rounds, later⟩ := ih (tidy value) (by rw [written, once])
      exact ⟨rounds + 1, later⟩
    | case2 => exact ⟨0, by rw [written, once]; rfl⟩
  obtain ⟨rounds, cleaned⟩ := all _ value rfl
  obtain ⟨kept, taken, free, split, same⟩ := clean_subject cleaned
  rw [acts_collapse.wall _ '\'' [] rfl, acts_collapse.nil] at split
  exact ⟨rounds, by rw [same, kept_of_closed free split]; rfl⟩

/-- A condition that has lost the quote at the end of its value. -/
def IsOpen (text : List Char) : Prop :=
  ∃ kept, (∀ c ∈ kept, Selector.isWall c = false) ∧ text = subject ++ '\'' :: kept

theorem IsOpen.clean (isOpen : IsOpen text) : IsOpen (clean text) := by
  have once (text : List Char) (isOpen : IsOpen text) : IsOpen (cleanOnce text) := by
    obtain ⟨kept, free, rfl⟩ := isOpen
    obtain ⟨left, taken, _, split, cleaned⟩ := cleanOnce_subject kept
    have tidied := acts_tidy.free kept free
    exact ⟨left, fun c own => tidied c (by simp [split, own]), cleaned⟩
  have all : IsOpen (cleanAll text) := by
    fun_induction cleanAll text with
    | case1 text shorter ih => exact ih (once text isOpen)
    | case2 text => exact once text isOpen
  obtain ⟨kept, free, cleaned⟩ := all
  obtain ⟨left, taken, _, split, same⟩ := clean_subject cleaned
  have collapsed := acts_collapse.free kept free
  exact ⟨left, fun c own => collapsed c (by simp [split, own]), same⟩

section Reading

/-- A character other than the mark belongs to a quoted text. -/
theorem doubledBody_cons (other : c ≠ '\'') (rest : List Char) :
    doubledBody? '\'' (c :: rest) =
      (doubledBody? '\'' rest).map fun (body, rest) => (c :: body, rest) := by
  rw [doubledBody?.eq_def]
  simp [other]

/-- A quoted text without its mark ends at the next mark. -/
theorem doubledBody_closed {body : List Char} (unmarked : ∀ c ∈ body, c ≠ '\'') :
    doubledBody? '\'' (body ++ ['\'']) = some (body, []) := by
  induction body with
  | nil => rfl
  | cons c body ih =>
    obtain ⟨other, others⟩ := List.forall_mem_cons.mp unmarked
    rw [List.cons_append, doubledBody_cons other, ih others]
    rfl

theorem doubledBody_open {body : List Char} (unmarked : ∀ c ∈ body, c ≠ '\'') :
    doubledBody? '\'' body = none := by
  induction body with
  | nil => rfl
  | cons c body ih =>
    obtain ⟨other, others⟩ := List.forall_mem_cons.mp unmarked
    rw [doubledBody_cons other, ih others]
    rfl

/-- There are no pairs to read as one in a text without the symbol. -/
theorem undouble_of_not_mem {symbol : Char} (absent : symbol ∉ text) :
    EscapeRule.undouble symbol text = text := by
  fun_induction EscapeRule.undouble symbol text with
  | case1 first rest pair ih => simp_all
  | case2 first second rest single ih =>
    rw [ih fun own => absent (List.mem_cons_of_mem _ own)]
  | case3 => rfl

/-- The field and the sign in front of the value. -/
theorem head_subject (tail : List Char) :
    dialect.head? (subject ++ '\'' :: tail) = some ⟨"username".toList, ['='], '\'' :: tail⟩ := by
  have field : dialect.field (subject ++ '\'' :: tail) =
      some ("username".toList, ' ' :: '=' :: ' ' :: '\'' :: tail) := rfl
  have symbol (spaced : Bool) : dialect.symbolAfter? spaced ('=' :: ' ' :: '\'' :: tail) =
      some (['='], ' ' :: '\'' :: tail) := by
    cases spaced <;> rfl
  have behind : (' ' :: '=' :: ' ' :: '\'' :: tail).dropWhile isSpace =
      '=' :: ' ' :: '\'' :: tail := rfl
  simp only [Dialect.head?, field, behind, symbol]
  rfl

/-- The literal of a value up to the quote that ends it, or no literal. -/
theorem literal_quote (tail : List Char) :
    dialect.literal? false ('\'' :: tail) = (doubledBody? '\'' tail).map fun (body, rest) =>
      (⟨.text (String.ofList (EscapeRule.undouble '\'' body)), false⟩, rest) := rfl

/-- The comparison with a text, which has no wildcards in this language. -/
theorem comparison_username (content : List Char) :
    Dialect.comparison "username".toList .eq "" (.text (String.ofList content)) =
      [.leaf (.comparison { name := "username" } .eq (.text (String.ofList content)) {})] := by
  have name : trimChar '"' "username" = "username" := by decide +kernel
  simp [Dialect.comparison, promoteWildcards, patternValue, name]

/-- What the condition is read as, up to the quote that ends its value. -/
theorem step_subject (tail : List Char) :
    dialect.step (subject ++ '\'' :: tail) =
      match doubledBody? '\'' tail with
      | some (body, rest) =>
        .ok ([.leaf (.comparison { name := "username" } .eq
          (.text (String.ofList (EscapeRule.undouble '\'' body))) {})], rest)
      | none => .error ⟨.unterminatedQuote, '\'' :: tail⟩ := by
  have unconnected : dialect.connective? (subject ++ '\'' :: tail) = none := rfl
  have spelling : dialect.spellingOf ['='] = ⟨"=", .eq, false, none⟩ := rfl
  rw [Dialect.step.eq_def]
  simp only [unconnected, Dialect.comparison?, head_subject, spelling, Dialect.scalar,
    literal_quote]
  cases doubledBody? '\'' tail with
  | none => rfl
  | some =>
    simp only [← comparison_username]
    rfl

/-- A quoted value is compared with. -/
theorem tokenize_condition {value : List Char} (unmarked : ∀ c ∈ value, c ≠ '\'') :
    dialect.tokenize (String.ofList (condition value)) =
      .ok [.leaf (.comparison { name := "username" } .eq (.text (String.ofList value)) {})] := by
  have stepped := step_subject (value ++ ['\''])
  simp only [doubledBody_closed unmarked,
    undouble_of_not_mem fun own => unmarked _ own rfl] at stepped
  have whole : dialect.tokensFrom (condition value) = _ :=
    Dialect.tokensFrom_step rfl stepped (by simp) Dialect.tokensFrom_nil
  rw [Dialect.tokenize, String.toList_ofList, whole]
  rfl

/-- A value without a closing quote cannot be read. -/
theorem IsOpen.tokenize (isOpen : IsOpen text) :
    ∃ error, dialect.tokenize (String.ofList text) = .error error := by
  obtain ⟨kept, free, rfl⟩ := isOpen
  have unmarked : ∀ c ∈ kept, c ≠ '\'' := by
    rintro c own rfl
    exact absurd (free _ own) (by decide)
  have stepped := step_subject kept
  simp only [doubledBody_open unmarked] at stepped
  have stopped : dialect.tokensFrom (subject ++ '\'' :: kept) = _ :=
    Dialect.tokensFrom_stop rfl stepped
  rw [Dialect.tokenize, String.toList_ofList, stopped]
  exact ⟨_, rfl⟩

end Reading

/-- The condition of a search, and the clauses behind it. -/
def cutClauses (text : List Char) : List Char × List String :=
  match tailClause.firstMatch? text with
  | some (before, groups) => (before, splitTail ((groups.lookup "tail").getD []))
  | none => (text, [])

/-- What is read of a search, once the clauses behind its condition have been cut off. -/
theorem read_condition (repository : Repository) (info : Option Meta) {value kept : List Char}
    {clauses : List String}
    (cut : cutClauses (condition value) = (subject ++ '\'' :: kept, clauses))
    (plain : ∀ c ∈ kept, c ≠ '=' ∧ c ≠ '(') :
    read repository (String.ofList (selection ++ condition value)) info = (do
      let tokens ← dialect.read (String.ofList (clean (subject ++ '\'' :: kept)))
      Query.ofTokens repository (tokens.map payloadKeyword) [] (Meta.initial.merge? info)
        { notSupported := clauses }) := by
  have head : selectClause.replaceAll (fun _ _ => []) (selection ++ condition value) =
      condition value := replaceAll_selectClause _
  have unselected : ∀ c ∈ '\'' :: kept, c ≠ '=' ∧ c ≠ '(' :=
    List.forall_mem_cons.mpr ⟨by decide, plain⟩
  have extracted := extract_subject unselected
  have whole (text : String) : read repository text info = (do
      let cut := cutClauses (selectClause.replaceAll (fun _ _ => []) text.toList)
      let extracted := extract selectors (String.ofList cut.1)
      let tokens ← dialect.read extracted.2
      Query.ofTokens repository (tokens.map payloadKeyword) extracted.1 (Meta.initial.merge? info)
        { notSupported := cut.2 }) := rfl
  rw [whole, String.toList_ofList, head, cut]
  simp only [extracted]

section Search

variable (repository : Repository) (info : Option Meta) {value : List Char}
  (free : ∀ c ∈ value, Selector.isWall c = false) (plain : ∀ c ∈ value, c ≠ '=' ∧ c ≠ '(')

include free plain

/-- With a clause inside the value a search cannot be read: the closing quote goes with the
clause, and nothing brings it back. -/
theorem read_of_clauseInside (inside : clauseInside value = true) :
    ∃ error, read repository (String.ofList (selection ++ condition value)) info =
      .error error := by
  obtain ⟨kept, groups, isPrefix, first⟩ := firstMatch_tailClause_some inside
  have isOpen : IsOpen (subject ++ '\'' :: kept) :=
    ⟨kept, fun c own => free c (isPrefix.subset own), rfl⟩
  obtain ⟨error, failed⟩ := isOpen.clean.tokenize
  have whole := read_condition repository info (by rw [cutClauses, first])
    fun c own => plain c (isPrefix.subset own)
  rw [whole, Dialect.read, failed]
  exact ⟨_, rfl⟩

/-- Without a clause inside the value a search is the comparison with the cleaned value. -/
theorem read_of_not_clauseInside (outside : clauseInside value = false) :
    ∃ rounds query, read repository (String.ofList (selection ++ condition value)) info =
        .ok query ∧ query.IsComparison "username" .eq
          (.text (String.ofList (collapse (tidy^[rounds + 1] value)))) := by
  have first := firstMatch_tailClause_none outside
  have whole := read_condition repository info (by rw [cutClauses, first]; rfl)
    (List.forall_mem_append.mpr ⟨plain, List.forall_mem_singleton.mpr (by decide)⟩)
  obtain ⟨rounds, cleaned⟩ := clean_condition value
  have unmarked : ∀ c ∈ collapse (tidy^[rounds + 1] value), c ≠ '\'' := by
    rintro c own rfl
    have left := (acts_collapse.comp (acts_tidy.iterate (rounds + 1))).free
      value free
    exact absurd (left _ own) (by decide)
  have tokens := tokenize_condition unmarked
  obtain ⟨query, made, comparison⟩ :=
    Query.ofTokens_comparison repository { name := "username" } .eq
      (.text (String.ofList (collapse (tidy^[rounds + 1] value))))
      (Meta.initial.merge? info) {}
  refine ⟨rounds, query, ?_, comparison⟩
  rw [whole]
  change (dialect.read (String.ofList (clean (condition value))) >>= _) = _
  rw [Dialect.read, cleaned, tokens]
  exact made

end Search

/-- A search for a quoted value without quotes, backslashes, signs of equality and opening
parentheses is read as the comparison with that value, with nothing behind it, if and only if
no word of the value begins a clause and there is nothing to clean in it. -/
theorem read_literal_iff (repository : Repository) (info : Option Meta) (value : String)
    (plain : ∀ c ∈ value.toList, c ∉ ['\'', '"', '\\', '=', '(']) :
    (∃ query, read repository ("SELECT * FROM events WHERE username = '" ++ value ++ "'") info =
        .ok query ∧ query.IsComparison "username" .eq (.text value)) ↔
    clauseInside value.toList = false ∧ Selector.Undisturbed value.toList := by
  have text : "SELECT * FROM events WHERE username = '" ++ value ++ "'" =
      String.ofList (selection ++ condition value.toList) := by
    have front : "SELECT * FROM events WHERE username = '".toList =
        selection ++ (subject ++ ['\'']) := by decide +kernel
    rw [← String.toList_inj, String.toList_append, String.toList_append, front, condition]
    simp only [List.append_assoc, List.singleton_append, String.toList_ofList]
    rfl
  have free : ∀ c ∈ value.toList, Selector.isWall c = false := by
    intro c own
    have outside := plain c own
    simp_all [Selector.isWall]
  have unselected : ∀ c ∈ value.toList, c ≠ '=' ∧ c ≠ '(' := by
    intro c own
    have outside := plain c own
    simp_all
  rw [text]
  cases inside : clauseInside value.toList with
  | true =>
    obtain ⟨error, failed⟩ := read_of_clauseInside repository info free unselected inside
    rw [failed]
    simp
  | false =>
    obtain ⟨rounds, query, made, comparison⟩ :=
      read_of_not_clauseInside repository info free unselected inside
    rw [made, ← Selector.collapse_tidy_eq_iff rounds]
    constructor
    · rintro ⟨_, same, also⟩
      obtain rfl := Except.ok.inj same
      have values := comparison.value_unique also
      exact ⟨rfl, String.ofList_injective ((Value.text.inj values).trans String.ofList_toList.symm)⟩
    · rintro ⟨_, back⟩
      rw [back, String.ofList_toList] at comparison
      exact ⟨query, rfl, comparison⟩

/-- A value of which one word is the name of a clause and does not stand behind white space. -/
theorem read_literal_iff_first :
    (∀ c ∈ "last one and only".toList, c ∉ ['\'', '"', '\\', '=', '(']) ∧
    ∃ query, read (.ofRecords "qradar" [])
        "SELECT * FROM events WHERE username = 'last one and only'" none = .ok query ∧
      query.IsComparison "username" .eq (.text "last one and only") := by
  have plain : ∀ c ∈ "last one and only".toList, c ∉ ['\'', '"', '\\', '=', '('] :=
    all_decide_iff.mp (by decide)
  have undisturbed : Selector.Undisturbed "last one and only".toList :=
    ⟨by decide +kernel, by decide +kernel, by decide +kernel, by decide +kernel⟩
  exact ⟨plain, (read_literal_iff _ none "last one and only" plain).mpr
    ⟨by decide +kernel, undisturbed⟩⟩

/-- A word inside the value that is the name of a clause makes the search unreadable, and a
connective behind another one is lost. -/
theorem literal_cut_short :
    (read (.ofRecords "qradar" []) "SELECT * FROM events WHERE username = 'the last one'"
      none).toOption.isNone = true ∧
    (read (.ofRecords "qradar" []) "SELECT * FROM events WHERE username = 'this and or that'"
      none).toOption.map (fun query => query.tree.leaves.map Leaf.describe) =
        some ["username eq this and that"] := by
  decide +kernel

end Detection.Aql
