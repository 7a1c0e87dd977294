import Detection.Proofs.FilterCleaning
import Detection.Proofs.FilterReading
import Detection.Proofs.SplReading

/-!
# Taking the sources out of a filter

A selector takes whole clauses out of a filter that is laid out, and cleaning closes the gaps.
What is left has the leaves of the other clauses, each under an odd number of NOTs if and only
if it was so before, as long as every NOT of the filter has something to negate that stays.
-/
namespace Detection.Spl

open Text Pattern Selector Quoting

variable {word value before gap tail : List Char} {content : Clause} {rest parts : List Part}
  {previous : Option Part} {part : Part}

/-- Of two ways to cut a text, the later one cuts what the earlier one leaves. -/
theorem exists_of_longer {early behind late rest : List Char}
    (same : early ++ behind = late ++ rest) (longer : early.length ≤ late.length) :
    ∃ more, late = early ++ more ∧ behind = more ++ rest := by
  rcases List.append_eq_append_iff.mp same with found | ⟨more, rfl, rfl⟩
  · exact found
  · cases more with
    | nil => exact ⟨[], by simp, by simp⟩
    | cons c more =>
      rw [List.length_append, List.length_cons] at longer
      omega

/-- The names of the selectors. -/
def IsSource (word : List Char) : Prop :=
  ∃ name ∈ ["index", "sourcetype", "source"], word.map foldKey = name.toList.map foldKey

namespace IsSource

variable (source : IsSource word)
include source

theorem visible {c : Char} (member : c ∈ word) :
    isSpace c = false ∧ c ∉ ['(', ')', '"'] := by
  have letter : foldKey c ∈ "indexsourcetypesource".toList := by
    obtain ⟨name, known, same⟩ := source
    have folded : foldKey c ∈ name.toList.map foldKey := same ▸ List.mem_map_of_mem member
    have each : ∀ name ∈ ["index", "sourcetype", "source"], (name.toList.map foldKey).all
        (fun c => c ∈ "indexsourcetypesource".toList) = true := by decide
    exact all_decide_iff.mp (each name known) _ folded
  exact Selector.visible_of_letter letter (by decide)

theorem unsigned : '=' ∉ word := by
  obtain ⟨name, known, same⟩ := source
  intro member
  have folded : foldKey '=' ∈ name.toList.map foldKey := same ▸ List.mem_map_of_mem member
  have each : ∀ name ∈ ["index", "sourcetype", "source"],
      foldKey '=' ∉ name.toList.map foldKey := by decide
  exact each name known folded

theorem exists_head : ∃ c letters, word = c :: letters ∧ foldKey c ∈ ['i', 's'] := by
  obtain ⟨name, known, same⟩ := source
  have each : ∀ name ∈ ["index", "sourcetype", "source"],
      ∃ c letters, name.toList.map foldKey = c :: letters ∧ c ∈ ['i', 's'] := by
    simp only [List.forall_mem_cons]
    refine ⟨⟨_, _, rfl, by decide⟩, ⟨_, _, rfl, by decide⟩, ⟨_, _, rfl, by decide⟩,
      List.forall_mem_nil _⟩
  obtain ⟨first, others, written, letter⟩ := each name known
  obtain ⟨c, letters, rfl, rfl, _⟩ := List.map_eq_cons_iff.mp (same.trans written)
  exact ⟨c, letters, rfl, letter⟩

/-- A name in front of a sign at the border of a word starts a selector. -/
theorem starts {before : Option Char}
    (edge : Spot.atWordEdge ⟨before, word ++ '=' :: value, []⟩ = true) :
    startsSelector before (word ++ '=' :: value) = true := by
  obtain ⟨name, known, same⟩ := source
  have length : name.length = word.length := by
    have lengths := congrArg List.length same
    rw [List.length_map, List.length_map, String.length_toList] at lengths
    exact lengths.symm
  rw [startsSelector, edge, Bool.true_and, List.any_eq_true]
  refine ⟨name, known, ?_⟩
  simp [length, same]

end IsSource

/-- A text without double quotes does not lead out of them. -/
theorem exists_after_double {text : List Char} (unquoted : ∀ c ∈ text, c ≠ '"')
    (protect : Bool) :
    ∃ inner, (double protect).after text = .double inner := by
  induction text generalizing protect with
  | nil => exact ⟨protect, rfl⟩
  | cons c text ih =>
    obtain ⟨own, others⟩ := List.forall_mem_cons.mp unquoted
    obtain ⟨inner, next⟩ : ∃ inner, (double protect).next c = .double inner := by
      cases protect with
      | true => exact ⟨false, rfl⟩
      | false =>
        by_cases protects : c = '\\'
        · exact ⟨true, by simp [next, protects]⟩
        · exact ⟨false, by simp [next, protects, own]⟩
    rw [after_cons, next]
    exact ih others inner

theorem IsLead.after {lead : List Char} (isLead : IsLead lead) :
    outside.after lead = .outside := by
  refine after_unquoted fun c own => ?_
  have special := (isLead.solid c own).2
  simp_all

theorem Part.after_text (part : Part) : outside.after part.text = .outside := by
  cases part with
  | gap c blank =>
    refine after_unquoted fun d own => ?_
    obtain rfl := List.mem_singleton.mp own
    constructor <;> rintro rfl <;> contradiction
  | opening | closing | negation => rfl
  | joiner connective => cases connective <;> rfl
  | clause content =>
    rw [Part.text, Clause.text, after_append, content.isLead.after]
    cases quoted : content.body? with
    | none => rfl
    | some body =>
      have closed := (content.isBody body quoted).closed
      have opens : outside.next '"' = .double false := rfl
      rw [quotedText, after_cons, opens, after_append, closed]
      rfl

/-- Inside the quoted text of a clause it is open. -/
theorem not_outside {body? : Option (List Char)} (isBody : ∀ body ∈ body?, IsBody body)
    {early late : List Char} {c : Char} (written : quotedText body? = early ++ c :: late)
    (other : c ≠ '"') : outside.after early ≠ .outside := by
  cases body? with
  | none => simp [quotedText] at written
  | some body =>
    cases early with
    | nil => exact absurd (List.cons.inj written).1.symm other
    | cons mark early =>
      obtain ⟨rfl, split⟩ := List.cons.inj written
      have inside : ∀ d ∈ early, d ≠ '"' := by
        intro d own
        refine (isBody body rfl).unquoted d ?_
        have same : (body ++ ['"']).dropLast = (early ++ c :: late).dropLast :=
          congrArg List.dropLast split
        rw [List.dropLast_concat, List.dropLast_append_cons] at same
        rw [same]
        exact List.mem_append_left _ own
      obtain ⟨inner, after⟩ := exists_after_double inside false
      have opens : outside.next '"' = .double false := rfl
      rw [after_cons, opens, after]
      simp

theorem text_ne_sign (parts : List Part) (tail : List Char) : text parts ≠ '=' :: tail := by
  intro written
  cases parts with
  | nil => simp at written
  | cons part rest =>
    cases part with
    | gap c blank =>
      obtain rfl : c = '=' := (List.cons.inj written).1
      contradiction
    | opening | closing | negation => exact absurd (List.cons.inj written).1 (by decide)
    | joiner connective =>
      cases connective <;> exact absurd (List.cons.inj written).1 (by decide)
    | clause content =>
      rw [text_cons, Part.text, Clause.text] at written
      cases lead : content.lead with
      | cons =>
        rw [lead] at written
        exact content.isLead.unsigned (by rw [lead, (List.cons.inj written).1, List.head?_cons])
      | nil =>
        have nonempty := content.nonempty
        rw [lead] at nonempty written
        cases quoted : content.body? with
        | none => simp [quoted, quotedText] at nonempty
        | some body =>
          rw [quoted] at written
          exact absurd (List.cons.inj written).1 (by decide)

/-- A name in the word of a clause has the sign right behind it there. -/
theorem exists_value (spaced : Spaced (some (.clause content)) rest) (source : IsSource word)
    (blank : ∀ c ∈ gap, isSpace c = true)
    (written : content.lead ++ (quotedText content.body? ++ text rest) =
      before ++ (word ++ (gap ++ '=' :: tail))) (short : before.length < content.lead.length) :
    ∃ value, content.lead = before ++ (word ++ '=' :: value) := by
  have ends := endsWord_of_clause spaced
  -- The sign does not stand in front of the next part.
  have signed : quotedText content.body? ++ text rest ≠ gap ++ '=' :: tail := by
    intro behind
    rw [behind] at ends
    cases gap with
    | nil => exact absurd (ends '=' rfl) (by decide)
    | cons c gap =>
      cases quoted : content.body? with
      | some body =>
        rw [quoted] at behind
        obtain rfl : '"' = c := (List.cons.inj behind).1
        exact absurd (blank '"' List.mem_cons_self) (by decide)
      | none =>
        rw [quoted] at behind
        obtain ⟨gaps, others, _, _, _, left⟩ := exists_of_blank (blank_of_space blank) behind
        exact text_ne_sign others tail left
  obtain ⟨more, lead, begins⟩ := exists_of_longer written.symm (Nat.le_of_lt short)
  rcases List.append_eq_append_iff.mp begins.symm with ⟨left, same, behind⟩ | ⟨left, same, behind⟩
  · cases left with
    | nil => exact absurd behind signed
    | cons c left =>
      -- The name goes on behind the word of the clause.
      obtain ⟨visible, special⟩ := source.visible (c := c) (by simp [same])
      rcases ends c (by simp [behind]) with space | mark
      · simp [visible] at space
      · exact absurd mark special
  · cases left with
    | nil => exact absurd behind.symm signed
    | cons c left =>
      have own : c ∈ content.lead := by simp [lead, same]
      cases gap with
      | nil =>
        obtain rfl : '=' = c := (List.cons.inj behind).1
        exact ⟨left, by rw [lead, same]⟩
      | cons d gap =>
        obtain rfl : d = c := (List.cons.inj behind).1
        have visible := (content.isLead.solid d own).1
        simp [isBlank, blank d List.mem_cons_self] at visible

/-- What stands in front of a word is no word. -/
theorem front_of_word (spaced : Spaced previous (part :: rest)) (isWord : part.isWord = true) :
    (previous.bind (·.text.getLast?)).any Text.isWord = false := by
  cases previous with
  | none => rfl
  | some front =>
    have other (own : front.isWord = true) : False := by
      simp [spaced.apart own part rfl] at isWord
    cases front with
    | gap c blank =>
      have visible : Text.isWord c = false := by
        simp only [isGap, Bool.or_eq_true, beq_iff_eq] at blank
        rcases blank with ((rfl | rfl) | rfl) | rfl <;> rfl
      exact visible
    | opening | closing => rfl
    | joiner | negation | clause => exact (other rfl).elim

/-- Where a selector begins in a part outside quotes, the part is a clause, and the selector
begins with it. -/
theorem exists_of_source_here (spaced : Spaced previous (part :: rest))
    (written : text (part :: rest) = before ++ (word ++ (gap ++ '=' :: tail)))
    (short : before.length < part.text.length) (source : IsSource word)
    (blank : ∀ c ∈ gap, isSpace c = true) (outside : outside.after before = .outside)
    (edge : Spot.atWordEdge ⟨before.getLast?.or (previous.bind (·.text.getLast?)),
      word ++ (gap ++ '=' :: tail), []⟩ = true) :
    ∃ content value, part = .clause content ∧ before = [] ∧ content.isSelector = true ∧
      content.lead = word ++ '=' :: value := by
  obtain ⟨c, letters, rfl, letter⟩ := source.exists_head
  obtain ⟨visible, special⟩ := source.visible (c := c) List.mem_cons_self
  obtain ⟨late, split⟩ : ∃ late, part.text = before ++ c :: late := by
    obtain ⟨more, same, behind⟩ := exists_of_longer written.symm (Nat.le_of_lt short)
    cases more with
    | nil => simp [same] at short
    | cons d late => exact ⟨late, by rw [same, (List.cons.inj behind).1]⟩
  have absent (each : part.text.all (fun d => foldKey d ∉ ['i', 's']) = true) : False :=
    all_decide_iff.mp each c (by simp [split]) letter
  cases part with
  | gap d isGap =>
    obtain ⟨_, rfl, _⟩ : before = [] ∧ c = d ∧ late = [] := by
      simpa [Part.text, List.singleton_eq_append_iff] using split
    simp [isSpace, isGap] at visible
  | opening | closing | negation => exact (absent (by decide)).elim
  | joiner connective => exact (absent (by cases connective <;> decide)).elim
  | clause content =>
    by_cases inside : before.length < content.lead.length
    · have whole : content.lead ++ (quotedText content.body? ++ text rest) =
          before ++ (c :: letters ++ (gap ++ '=' :: tail)) := by
        rw [← written, text_cons, Part.text, Clause.text, List.append_assoc]
      obtain ⟨value, lead⟩ := exists_value spaced.2 source blank whole inside
      cases before with
      | nil =>
        refine ⟨content, value, rfl, rfl, ?_, lead⟩
        rw [Clause.isSelector, lead]
        refine source.starts ?_
        have front := front_of_word spaced rfl
        simpa [Spot.atWordEdge, front] using edge
      | cons d before =>
        -- The selector would begin inside the word of the clause.
        have sole := content.isLead.sole (d :: before).length (by omega) (by simp)
        rw [lead, List.take_left, List.drop_left] at sole
        have starts :
            startsSelector (d :: before).getLast? (c :: letters ++ '=' :: value) = true := by
          refine source.starts ?_
          obtain ⟨e, last⟩ :=
            Option.isSome_iff_exists.mp (List.getLast?_isSome.mpr (List.cons_ne_nil d before))
          rw [last, Option.some_or] at edge
          rw [last]
          exact edge
        exact absurd (starts.symm.trans sole) (by decide)
    · obtain ⟨early, rfl, quoted⟩ : ∃ early, before = content.lead ++ early ∧
          quotedText content.body? = early ++ c :: late :=
        exists_of_longer split (Nat.not_lt.mp inside)
      rw [after_append, content.isLead.after] at outside
      refine absurd outside (not_outside content.isBody quoted ?_)
      rintro rfl
      exact special (by decide)

/-- A selector outside quotes begins with a clause. -/
theorem exists_of_source (spaced : Spaced previous parts)
    (written : text parts = before ++ (word ++ (gap ++ '=' :: tail))) (source : IsSource word)
    (blank : ∀ c ∈ gap, isSpace c = true) (outside : outside.after before = .outside)
    (edge : Spot.atWordEdge ⟨before.getLast?.or (previous.bind (·.text.getLast?)),
      word ++ (gap ++ '=' :: tail), []⟩ = true) :
    ∃ early content late value, parts = early ++ .clause content :: late ∧ text early = before ∧
      content.isSelector = true ∧ content.lead = word ++ '=' :: value := by
  induction parts generalizing previous before with
  | nil => simp at written
  | cons part rest ih =>
    by_cases short : before.length < part.text.length
    · obtain ⟨content, value, rfl, rfl, selects, lead⟩ :=
        exists_of_source_here spaced written short source blank outside edge
      exact ⟨[], content, rest, value, rfl, rfl, selects, lead⟩
    · obtain ⟨more, rfl, behind⟩ : ∃ more, before = part.text ++ more ∧
          text rest = more ++ (word ++ (gap ++ '=' :: tail)) :=
        exists_of_longer written (Nat.not_lt.mp short)
      rw [after_append, part.after_text] at outside
      have front : (part.text ++ more).getLast?.or (previous.bind (·.text.getLast?)) =
          more.getLast?.or ((some part).bind (·.text.getLast?)) := by
        obtain ⟨c, last⟩ :=
          Option.isSome_iff_exists.mp (List.getLast?_isSome.mpr part.text_ne_nil)
        rw [List.getLast?_append, Option.or_assoc, Option.bind_some, last, Option.some_or]
      rw [front] at edge
      obtain ⟨early, content, late, value, rfl, same, selects, lead⟩ :=
        ih spaced.2 behind outside edge
      exact ⟨part :: early, content, late, value, rfl, by rw [text_cons, same], selects, lead⟩

/-- The value of a selector is quoted if it is not part of the word. -/
theorem value_eq_nil_iff (selects : content.isSelector = true) (source : IsSource word)
    (lead : content.lead = word ++ '=' :: value) : value = [] ↔ content.body?.isSome = true := by
  have visible : ∀ c ∈ word, (c != '=') = true := by
    intro c own
    rw [bne_iff_ne]
    rintro rfl
    exact source.unsigned own
  have own := content.valued selects
  rwa [lead, List.dropWhile_append_of_pos visible, List.dropWhile_cons_of_neg (by simp),
    List.tail_cons] at own

/-- The value of a selector goes to the end of its clause. -/
theorem matchAt_value (spaced : Spaced (some (.clause content)) rest)
    (lead : content.lead = word ++ '=' :: value)
    (valued : value = [] ↔ content.body?.isSome = true) (before : Option Char)
    (groups : List (String × List Char)) :
    ∃ last, wordValue.matchAt? ⟨before, value ++ (quotedText content.body? ++ text rest), groups⟩ =
      some ⟨last, text rest, groups⟩ := by
  cases quoted : content.body? with
  | some body =>
    obtain rfl := valued.mpr (by simp [quoted])
    have unquoted : ∀ c ∈ body, (c != '"') = true := by
      simpa using (content.isBody body quoted).unquoted
    have inQuotes : doubleQuotedPattern.matchAt?
        ⟨before, '"' :: (body ++ '"' :: text rest), groups⟩ = some ⟨some '"', text rest, groups⟩ :=
      matchAt_seq_char (matchAt_seq_many body unquoted rfl (matchAt_seq_char rfl))
    have written : [] ++ (quotedText (some body) ++ text rest) =
        '"' :: (body ++ '"' :: text rest) := by
      simp [quotedText]
    rw [written, wordValue, matchAt_either, inQuotes]
    exact ⟨some '"', rfl⟩
  | none =>
    have nonempty : value ≠ [] := fun empty => by simpa [quoted] using valued.mp empty
    obtain ⟨c, letters, rfl⟩ := List.exists_cons_of_ne_nil nonempty
    have inside : ∀ d ∈ c :: letters, (!(isSpace d || d == '(' || d == ')')) = true := by
      intro d own
      obtain ⟨visible, special⟩ := content.isLead.solid d (by rw [lead]; simp_all)
      simp only [isBlank, Bool.or_eq_false_iff] at visible
      simp_all
    have unquoted : doubleQuotedPattern.matchAt?
        ⟨before, c :: (letters ++ text rest), groups⟩ = none := by
      have other : c ≠ '"' := by
        have special := (content.isLead.solid c (by simp [lead])).2
        simp_all
      rw [doubleQuotedPattern, matchAt?, ends_seq_cons]
      simp [char, ends, other]
    have stops : (text rest).head?.any (fun d => !(isSpace d || d == '(' || d == ')')) = false := by
      cases rest with
      | nil => rfl
      | cons next rest =>
        have other := spaced.apart rfl next rfl
        cases next with
        | gap d blank => simp [Part.text, isSpace, blank]
        | opening | closing => rfl
        | joiner | negation | clause => contradiction
    have bare : (seq [many1 (.one fun d => !(isSpace d || d == '(' || d == ')'))]).matchAt?
        ⟨before, c :: (letters ++ text rest), groups⟩ =
          some ⟨letters.getLast?.or (some c), text rest, groups⟩ :=
      matchAt_seq_many1 c letters inside stops rfl
    refine ⟨letters.getLast?.or (some c), ?_⟩
    rw [wordValue, matchAt_either]
    change (doubleQuotedPattern.matchAt? ⟨before, c :: (letters ++ text rest), groups⟩).or _ = _
    rw [unquoted]
    exact bare

/-- A selector takes its clause out as a whole. -/
theorem rest_of_hit (spaced : Spaced (some (.clause content)) rest)
    (selects : content.isSelector = true) {name : String} (source : IsSource word)
    (same : word.map foldKey = name.toList.map foldKey)
    (lead : content.lead = word ++ '=' :: value) {before : Option Char} {later : Spot}
    (hit : (equality name (.anyCase name) wordValue).pattern.hitAt? before
      (text (.clause content :: rest)) = some later) : later.rest = text rest := by
  have edge := (mem_ends_equality (mem_ends_of_hitAt hit).1).1
  have written : text (.clause content :: rest) =
      word ++ '=' :: (value ++ (quotedText content.body? ++ text rest)) := by
    simp [Part.text, Clause.text, lead]
  rw [written] at hit edge
  have valued := value_eq_nil_iff selects source lead
  have visible : (value ++ (quotedText content.body? ++ text rest)).head?.any isSpace = false := by
    cases value with
    | nil =>
      obtain ⟨body, quoted⟩ := Option.isSome_iff_exists.mp (valued.mp rfl)
      rw [quoted]
      rfl
    | cons c letters =>
      have solid := (content.isLead.solid c (by simp [lead])).1
      simp only [isBlank, Bool.or_eq_false_iff] at solid
      simp_all
  obtain ⟨last, taken⟩ := matchAt_value spaced lead valued (some '=') []
  obtain ⟨groups, named⟩ : ∃ groups, (seq [.named "value" wordValue]).matchAt?
      ⟨some '=', value ++ (quotedText content.body? ++ text rest), []⟩ =
        some ⟨last, text rest, groups⟩ := by
    rw [seq, matchAt_named, taken]
    exact ⟨_, rfl⟩
  have border : wordEdge.matchAt?
      ⟨before, word ++ '=' :: (value ++ (quotedText content.body? ++ text rest)), []⟩ =
        some ⟨before, word ++ '=' :: (value ++ (quotedText content.body? ++ text rest)), []⟩ := by
    rw [matchAt?, ends, edge]
    rfl
  have found : (equality name (.anyCase name) wordValue).pattern.matchAt?
      ⟨before, word ++ '=' :: (value ++ (quotedText content.body? ++ text rest)), []⟩ =
        some ⟨last, text rest, groups⟩ := by
    refine matchAt_seq_cons border (matchAt_seq_word word same ?_)
    refine matchAt_seq_many [] (List.forall_mem_nil _) rfl (matchAt_seq_char ?_)
    exact matchAt_seq_many [] (List.forall_mem_nil _) visible named
  obtain ⟨matched, _⟩ := Option.filter_eq_some_iff.mp hit
  obtain rfl := Option.some.inj (found.symm.trans matched)
  rfl

/-- What a selector finds is a clause. -/
theorem exists_of_find {key : String} (known : key ∈ ["index", "sourcetype", "source"])
    (spaced : Spaced none parts) {found : Selection}
    (first : (equality key (.anyCase key) wordValue).find? (text parts) = some found) :
    ∃ early content late, parts = early ++ .clause content :: late ∧
      content.isSelector = true ∧ found.rest = text (early ++ blank :: late) := by
  obtain ⟨matched, later, written, outside, hit, left, _⟩ := find?_spec first
  obtain ⟨edge, word, gap, behind, start, ended, same, blanks, _, _, _, split⟩ :=
    mem_ends_equality (mem_ends_of_hitAt hit).1
  have source : IsSource word := ⟨key, known, same⟩
  have split : matched ++ found.after = word ++ (gap ++ '=' :: (behind ++ start.rest)) := split
  rw [split] at written
  obtain ⟨early, content, late, value, rfl, front, selects, lead⟩ :=
    exists_of_source spaced written source blanks outside (by simpa [split] using edge)
  refine ⟨early, content, late, rfl, selects, ?_⟩
  have whole : matched ++ found.after = text (.clause content :: late) := by
    rw [split]
    rw [text_append, front] at written
    exact (List.append_cancel_left written).symm
  rw [whole] at hit
  have after := rest_of_hit (Spaced.append_iff.mp spaced).2.2 selects source same lead hit
  rw [Selection.rest, ← left, after, text_append, front]
  rfl

/-- A blank can stand for a selector. -/
theorem keeps_cut {early late : List Part} (selects : content.isSelector = true)
    (spaced : Spaced none (early ++ .clause content :: late)) :
    Spaced none (early ++ blank :: late) ∧
      Keeps (early ++ .clause content :: late) (early ++ blank :: late) := by
  obtain ⟨front, behind⟩ := Spaced.append_iff.mp spaced
  constructor
  · exact Spaced.append_iff.mpr
      ⟨front, meets_gap _ ' ' rfl, behind.2.behind fun part => rfl⟩
  · exact (Keeps.refl early).append
      ((Keeps.selector selects (List.forall_mem_singleton.mpr rfl)).append (.refl late))

namespace KeepsLayout

/-- Taking a selector out leaves a layout behind, and keeps the other clauses. -/
theorem remove {key : String} (known : key ∈ ["index", "sourcetype", "source"]) :
    KeepsLayout fun text => ((equality key (.anyCase key) wordValue).remove text).2 := by
  intro parts spaced
  beta_reduce
  induction written : text parts using
      Selector.remove.induct (equality key (.anyCase key) wordValue) generalizing parts with
  | case1 text none =>
    rw [Selector.remove, none]
    exact ⟨parts, written.symm, spaced, .refl _⟩
  | case2 text found first shorter ih =>
    subst written
    obtain ⟨early, content, late, rfl, selects, rest⟩ := exists_of_find known spaced first
    obtain ⟨cutSpaced, keeps⟩ := keeps_cut selects spaced
    obtain ⟨others, same, othersSpaced, keepsOthers⟩ :=
      ih _ cutSpaced rest.symm
    rw [Selector.remove, first]
    simp only [shorter, ↓reduceIte]
    exact ⟨others, same, othersSpaced, keeps.trans keepsOthers⟩
  | case3 text found first longer =>
    subst written
    obtain ⟨early, content, late, rfl, selects, rest⟩ := exists_of_find known spaced first
    rw [Selector.remove, first]
    simp only [longer, ↓reduceIte]
    exact ⟨_, rest, keeps_cut selects spaced⟩

theorem removeAll : KeepsLayout fun text => (Selector.removeAll selectors text).2 := by
  have listed (keys : List String) (known : ∀ key ∈ keys, key ∈ ["index", "sourcetype", "source"]) :
      KeepsLayout fun text => (Selector.removeAll
        (keys.map fun key => equality key (.anyCase key) wordValue) text).2 := by
    induction keys with
    | nil => exact fun parts spaced => ⟨parts, rfl, spaced, .refl _⟩
    | cons key keys ih =>
      obtain ⟨own, others⟩ := List.forall_mem_cons.mp known
      exact (ih others).comp (remove own)
  exact listed _ fun key own => own

end KeepsLayout

/-- The query that is left of a filter is a filter. -/
theorem exists_extract (spaced : Spaced none parts) :
    ∃ others, (extract selectors (String.ofList (text parts))).2 = String.ofList (text others) ∧
      Spaced none others ∧ Keeps parts others := by
  obtain ⟨others, same, othersSpaced, keeps⟩ :=
    (KeepsLayout.clean.comp KeepsLayout.removeAll) parts spaced
  refine ⟨others, ?_, othersSpaced, keeps⟩
  rw [extract_snd, String.toList_ofList, ← same]
  rfl

/-- The walk over a part finds nothing but the clause of the part. -/
theorem clause_of_step {standing next : Standing} {own : List (Bool × Clause)}
    (stepped : standing.step part = some (next, own)) : ∀ entry ∈ own, part = .clause entry.2 := by
  intro entry listed
  cases part with
  | clause =>
    obtain ⟨_, _, _, rfl⟩ := step_clause stepped
    rw [List.mem_singleton.mp listed]
  | gap | opening | negation =>
    cases stepped
    contradiction
  | joiner connective =>
    simp only [Standing.step, Option.ite_none_right_eq_some, Option.some.injEq,
      Prod.mk.injEq] at stepped
    obtain ⟨_, _, rfl⟩ := stepped
    contradiction
  | closing =>
    obtain ⟨_, _, _, _, _, rfl⟩ := step_closed stepped
    contradiction

/-- The walk finds clauses of the parts only. -/
theorem clause_mem_of_run {standing last : Standing} {clauses : List (Bool × Clause)}
    (walked : run standing parts = some (last, clauses)) :
    ∀ entry ∈ clauses, .clause entry.2 ∈ parts := by
  induction parts generalizing standing clauses with
  | nil =>
    cases walked
    exact List.forall_mem_nil _
  | cons part rest ih =>
    obtain ⟨next, own, others, stepped, behind, rfl⟩ := run_cons.mp walked
    rw [List.forall_mem_append]
    refine ⟨fun entry listed => ?_, fun entry listed =>
      List.mem_cons_of_mem _ (ih behind entry listed)⟩
    exact List.mem_cons.mpr (.inl (clause_of_step stepped entry listed).symm)

/-- A filter that is laid out. -/
structure Filter where
  parts : List Part
  spaced : Spaced none parts

namespace Filter

def query (filter : Filter) : String :=
  String.ofList (text filter.parts)

/-- Whether every NOT of a filter has something to negate that is no selector. -/
def isGuarded (filter : Filter) : Bool :=
  (run {} filter.parts).isSome

end Filter

/-- Taking the selectors out of a filter does not change under how many NOTs, an odd number or
not, the other clauses stand. Both the filter and what is left of it can be read. What comes in
are at most words that stand alone, and what is lost besides such words are the selectors. -/
theorem extract_keeps_polarity (filter : Filter) (guarded : filter.isGuarded = true) :
    ∃ before after, dialect.tokenize filter.query = .ok before ∧
      dialect.tokenize (extract selectors filter.query).2 = .ok after ∧
      ∀ whole left, compile before = .ok whole → compile after = .ok left →
        (∀ entry ∈ left.signedLeaves false,
          entry ∈ whole.signedLeaves false ∨ IsLone entry.2) ∧
        ∀ entry ∈ whole.signedLeaves false,
          entry ∈ left.signedLeaves false ∨ IsLone entry.2 ∨
            ∃ content, .clause content ∈ filter.parts ∧ content.isSelector = true ∧
              entry.2 = content.leaf := by
  obtain ⟨⟨last, clauses⟩, walked⟩ := Option.isSome_iff_exists.mp guarded
  obtain ⟨others, same, spaced, keeps⟩ := exists_extract filter.spaced
  obtain ⟨kept, walkedLeft, fewer, also⟩ := keeps _ _ _ walked
  obtain ⟨known, found⟩ := signedLeaves_run walked
  obtain ⟨knownLeft, foundLeft⟩ := signedLeaves_run walkedLeft
  refine ⟨_, _, tokenize_text filter.spaced, same ▸ tokenize_text spaced, ?_⟩
  intro whole left compiled recompiled
  rw [signedLeaves_of_parts compiled, signedLeaves_of_parts recompiled]
  constructor
  · intro entry listed
    refine (knownLeft entry listed).imp_left fun own => ?_
    obtain ⟨clause, isKept, rfl⟩ := List.mem_map.mp own
    exact found clause (fewer.subset isKept)
  · intro entry listed
    rcases known entry listed with own | lone
    · obtain ⟨clause, walkedOver, rfl⟩ := List.mem_map.mp own
      cases selects : clause.2.isSelector with
      | true =>
        exact .inr (.inr ⟨clause.2, clause_mem_of_run walked clause walkedOver, selects, rfl⟩)
      | false =>
        have stays : clause ∈ kept.filter isKept := by
          rw [also]
          exact List.mem_filter.mpr ⟨walkedOver, by simp [isKept, selects]⟩
        exact .inl (foundLeft clause (List.mem_of_mem_filter stays))
    · exact .inr (.inl lone)

/-- The comparison of a field with a quoted text is a clause. -/
def Clause.comparing (name body : List Char) (isName : IsName name)
    (isLead : IsLead (name ++ ['='])) (isBody : IsBody body)
    (plain : escaping.escapeChars .doubleQuoted body = body) {negated : Bool} {leaf : Leaf}
    (told : Dialect.comparison name .eq "*" (.text (String.ofList body)) =
      clauseTokens negated leaf) : Clause where
  lead := name ++ ['=']
  body? := some body
  negated
  leaf
  isLead
  isBody := by
    rintro _ ⟨⟩
    exact isBody
  nonempty := by simp
  valued _ := by
    have visible : ∀ c ∈ name, (c != '=') = true := by
      intro c own
      rw [bne_iff_ne]
      rintro rfl
      exact absurd (isName.continues _ own) (by decide)
    rw [List.dropWhile_append_of_pos visible]
    simp
  reads := by
    have symbol : symbolOf? .eq = some ['='] := rfl
    have reads := readsAs_scalar isName symbol (denotes_quoted body)
    rw [plain, told] at reads
    simpa [quotedText] using reads

/-- A filter with a NOT in front of parentheses, of which one clause is a selector. -/
theorem extract_keeps_polarity_nested :
    ∃ (filter : Filter) (before after : List Token) (whole left : Tree),
      filter.query = "index=\"main\" NOT (user=\"bob\" OR source=\"a b\")" ∧
      filter.isGuarded = true ∧
      dialect.tokenize filter.query = .ok before ∧ compile before = .ok whole ∧
      (extract selectors filter.query).2 = "NOT (user=\"bob\")" ∧
      dialect.tokenize (extract selectors filter.query).2 = .ok after ∧ compile after = .ok left ∧
      (left.signedLeaves false).map (fun entry => (entry.1, entry.2.describe)) =
        [(true, "user eq bob")] ∧
      (∀ entry ∈ left.signedLeaves false,
        entry ∈ whole.signedLeaves false ∨ IsLone entry.2) ∧
      ∀ entry ∈ whole.signedLeaves false,
        entry ∈ left.signedLeaves false ∨ IsLone entry.2 ∨
          ∃ content, .clause content ∈ filter.parts ∧ content.isSelector = true ∧
            entry.2 = content.leaf := by
  let index : Clause := .comparing "index".toList "main".toList (by decide) (by decide)
    (by decide +kernel) (by decide +kernel)
    (rfl : _ = clauseTokens false (.comparison ⟨"index", []⟩ .eq (.text "main") {}))
  let user : Clause := .comparing "user".toList "bob".toList (by decide) (by decide)
    (by decide +kernel) (by decide +kernel)
    (rfl : _ = clauseTokens false (.comparison ⟨"user", []⟩ .eq (.text "bob") {}))
  let source : Clause := .comparing "source".toList "a b".toList (by decide) (by decide)
    (by decide +kernel) (by decide +kernel)
    (rfl : _ = clauseTokens false (.comparison ⟨"source", []⟩ .eq (.text "a b") {}))
  let filter : Filter :=
    ⟨[.clause index, blank, .negation, blank, .opening, .clause user, blank, .joiner .or, blank,
      .clause source, .closing], by repeat' constructor⟩
  have query : filter.query = "index=\"main\" NOT (user=\"bob\" OR source=\"a b\")" := by
    decide +kernel
  have guarded : filter.isGuarded = true := by decide +kernel
  have rest : (extract selectors filter.query).2 =
      String.ofList (text [.negation, blank, .opening, .clause user, .closing]) := by
    decide +kernel
  obtain ⟨before, after, read, reread, keeps⟩ := extract_keeps_polarity filter guarded
  obtain rfl := Except.ok.inj ((tokenize_text filter.spaced).symm.trans read)
  rw [rest] at reread
  obtain rfl := Except.ok.inj ((tokenize_text (by repeat' constructor)).symm.trans reread)
  have compiled : compile (Token.insertImplicitAnds (tokens filter.parts)) =
      .ok (.group .and [.leaf index.leaf,
        .group .not [.group .or [.leaf user.leaf, .leaf source.leaf]]]) := rfl
  have recompiled : compile (Token.insertImplicitAnds
      (tokens [.negation, blank, .opening, .clause user, .closing])) =
      .ok (.group .not [.leaf user.leaf]) := rfl
  refine ⟨filter, _, _, _, _, query, guarded, read, compiled, ?_, rest ▸ reread, recompiled, rfl,
    keeps _ _ compiled recompiled⟩
  rw [rest]
  decide +kernel

/-- A selector that is taken out leaves its NOT to the clause behind it, and of parentheses in
which only selectors stand a connective can be left. -/
theorem not_of_selector_is_left :
    let polarity (text : String) : Option (List (Bool × String)) := do
      let tokens ← (dialect.tokenize text).toOption
      let tree ← (compile tokens).toOption
      return (tree.signedLeaves false).map fun entry => (entry.1, entry.2.describe)
    polarity "NOT index=main user=bob" = some [(true, "index eq main"), (false, "user eq bob")] ∧
    polarity (extract selectors "NOT index=main user=bob").2 = some [(true, "user eq bob")] ∧
    polarity "(index=a OR index=b OR index=c OR index=d) x=1" =
      some [(false, "index eq a"), (false, "index eq b"), (false, "index eq c"),
        (false, "index eq d"), (false, "x eq 1")] ∧
    polarity (extract selectors "(index=a OR index=b OR index=c OR index=d) x=1").2 =
      some [(false, "keywords OR"), (false, "x eq 1")] := by
  decide +kernel

end Detection.Spl
