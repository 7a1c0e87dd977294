import Detection.Proofs.PipelineStages
import Detection.Proofs.SoleComparison
import Detection.Proofs.SourceRemoval
import Detection.Proofs.WildcardReading

/-!
# Fields that end like a selector

A selector is looked for wherever its name begins a word. The name of a field may have points and
hyphens in it, and behind these a word begins. So the comparison of a field whose name ends with
the name of a selector behind a point or a hyphen is taken for the selector: its value becomes a
hint, and the rest of the name is a word that is searched for. All other fields are compared as
they are written, and give no hints.
-/
namespace Detection.Spl

open Text Lexer Pattern Selector Dialect

variable {key : String} {c : Char} {stem word : List Char}

/-- The characters of a plain value. Letters and digits of all scripts are among them; white space,
quotes, backslashes, stars, bars, parentheses and the sign of equality are not. -/
def isPlainValue (c : Char) : Bool :=
  !(isBlank c || ['"', '\'', '\\', '*', '=', '|', '(', ')'].contains c)

/-- The text of an equality with a value between quotes. -/
def equalityText (name value : List Char) : List Char :=
  name ++ '=' :: '"' :: (value ++ ['"'])

/-- A name that consists of a stem and the name of a selector in any letter case. The stem ends
with a point or a hyphen. -/
structure BorrowsSource (name stem : List Char) (key : String) : Prop where
  known : key ∈ ["index", "sourcetype", "source"]
  parted : stem.getLast? = some '.' ∨ stem.getLast? = some '-'
  ends : ∃ word, word.map foldKey = key.toList.map foldKey ∧ name = stem ++ word

/-- The places of a name are looked at one by one. -/
instance (name : List Char) : Decidable (∃ stem key, BorrowsSource name stem key) :=
  decidable_of_iff ((List.range (name.length + 1)).any (fun place =>
      ["index", "sourcetype", "source"].any fun key =>
        ((name.take place).getLast? == some '.' || (name.take place).getLast? == some '-') &&
          (name.drop place).map foldKey == key.toList.map foldKey) = true) <| by
    simp only [List.any_eq_true, Bool.and_eq_true, Bool.or_eq_true, beq_iff_eq, List.mem_range]
    constructor
    · rintro ⟨place, _, key, known, parted, same⟩
      exact ⟨name.take place, key, known, parted, _, same, (List.take_append_drop _ _).symm⟩
    · rintro ⟨stem, key, known, parted, word, same, rfl⟩
      have bound : stem.length < (stem ++ word).length + 1 := by
        rw [List.length_append]
        omega
      refine ⟨stem.length, bound, key, known, ?_⟩
      rw [List.take_left, List.drop_left]
      exact ⟨parted, same⟩

/-! ## The characters of the text -/

theorem isWord_of_continues (inside : continuesName c = true) :
    Text.isWord c = true ∨ c = '.' ∨ c = '-' := by
  simp only [continuesName, isNameStart, Bool.or_eq_true, beq_iff_eq] at inside
  simp only [Text.isWord, Char.isAlphanum, Bool.or_eq_true, beq_iff_eq]
  tauto

theorem ascii_of_continues (inside : continuesName c = true) : c.toNat < 128 := by
  rcases isWord_of_continues inside with word | rfl | rfl
  · simp only [Text.isWord, Bool.or_eq_true, beq_iff_eq] at word
    rcases word with letter | rfl
    · exact ascii_of_isAlphanum letter
    · decide
  · decide
  · decide

theorem isPlainValue_of_continues (inside : continuesName c = true) :
    isPlainValue c = true ∧ isBare c = true := by
  have codes : ∀ c : Char, c.toNat < 128 → continuesName c = true →
      isPlainValue c = true ∧ isBare c = true :=
    forall_ascii (by decide)
  exact codes c (ascii_of_continues inside) inside

/-- A plain value has none of the characters that are listed. -/
theorem ne_of_isPlainValue (plain : isPlainValue c = true) :
    isBlank c = false ∧ ∀ mark ∈ ['"', '\'', '\\', '*', '=', '|', '(', ')'], c ≠ mark := by
  simp only [isPlainValue, Bool.not_eq_true', Bool.or_eq_false_iff] at plain
  refine ⟨plain.1, ?_⟩
  rintro mark listed rfl
  exact absurd (List.contains_iff_mem.mpr listed) (by rw [plain.2]; decide)

section

variable {name value : List Char}

section

variable (isField : IsField name) (plain : ∀ c ∈ value, isPlainValue c = true)
include isField plain

theorem solid_equalityText :
    ∀ c ∈ equalityText name value, isBlank c = false ∧ c ≠ '(' ∧ c ≠ '|' := by
  have each (c : Char) (plain : isPlainValue c = true) : isBlank c = false ∧ c ≠ '(' ∧ c ≠ '|' := by
    obtain ⟨blank, other⟩ := ne_of_isPlainValue plain
    exact ⟨blank, other '(' (by decide), other '|' (by decide)⟩
  intro c member
  simp only [equalityText, List.mem_append, List.mem_cons, List.not_mem_nil, or_false] at member
  rcases member with own | rfl | rfl | own | rfl
  · exact each c (isPlainValue_of_continues (isField.continues c own)).1
  · decide
  · decide
  · exact each c (plain c own)
  · decide

/-! ## Where selectors are found -/

/-- A selector is found at the end of the name only. -/
theorem place_of_hit {early rest : List Char} {before : Option Char} {later : Spot}
    (split : equalityText name value = early ++ rest)
    (hit : (equality key (.anyCase key) wordValue).pattern.hitAt? before rest = some later) :
    Spot.atWordEdge ⟨before, rest, []⟩ = true ∧
      ∃ word, word.map foldKey = key.toList.map foldKey ∧ name = early ++ word := by
  obtain ⟨edge, word, gap, behind, start, _, same, blank, _, _, _, text⟩ :=
    mem_ends_equality (mem_ends_of_hitAt hit).1
  refine ⟨edge, word, same, ?_⟩
  have whole : name ++ '=' :: ('"' :: (value ++ ['"'])) =
      (early ++ (word ++ gap)) ++ '=' :: (behind ++ start.rest) := by
    have split : name ++ '=' :: ('"' :: (value ++ ['"'])) = early ++ rest := split
    rw [split, show rest = _ from text]
    simp
  have nameFree : '=' ∉ name := fun own => absurd (isField.continues _ own) (by decide)
  have tailFree : '=' ∉ '"' :: (value ++ ['"']) := by
    intro member
    have own : '=' ∈ value := by simpa using member
    exact absurd (plain _ own) (by decide)
  obtain ⟨found, _, _⟩ := (List.append_cons_inj_of_notMem nameFree tailFree).mp whole
  have none : gap = [] := by
    rw [List.eq_nil_iff_forall_not_mem]
    intro c own
    have visible := (isSpace_of_continues (isField.continues c (by simp [found, own]))).1
    rw [blank c own] at visible
    contradiction
  rw [found, none, List.append_nil]

/-- The name of a selector that is found is the end of the name, and it begins a word. -/
theorem place_of_find {found : Selection}
    (first : (equality key (.anyCase key) wordValue).find? (equalityText name value) =
      some found) :
    ∃ word, word.map foldKey = key.toList.map foldKey ∧ name = found.before ++ word ∧
      Spot.atWordEdge ⟨found.before.getLast?, equalityText word value, []⟩ = true := by
  obtain ⟨matched, later, split, _, hit, _⟩ := find?_spec first
  obtain ⟨edge, word, same, written⟩ := place_of_hit isField plain split hit
  have rest : matched ++ found.after = equalityText word value := by
    have whole : name ++ '=' :: '"' :: (value ++ ['"']) = found.before ++ _ := split
    rw [written, List.append_assoc] at whole
    exact (List.append_cancel_left whole).symm
  exact ⟨word, same, written, rest ▸ edge⟩

end

/-- The name of a selector in a field name begins with a character of words. -/
theorem exists_head_of_source (isField : IsField (stem ++ word)) (source : IsSource word) :
    ∃ c letters, word = c :: letters ∧ Text.isWord c = true := by
  obtain ⟨c, letters, rfl, letter⟩ := source.exists_head
  refine ⟨c, letters, rfl, ?_⟩
  rcases isWord_of_continues (isField.continues c (by simp)) with word | rfl | rfl
  · exact word
  · exact absurd letter (by decide)
  · exact absurd letter (by decide)

/-- At a word border inside a name stands a point or a hyphen. -/
theorem borrows_of_edge (known : key ∈ ["index", "sourcetype", "source"]) {rest : List Char}
    (isField : IsField (stem ++ word)) (same : word.map foldKey = key.toList.map foldKey)
    (inside : stem ≠ []) (edge : Spot.atWordEdge ⟨stem.getLast?, word ++ rest, []⟩ = true) :
    BorrowsSource (stem ++ word) stem key := by
  refine ⟨known, ?_, word, same, rfl⟩
  obtain ⟨c, letters, rfl, letter⟩ := exists_head_of_source isField ⟨key, known, same⟩
  obtain ⟨d, last⟩ := Option.isSome_iff_exists.mp (List.getLast?_isSome.mpr inside)
  have other : Text.isWord d = false := by
    simpa [Spot.atWordEdge, last, letter] using edge
  have own : continuesName d = true :=
    isField.continues d (List.mem_append_left _ (List.mem_of_getLast? last))
  rcases isWord_of_continues own with word | rfl | rfl
  · rw [other] at word
    contradiction
  · exact .inl last
  · exact .inr last

/-- No name of a selector ends like another one. -/
theorem key_unique {other : String} (known : key ∈ ["index", "sourcetype", "source"])
    (listed : other ∈ ["index", "sourcetype", "source"]) {another : List Char}
    (same : word.map foldKey = key.toList.map foldKey)
    (also : another.map foldKey = other.toList.map foldKey) (ends : word <:+ name)
    (others : another <:+ name) : key = other := by
  have each : ∀ key ∈ ["index", "sourcetype", "source"],
      ∀ other ∈ ["index", "sourcetype", "source"],
        key.toList.map foldKey <:+ other.toList.map foldKey → key = other := by
    decide +kernel
  rcases List.suffix_or_suffix_of_suffix ends others with shorter | shorter
  · exact each key known other listed (same ▸ also ▸ shorter.map foldKey)
  · exact (each other listed key known (same ▸ also ▸ shorter.map foldKey)).symm

/-- Where the name of a selector begins a word in front of a quoted value, the selector takes the
value. -/
theorem hit_of_edge {before : Option Char} (same : word.map foldKey = key.toList.map foldKey)
    (plain : ∀ c ∈ value, isPlainValue c = true)
    (edge : Spot.atWordEdge ⟨before, equalityText word value, []⟩ = true) :
    (equality key (.anyCase key) wordValue).pattern.hitAt? before (equalityText word value) =
      some ⟨some '"', [], [("value", '"' :: (value ++ ['"']))]⟩ := by
  have unquoted : ∀ c ∈ value, (c != '"') = true := by
    intro c own
    exact bne_iff_ne.mpr ((ne_of_isPlainValue (plain c own)).2 '"' (by decide))
  have inQuotes : doubleQuotedPattern.matchAt? ⟨some '=', '"' :: (value ++ ['"']), []⟩ =
      some ⟨some '"', [], []⟩ :=
    matchAt_seq_char (matchAt_seq_many value unquoted rfl (matchAt_seq_char rfl))
  have named : (seq [.named "value" wordValue]).matchAt?
      ⟨some '=', '"' :: (value ++ ['"']), []⟩ =
        some ⟨some '"', [], [("value", '"' :: (value ++ ['"']))]⟩ := by
    rw [seq, matchAt_named, wordValue, matchAt_either, inQuotes]
    simp [Spot.taken]
  have border : wordEdge.matchAt? ⟨before, equalityText word value, []⟩ =
      some ⟨before, equalityText word value, []⟩ := by
    rw [matchAt?, ends, edge]
    rfl
  have found : (equality key (.anyCase key) wordValue).pattern.matchAt?
      ⟨before, equalityText word value, []⟩ =
        some ⟨some '"', [], [("value", '"' :: (value ++ ['"']))]⟩ := by
    refine matchAt_seq_cons border (matchAt_seq_word word same ?_)
    refine matchAt_seq_many [] (List.forall_mem_nil _) rfl (matchAt_seq_char ?_)
    exact matchAt_seq_many [] (List.forall_mem_nil _) rfl named
  refine Option.filter_eq_some_iff.mpr ⟨found, ?_⟩
  simp only [equalityText, List.length_append, List.length_cons, List.length_nil,
    decide_eq_true_eq]
  omega

/-- The value that a selector takes is kept without its quotes. -/
theorem values_equality (key : String) (plain : ∀ c ∈ value, isPlainValue c = true) :
    (equality key (.anyCase key) wordValue).values [("value", '"' :: (value ++ ['"']))] =
      [String.ofList value] := by
  have unmarked : '\'' ∉ value := fun own =>
    (ne_of_isPlainValue (plain _ own)).2 '\'' (by decide) rfl
  have trimmed : trimQuotes ('"' :: (value ++ ['"'])) = value := by
    simp only [trimQuotes, List.getLast?_concat, List.dropLast_concat]
    exact replaceFrom_of_not_mem unmarked
  have single : (equality key (.anyCase key) wordValue).values
      [("value", '"' :: (value ++ ['"']))] =
        [String.ofList (trimQuotes ('"' :: (value ++ ['"'])))] := rfl
  rw [single, trimmed]

/-- No selector is found where there is no sign of equality. -/
theorem find_of_unsigned {selector : Selector} (listed : selector ∈ selectors) {text : List Char}
    (unsigned : '=' ∉ text) : selector.find? text = none := by
  obtain ⟨key, _, rfl⟩ := List.mem_map.mp listed
  refine Option.eq_none_iff_forall_ne_some.mpr fun found first => ?_
  obtain ⟨matched, later, split, _, hit, _⟩ := find?_spec first
  obtain ⟨_, word, gap, behind, start, _, _, _, _, _, _, text⟩ :=
    mem_ends_equality (mem_ends_of_hitAt hit).1
  change matched ++ found.after = _ at text
  apply unsigned
  rw [split, text]
  simp

/-! ## What is left of the text -/

/-- A field that does not end like a selector is left as it is. -/
theorem extract_equalityText (isField : IsField name) (other : ¬ IsSource name)
    (plain : ∀ c ∈ value, isPlainValue c = true)
    (own : ¬ ∃ stem key, BorrowsSource name stem key) :
    extract selectors (String.ofList (equalityText name value)) =
      ([], String.ofList (equalityText name value)) := by
  have none (selector : Selector) (listed : selector ∈ selectors) :
      selector.find? (equalityText name value) = none := by
    obtain ⟨key, known, rfl⟩ := List.mem_map.mp listed
    refine Option.eq_none_iff_forall_ne_some.mpr fun found first => ?_
    obtain ⟨word, same, written, edge⟩ := place_of_find isField plain first
    by_cases whole : found.before = []
    · rw [whole, List.nil_append] at written
      exact other ⟨key, known, written ▸ same⟩
    · rw [written] at isField
      exact own ⟨found.before, key, written ▸ borrows_of_edge known isField same whole edge⟩
  have cleaned : clean (equalityText name value) = equalityText name value := by
    refine clean_of_solid fun c own => ?_
    obtain ⟨blank, opening, _⟩ := solid_equalityText isField plain c own
    exact ⟨blank, opening⟩
  rw [extract_of_find_none (by simpa using none), String.toList_ofList, cleaned]

section

variable (isField : IsField (stem ++ word)) (plain : ∀ c ∈ value, isPlainValue c = true)
  (known : key ∈ ["index", "sourcetype", "source"])
  (same : word.map foldKey = key.toList.map foldKey)
include isField plain known same

/-- In a field that ends like a selector, the selector is found at its place. -/
theorem find_borrowed (parted : stem.getLast? = some '.' ∨ stem.getLast? = some '-') :
    (equality key (.anyCase key) wordValue).find? (equalityText (stem ++ word) value) =
      some ⟨stem, [("value", '"' :: (value ++ ['"']))], []⟩ := by
  have written : equalityText (stem ++ word) value = stem ++ equalityText word value :=
    List.append_assoc _ _ _
  have edge : Spot.atWordEdge ⟨stem.getLast?, equalityText word value, []⟩ = true := by
    obtain ⟨c, letters, rfl, letter⟩ := exists_head_of_source isField ⟨key, known, same⟩
    have other : stem.getLast?.any Text.isWord = false := by
      rcases parted with last | last <;> rw [last] <;> rfl
    simp [equalityText, Spot.atWordEdge, other, letter]
  have outside : Quoting.outside.after stem = .outside := by
    refine Quoting.after_unquoted fun c own => ?_
    have inside := isField.continues c (List.mem_append_left _ own)
    have marks := (ne_of_isPlainValue (isPlainValue_of_continues inside).1).2
    exact ⟨marks '"' (by decide), marks '\'' (by decide)⟩
  rw [written]
  refine find?_of_hit (hit_of_edge same plain edge) outside fun early c late split => ?_
  -- An earlier hit would be a longer name of the same selector.
  refine Option.eq_none_iff_forall_ne_some.mpr fun found hit => ?_
  have cut : equalityText (stem ++ word) value =
      early ++ (c :: (late ++ equalityText word value)) := by
    rw [written, split]
    simp
  obtain ⟨_, another, also, place⟩ := place_of_hit isField plain cut hit
  have lengths : another.length = word.length := by
    simpa using congrArg List.length (also.trans same.symm)
  have total := congrArg List.length place
  rw [split] at total
  simp only [List.length_append, List.length_cons] at total
  omega

/-- No other selector is found in such a field. -/
theorem find_other_key {other : String} (listed : other ∈ ["index", "sourcetype", "source"])
    (differs : other ≠ key) :
    (equality other (.anyCase other) wordValue).find? (equalityText (stem ++ word) value) =
      none := by
  refine Option.eq_none_iff_forall_ne_some.mpr fun found first => ?_
  obtain ⟨another, also, place, _⟩ := place_of_find isField plain first
  exact differs (key_unique listed known also same ⟨found.before, place.symm⟩ ⟨stem, rfl⟩)

end

/-- The stem is left as it is. -/
theorem clean_stem (inside : ∀ c ∈ stem, continuesName c = true)
    (parted : stem.getLast? = some '.' ∨ stem.getLast? = some '-') :
    clean (stem ++ [' ']) = stem := by
  refine clean_of_trailing (fun c own => ?_) (fun c last => ?_)
  · obtain ⟨blank, marks⟩ := ne_of_isPlainValue (isPlainValue_of_continues (inside c own)).1
    exact ⟨blank, marks '(' (by decide)⟩
  · rcases parted with ends | ends
    · cases ends.symm.trans last
      decide
    · cases ends.symm.trans last
      decide

/-- Of a field that ends like a selector the stem is left, and the value is a hint. -/
theorem extract_borrowed (isField : IsField name) (plain : ∀ c ∈ value, isPlainValue c = true)
    (borrows : BorrowsSource name stem key) :
    extract selectors (String.ofList (equalityText name value)) =
      ([(key, [String.ofList value])], String.ofList stem) := by
  obtain ⟨known, parted, word, same, rfl⟩ := borrows
  have inside : ∀ c ∈ stem, continuesName c = true := fun c own =>
    isField.continues c (List.mem_append_left _ own)
  have first := find_borrowed isField plain known same parted
  have unsigned : '=' ∉ stem ++ [' '] := by
    intro own
    rcases List.mem_append.mp own with named | blank
    · exact absurd (inside _ named) (by decide)
    · exact absurd (List.mem_singleton.mp blank) (by decide)
  obtain ⟨early, late, keys, fresh⟩ := List.eq_append_cons_of_mem known
  let select (key : String) : Selector := equality key (.anyCase key) wordValue
  have split : selectors = early.map select ++ select key :: late.map select := by
    rw [← List.map_cons, ← List.map_append, ← keys]
    rfl
  have before : ∀ selector ∈ early.map select,
      selector.find? (String.ofList (equalityText (stem ++ word) value)).toList = none := by
    intro selector listed
    obtain ⟨other, own, rfl⟩ := List.mem_map.mp listed
    rw [String.toList_ofList]
    refine find_other_key isField plain known same (keys ▸ List.mem_append_left _ own) ?_
    rintro rfl
    exact fresh own
  have behind : ∀ selector ∈ select key :: late.map select,
      selector.find? (stem ++ [' ']) = none := fun selector listed =>
    find_of_unsigned (split ▸ List.mem_append_right _ listed) unsigned
  have collected : ((select key).values [("value", '"' :: (value ++ ['"']))]).foldl
      (fun (hints : Hints) found => hints.add key found) [] = [(key, [String.ofList value])] := by
    rw [values_equality key plain]
    rfl
  rw [← String.toList_ofList (l := equalityText (stem ++ word) value)] at first
  rw [split, extract_of_find_once before first behind collected]
  exact congrArg (fun text => ([(key, [String.ofList value])], String.ofList text))
    (clean_stem inside parted)

/-! ## Reading -/

theorem BorrowsSource.isField (borrows : BorrowsSource name stem key) (isField : IsField name) :
    IsField stem := by
  obtain ⟨_, parted, word, _, rfl⟩ := borrows
  obtain ⟨first, others, written, starts, inside⟩ := isField
  cases stem with
  | nil => rcases parted with last | last <;> cases last
  | cons c letters =>
    obtain ⟨rfl, rfl⟩ := List.cons.inj written
    exact ⟨c, letters, rfl, starts, fun d own => inside d (List.mem_append_left _ own)⟩

/-- A field, the sign and a plain value between quotes are a comparison. -/
theorem tokenize_equalityText {name value : String} (isField : IsField name.toList)
    (plain : ∀ c ∈ value.toList, isPlainValue c = true) :
    dialect.tokenize (String.ofList (equalityText name.toList value.toList)) =
      .ok [.leaf (.comparison { name } .eq (.text value) {})] := by
  have marks (c : Char) (own : c ∈ value.toList) := (ne_of_isPlainValue (plain c own)).2
  have unescaped : escaping.escapeChars .doubleQuoted value.toList = value.toList := by
    rw [Escaping.escapeChars_single rfl, EscapeRule.apply_backslash]
    refine (List.flatMap_congr fun c own => ?_).trans (List.flatMap_singleton' _)
    have backslash : c ≠ '\\' := marks c own _ (by decide)
    have quote : c ≠ '"' := marks c own _ (by decide)
    exact if_neg (by simp [backslash, quote])
  have denotes : Denotes ("\"" ++ value ++ "\"").toList (.text (String.ofList value.toList)) := by
    simpa [unescaped] using denotes_quoted value.toList
  have unstarred : '*' ∉ value.toList := fun own => marks _ own '*' (by decide) rfl
  have text : String.ofList (equalityText name.toList value.toList) =
      name ++ "=" ++ ("\"" ++ value ++ "\"") := by
    rw [← String.toList_inj]
    simp [equalityText]
  rw [text, tokenize_equality isField denotes, promoteWildcards_plain .eq unstarred,
    String.ofList_toList]

theorem keyword_loneWord (isField : IsField name) :
    dialect.keyword? name = .ok (some ([.leaf (loneWord name)], [])) := by
  have inside : ∀ c ∈ name, isPlainValue c = true ∧ isBare c = true := fun c own =>
    isPlainValue_of_continues (isField.continues c own)
  have unstarred : '*' ∉ name := fun own =>
    (ne_of_isPlainValue (inside _ own).1).2 '*' (by decide) rfl
  have keyword : dialect.keyword (.text (String.ofList name)) = .leaf (loneWord name) := by
    have star : dialect.wildcard.toList = ['*'] := rfl
    simp only [Dialect.keyword, String.toList_ofList, star, promoteWildcards_plain .eq unstarred]
    rfl
  obtain ⟨first, others, rfl, _⟩ := isField
  have bare : dialect.bareWord? false (first :: others) = some (first :: others, []) := by
    have span : spanOf isBare ((first :: others) ++ []) = (first :: others, []) :=
      spanOf_append (fun c own => (inside c own).2) (by simp)
    rw [List.append_nil] at span
    simp only [bareWord?, show dialect.bare? = some isBare from rfl, span]
    rfl
  have unquoted : ((first :: others).head? == some '"' ||
      (first :: others).head? == some '\'') = false := by
    have marks := (ne_of_isPlainValue (inside first List.mem_cons_self).1).2
    simp [marks '"' (by decide), marks '\'' (by decide)]
  have slashes : dialect.slashes = false := rfl
  rw [keyword?, unquoted]
  simp only [slashes, Bool.false_eq_true, ↓reduceIte, bare, Option.map_some, keyword]

/-- A name with nothing behind it is a word that is searched for. -/
theorem tokenize_loneWord (isField : IsField name)
    (free : ∀ entry ∈ dialect.connectives, name ≠ entry.1.toList) :
    dialect.tokenize (String.ofList name) = .ok [.leaf (loneWord name)] := by
  have unconnected : dialect.connective? (name ++ []) = none :=
    connective_none isField (by simp [EndsName]) fun entry listed same =>
      absurd same (free entry listed)
  have uncompared : dialect.comparison? (name ++ []) = .ok none := by
    have field := field_append isField (by simp [EndsName] : EndsName [])
    have symbol (spaced : Bool) : dialect.symbolAfter? spaced [] = none := by
      cases spaced <;> rfl
    rw [comparison?, head?, field]
    simp only [List.dropWhile_nil, symbol, Option.map_none]
  rw [List.append_nil] at unconnected uncompared
  have searched := keyword_loneWord isField
  have apart := isField.continues
  obtain ⟨first, others, rfl, _⟩ := isField
  have own : continuesName first = true := apart first List.mem_cons_self
  have visible : isGap first = false := by
    have space := (isSpace_of_continues own).1
    simp only [isSpace, Bool.or_eq_false_iff] at space
    exact space.1
  have stepped : dialect.step (first :: others) =
      .ok ([.leaf (loneWord (first :: others))], []) := by
    have marks := (ne_of_isPlainValue (isPlainValue_of_continues own).1).2
    have keywords : dialect.keywords = true := rfl
    rw [step]
    · simp only [unconnected, uncompared, keywords, ↓reduceIte, searched]
      rfl
    · rintro behind same
      exact marks '(' (by decide) (List.cons.inj same).1
    · rintro behind same
      exact marks ')' (by decide) (List.cons.inj same).1
  have whole := tokensFrom_step visible stepped (by simp) tokensFrom_nil
  rw [tokenize, String.toList_ofList, whole]
  rfl

end

/-- Reading a text without bars: its filter is the whole text. -/
theorem read_unbarred {text left : String} {hints : Hints} {tokens : List Token}
    (unbarred : '|' ∉ text.toList) (extracted : extract selectors (trim text) = (hints, left))
    (told : dialect.tokenize left = .ok tokens) (repository : Repository) (info : Option Meta) :
    read repository text info =
      Query.ofTokens repository tokens hints (Meta.initial.merge? info) {} := by
  simp only [read, Pipeline.split_of_unbarred unbarred, extracted, Dialect.read, told]
  rfl

/-- The comparison of a field with a plain value is read as just that, and without hints, if and
only if the name of the field does not end with the name of a selector behind a point or a hyphen.
If it does, the value is a hint for the selector, and what stands in front of the name of the
selector is searched for. -/
theorem read_equality_iff (repository : Repository) (info : Option Meta) (name value : String)
    (isField : IsField name.toList) (other : ¬ IsSource name.toList)
    (plain : ∀ c ∈ value.toList, isPlainValue c = true) :
    ((∃ query, read repository (name ++ "=\"" ++ value ++ "\"") info = .ok query ∧
      query.IsComparison name .eq (.text value) ∧ query.info.map Meta.logSources = some []) ↔
        ¬ ∃ stem key, BorrowsSource name.toList stem key) ∧
    ∀ stem key, BorrowsSource name.toList stem key →
      read repository (name ++ "=\"" ++ value ++ "\"") info =
        Query.ofTokens repository [.leaf (loneWord stem)] [(key, [value])]
          (Meta.initial.merge? info) {} := by
  have text : name ++ "=\"" ++ value ++ "\"" =
      String.ofList (equalityText name.toList value.toList) := by
    rw [← String.toList_inj]
    simp [equalityText]
  have solid := solid_equalityText isField plain
  have unbarred : '|' ∉ (String.ofList (equalityText name.toList value.toList)).toList := by
    rw [String.toList_ofList]
    exact fun own => (solid _ own).2.2 rfl
  have trimmed : trim (String.ofList (equalityText name.toList value.toList)) =
      String.ofList (equalityText name.toList value.toList) := by
    rw [trim, String.toList_ofList, trimChars, trimBy_of_forall fun c own => (solid c own).1]
  have unhinted : (Meta.initial.merge? info).logSources = [] := by
    cases info <;> rfl
  have borrowed (stem : List Char) (key : String) (borrows : BorrowsSource name.toList stem key) :
      read repository (name ++ "=\"" ++ value ++ "\"") info =
        Query.ofTokens repository [.leaf (loneWord stem)] [(key, [value])]
          (Meta.initial.merge? info) {} := by
    have extracted := extract_borrowed isField plain borrows
    rw [String.ofList_toList, ← trimmed] at extracted
    have free : ∀ entry ∈ dialect.connectives, stem ≠ entry.1.toList := by
      have each : ∀ entry ∈ dialect.connectives, entry.1.toList.getLast? ≠ some '.' ∧
          entry.1.toList.getLast? ≠ some '-' := by decide
      rintro entry listed rfl
      exact borrows.parted.elim (each entry listed).1 (each entry listed).2
    rw [text]
    exact read_unbarred unbarred extracted
      (tokenize_loneWord (borrows.isField isField) free) repository info
  refine ⟨⟨?_, ?_⟩, borrowed⟩
  · rintro ⟨query, made, _, hintless⟩ ⟨stem, key, borrows⟩
    rw [borrowed stem key borrows] at made
    obtain ⟨_, _, _, _, known, _⟩ := Query.ofTokens_ok made
    rw [known] at hintless
    cases hintless
  · intro own
    have extracted := extract_equalityText isField other plain own
    rw [← trimmed] at extracted
    obtain ⟨query, made, pipeline, field, named, tree⟩ :=
      Query.ofTokens_comparison repository { name } .eq (.text value) (Meta.initial.merge? info) {}
    have told : dialect.tokenize (trim (String.ofList (equalityText name.toList value.toList))) =
        .ok [.leaf (.comparison { name } .eq (.text value) {})] := by
      rw [trimmed]
      exact tokenize_equalityText isField plain
    refine ⟨query, ?_, ⟨pipeline, field, named, tree⟩, ?_⟩
    · rw [text, read_unbarred unbarred extracted told repository info]
      exact made
    · obtain ⟨_, _, _, _, known, _⟩ := Query.ofTokens_ok made
      rw [known]
      exact congrArg some unhinted

/-- A field with the names of selectors in it, none of which ends it behind a point or a hyphen. -/
theorem read_equality_iff_apart :
    IsField "index.source-x_index".toList ∧ ¬ IsSource "index.source-x_index".toList ∧
    (∀ c ∈ "é１x".toList, isPlainValue c = true) ∧
    ∃ query, read (.ofRecords "splunk" []) "index.source-x_index=\"é１x\"" none = .ok query ∧
      query.IsComparison "index.source-x_index" .eq (.text "é１x") ∧
      query.info.map Meta.logSources = some [] := by
  have isField : IsField "index.source-x_index".toList :=
    ⟨'i', "ndex.source-x_index".toList, rfl, rfl, List.all_eq_true.mp rfl⟩
  have other : ¬ IsSource "index.source-x_index".toList := by
    rw [IsSource]
    decide +kernel
  have plain : ∀ c ∈ "é１x".toList, isPlainValue c = true := List.all_eq_true.mp (by decide +kernel)
  exact ⟨isField, other, plain, (read_equality_iff _ none "index.source-x_index" "é１x" isField other
    plain).1.mpr (by decide +kernel)⟩

/-- A field that ends with the name of a selector behind a hyphen gives a hint, and the stem of its
name is searched for. -/
theorem borrowed_field_is_hint :
    IsField "my-index".toList ∧ ¬ IsSource "my-index".toList ∧
    (∀ c ∈ "x1".toList, isPlainValue c = true) ∧
    (read (.ofRecords "splunk" []) "my-index=\"x1\"" none).toOption.map (fun query =>
      (query.tree.leaves.map Leaf.describe, query.info.map Meta.logSources)) =
        some (["keywords my-"], some [("index", ["x1"])]) := by
  refine ⟨⟨'m', "y-index".toList, rfl, rfl, List.all_eq_true.mp rfl⟩, ?_,
    List.all_eq_true.mp (by decide +kernel), by decide +kernel⟩
  rw [IsSource]
  decide +kernel

end Detection.Spl
