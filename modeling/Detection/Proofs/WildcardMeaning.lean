import Detection.Proofs.WildcardEnds

/-!
# What wildcards mean

A pattern asks for one stretch of a text after another: a given character, any character, or any
text. That is all that texts with wildcards say, whatever the wildcard is, and it gives a value
its meaning: a plain text describes itself, and a pattern what its stars leave open.

An equality whose value has wildcards at its ends says the same as the comparison that is read
for it, both of fields that are there and of those that are not. The comparison may look only at
a part of the text, and what it leaves out is what the wildcards at the ends stood for.
-/
namespace Detection

open Text

/-- What a pattern asks of the next stretch of a text. -/
inductive Stretch
  | char (c : Char)
  | anyChar
  | anyText
  deriving DecidableEq, Repr

def Stretch.Covers : Stretch → List Char → Prop
  | char c, part => part = [c]
  | anyChar, part => part.length = 1
  | anyText, _ => True

instance (part : List Char) : (stretch : Stretch) → Decidable (stretch.Covers part)
  | .char c => inferInstanceAs (Decidable (part = [c]))
  | .anyChar => inferInstanceAs (Decidable (part.length = 1))
  | .anyText => .isTrue trivial

/-- A text is made of parts that the stretches cover one after another. -/
def Fits : List Stretch → List Char → Prop
  | [], subject => subject = []
  | first :: others, subject =>
    ∃ part rest, subject = part ++ rest ∧ first.Covers part ∧ Fits others rest

/-- The first part ends somewhere in the text. -/
theorem fits_cons_iff_take (first : Stretch) (others : List Stretch) (subject : List Char) :
    Fits (first :: others) subject ↔ ∃ length < subject.length + 1,
      first.Covers (subject.take length) ∧ Fits others (subject.drop length) := by
  constructor
  · rintro ⟨part, rest, rfl, covers, fits⟩
    refine ⟨part.length, ?_, ?_, ?_⟩
    · rw [List.length_append]
      omega
    · rwa [List.take_left]
    · rwa [List.drop_left]
  · rintro ⟨length, _, covers, fits⟩
    exact ⟨_, _, (List.take_append_drop length subject).symm, covers, fits⟩

instance decidableFits : (stretches : List Stretch) → (subject : List Char) →
    Decidable (Fits stretches subject)
  | [], subject => inferInstanceAs (Decidable (subject = []))
  | first :: others, subject =>
    have := decidableFits others
    decidable_of_iff' _ (fits_cons_iff_take first others subject)

/-- Stretches in a row ask for texts in a row. -/
theorem fits_append (first second : List Stretch) (subject : List Char) :
    Fits (first ++ second) subject ↔
      ∃ left right, subject = left ++ right ∧ Fits first left ∧ Fits second right := by
  induction first generalizing subject with
  | nil =>
    constructor
    · intro fits
      exact ⟨[], subject, rfl, rfl, fits⟩
    · rintro ⟨left, right, rfl, rfl, fits⟩
      exact fits
  | cons stretch others ih =>
    constructor
    · rintro ⟨part, rest, rfl, covers, fits⟩
      obtain ⟨left, right, rfl, before, behind⟩ := (ih rest).mp fits
      exact ⟨part ++ left, right, (List.append_assoc ..).symm,
        ⟨part, left, rfl, covers, before⟩, behind⟩
    · rintro ⟨left, right, rfl, ⟨part, rest, rfl, covers, before⟩, behind⟩
      exact ⟨part, rest ++ right, List.append_assoc .., covers,
        (ih _).mpr ⟨rest, right, rfl, before, behind⟩⟩

/-- Behind any text the pattern asks for an end of the subject. -/
theorem fits_anyText_cons (stretches : List Stretch) (subject : List Char) :
    Fits (.anyText :: stretches) subject ↔ ∃ part, part <:+ subject ∧ Fits stretches part := by
  constructor
  · rintro ⟨skipped, rest, rfl, _, fits⟩
    exact ⟨rest, List.suffix_append skipped rest, fits⟩
  · rintro ⟨part, ⟨skipped, rfl⟩, fits⟩
    exact ⟨skipped, part, rfl, trivial, fits⟩

/-- In front of any text the pattern asks for a beginning of the subject. -/
theorem fits_concat_anyText (stretches : List Stretch) (subject : List Char) :
    Fits (stretches ++ [.anyText]) subject ↔ ∃ part, part <+: subject ∧ Fits stretches part := by
  rw [fits_append]
  constructor
  · rintro ⟨left, right, rfl, fits, _⟩
    exact ⟨left, List.prefix_append left right, fits⟩
  · rintro ⟨part, ⟨rest, rfl⟩, fits⟩
    exact ⟨part, rest, rfl, fits, rest, [], (List.append_nil rest).symm, trivial, rfl⟩

/-- A text in which a wildcard stands for any text. -/
def glob (wildcard : Char) (text : List Char) : List Stretch :=
  text.map fun c => if c = wildcard then .anyText else .char c

/-- Without wildcards a text asks for its own characters. -/
theorem glob_plain {wildcard : Char} {text : List Char} (plain : wildcard ∉ text) :
    glob wildcard text = text.map .char := by
  refine List.map_congr_left fun c belongs => if_neg ?_
  rintro rfl
  exact plain belongs

/-- What a single value asks for. A text asks for its own characters, also if it has stars. -/
def Value.stretches? : Value → Option (List Stretch)
  | .number lexeme => some (lexeme.toList.map .char)
  | .text content => some (content.toList.map .char)
  | .pattern content true => some (glob '*' content.toList)
  | .pattern content false => some (content.toList.map .char)
  | .list _ | .absent => none

def Value.Describes (value : Value) (subject : List Char) : Prop :=
  ∃ stretches, value.stretches? = some stretches ∧ Fits stretches subject

/-- When a comparison holds of a field, which may be missing. Comparisons of order and with
regular expressions have no part in what wildcards mean, and hold of nothing here. -/
def Operator.Holds (operator : Operator) (value : Value) (subject : Option (List Char)) : Prop :=
  match operator with
  | .eq => ∃ text ∈ subject, value.Describes text
  | .neq => ¬ ∃ text ∈ subject, value.Describes text
  | .contains => ∃ text ∈ subject, ∃ part, part <:+: text ∧ value.Describes part
  | .notContains => ¬ ∃ text ∈ subject, ∃ part, part <:+: text ∧ value.Describes part
  | .startsWith => ∃ text ∈ subject, ∃ part, part <+: text ∧ value.Describes part
  | .endsWith => ∃ text ∈ subject, ∃ part, part <:+ text ∧ value.Describes part
  | .isNone => subject = none
  | .isNotNone => subject ≠ none
  | _ => False

/-- What a comparison asks of the whole text of a field, if its value asks for some stretches. -/
def Operator.around (operator : Operator) (stretches : List Stretch) : List Stretch :=
  match operator with
  | .contains => .anyText :: (stretches ++ [.anyText])
  | .startsWith => stretches ++ [.anyText]
  | .endsWith => .anyText :: stretches
  | _ => stretches

/-- The comparisons that look for what a value describes. -/
def Operator.seeking : List Operator := [.eq, .contains, .startsWith, .endsWith]

/-- A comparison with a part of a text is one with the whole text, if any text may stand around the
part. -/
theorem Operator.holds_iff_around {operator : Operator} (seeks : operator ∈ seeking)
    {value : Value} {stretches : List Stretch} (known : value.stretches? = some stretches)
    (subject : Option (List Char)) :
    operator.Holds value subject ↔ ∃ text ∈ subject, Fits (operator.around stretches) text := by
  have describes (part : List Char) : value.Describes part ↔ Fits stretches part := by
    simp [Value.Describes, known]
  simp only [seeking, List.mem_cons, List.not_mem_nil, or_false] at seeks
  rcases seeks with rfl | rfl | rfl | rfl
  · simp only [Holds, around, describes]
  · have inside (text : List Char) : Fits (.anyText :: (stretches ++ [.anyText])) text ↔
        ∃ part, part <:+: text ∧ Fits stretches part := by
      simp only [fits_anyText_cons, fits_concat_anyText]
      constructor
      · rintro ⟨rest, ending, part, beginning, fits⟩
        exact ⟨part, beginning.isInfix.trans ending.isInfix, fits⟩
      · rintro ⟨part, ⟨before, behind, rfl⟩, fits⟩
        exact ⟨part ++ behind, ⟨before, (List.append_assoc ..).symm⟩, part,
          List.prefix_append part behind, fits⟩
    simp only [Holds, around, describes, inside]
  · simp only [Holds, around, describes, fits_concat_anyText]
  · simp only [Holds, around, describes, fits_anyText_cons]

/-- When a promoted comparison holds of a field. -/
def Promotion.Holds (promotion : Promotion) (subject : Option (List Char)) : Prop :=
  if promotion.negate then ¬ promotion.operator.Holds promotion.value subject
  else promotion.operator.Holds promotion.value subject

/-- A negated equality becomes the complement of what the equality becomes. -/
theorem holds_promoteWildcards_neq (text wildcard : List Char) (subject : Option (List Char)) :
    (promoteWildcards .neq text wildcard).Holds subject ↔
      ¬ (promoteWildcards .eq text wildcard).Holds subject := by
  by_cases empty : wildcard.isEmpty = true
  · simp [promoteWildcards, empty, Promotion.Holds, Operator.Holds]
  by_cases whole : text = wildcard
  · simp [promoteWildcards, empty, whole, Promotion.Holds, Operator.Holds]
  rcases leading : dropLeadingWildcard wildcard text with ⟨_ | _, behind⟩ <;>
    rcases trailing : dropTrailingWildcard wildcard behind with ⟨_ | _, inner⟩ <;>
    simp [promoteWildcards, empty, whole, leading, trailing, Promotion.Holds, Operator.Holds]

variable {wildcard : Char} {text : List Char}

/-- Inner wildcards keep their meaning when they are written as stars, if a text has no stars of
its own. -/
theorem stretches_patternValue (starless : wildcard ≠ '*' → '*' ∉ text) :
    (patternValue [wildcard] text).stretches? = some (glob wildcard text) := by
  by_cases wild : wildcard ∈ text
  · have each : ∀ c ∈ text, (if (if c = wildcard then '*' else c) = '*' then Stretch.anyText
        else .char (if c = wildcard then '*' else c)) =
        if c = wildcard then .anyText else .char c := by
      intro c belongs
      by_cases same : c = wildcard
      · simp [same]
      · have plain : c ≠ '*' := by
          rintro rfl
          exact starless (Ne.symm same) belongs
        simp [same, plain]
    rw [patternValue_wild wild, Value.stretches?, String.toList_ofList, glob, List.map_map]
    exact congrArg some (List.map_congr_left each)
  · rw [patternValue_plain wild, Value.stretches?, String.toList_ofList, glob_plain wild]

/-- Apart from a lone wildcard, the comparison that is read for an equality asks of the whole text
what the wildcards in the value ask for. -/
theorem promoteWildcards_around (lone : text ≠ [wildcard])
    (starless : wildcard ≠ '*' → '*' ∉ text) (plain : '\\' ∉ text) :
    ∃ operator ∈ Operator.seeking, ∃ value stretches wildcards,
      promoteWildcards .eq text [wildcard] = { operator, value, wildcards } ∧
      value.stretches? = some stretches ∧ glob wildcard text = operator.around stretches := by
  -- Both ends are looked at in turn; what is left has no stars and no backslashes either.
  have trailing {rest : List Char} (part : rest ⊆ text) :
      (∃ inner, rest = inner ++ [wildcard] ∧
        dropTrailingWildcard [wildcard] rest = (true, inner)) ∨
      dropTrailingWildcard [wildcard] rest = (false, rest) := by
    by_cases last : rest.getLast? = some wildcard
    · obtain ⟨inner, rfl⟩ := List.getLast?_eq_some_iff.mp last
      have unescaped : inner.getLast? ≠ some '\\' := fun escape =>
        plain (part (List.mem_append_left _ (List.mem_of_mem_getLast? escape)))
      exact .inl ⟨inner, rfl, by rw [dropTrailingWildcard_concat, if_neg unescaped]⟩
    · exact .inr (dropTrailingWildcard_other last)
  have known {inner : List Char} (part : inner ⊆ text) :
      (patternValue [wildcard] inner).stretches? = some (glob wildcard inner) :=
    stretches_patternValue fun other star => starless other (part star)
  by_cases first : text.head? = some wildcard
  · obtain ⟨rest, rfl⟩ := List.head?_eq_some_iff.mp first
    have some : rest ≠ [] := by
      rintro rfl
      exact lone rfl
    rcases trailing (List.subset_cons_self wildcard rest) with ⟨inner, rfl, taken⟩ | kept
    · refine ⟨.contains, by simp [Operator.seeking], patternValue [wildcard] inner,
        glob wildcard inner, ⟨true, true⟩, ?_, known (by simp), ?_⟩
      · simp [promoteWildcards, dropLeadingWildcard_cons, taken]
      · simp [glob, Operator.around]
    · refine ⟨.endsWith, by simp [Operator.seeking], patternValue [wildcard] rest,
        glob wildcard rest, ⟨true, false⟩, ?_, known (by simp), ?_⟩
      · simp [promoteWildcards, some, dropLeadingWildcard_cons, kept]
      · simp [glob, Operator.around]
  · have leading := dropLeadingWildcard_other first
    rcases trailing (List.Subset.refl text) with ⟨inner, rfl, taken⟩ | kept
    · refine ⟨.startsWith, by simp [Operator.seeking], patternValue [wildcard] inner,
        glob wildcard inner, ⟨false, true⟩, ?_, known (by simp), ?_⟩
      · simp [promoteWildcards, lone, leading, taken]
      · simp [glob, Operator.around]
    · refine ⟨.eq, by simp [Operator.seeking], patternValue [wildcard] text,
        glob wildcard text, {}, ?_, known (List.Subset.refl text), rfl⟩
      simp [promoteWildcards, lone, leading, kept]

/-- The comparison that is read for an equality holds of a field exactly if it is there and its
text is one that the value asks for. -/
theorem holds_promoteWildcards_eq (starless : wildcard ≠ '*' → '*' ∉ text) (plain : '\\' ∉ text)
    (subject : Option (List Char)) :
    (promoteWildcards .eq text [wildcard]).Holds subject ↔
      ∃ whole ∈ subject, Fits (glob wildcard text) whole := by
  by_cases lone : text = [wildcard]
  · have anything (whole : List Char) : Fits (glob wildcard [wildcard]) whole := by
      simpa [glob] using (fits_anyText_cons [] whole).mpr ⟨[], List.nil_suffix, rfl⟩
    have present : (∃ whole ∈ subject, Fits (glob wildcard [wildcard]) whole) ↔ subject ≠ none := by
      cases subject <;> simp [anything]
    rw [lone, present]
    simp [promoteWildcards, Promotion.Holds, Operator.Holds]
  · obtain ⟨operator, seeks, value, stretches, wildcards, promoted, known, whole⟩ :=
      promoteWildcards_around lone starless plain
    rw [promoted, whole]
    exact Operator.holds_iff_around seeks known subject

/-- An equality, or a negated one, whose value has wildcards says the same before and after the
wildcards at its ends have been taken off: the field is there and its text is one that the value
asks for, or the complement of that. No backslash may stand in the value, and no star unless it
is the wildcard. -/
theorem promoteWildcards_keeps_meaning (wildcard : Char) (text : List Char)
    (starless : wildcard ≠ '*' → '*' ∉ text) (plain : '\\' ∉ text)
    (subject : Option (List Char)) :
    ((promoteWildcards .eq text [wildcard]).Holds subject ↔
      ∃ whole ∈ subject, Fits (glob wildcard text) whole) ∧
    ((promoteWildcards .neq text [wildcard]).Holds subject ↔
      ¬ ∃ whole ∈ subject, Fits (glob wildcard text) whole) := by
  have equality := holds_promoteWildcards_eq starless plain subject
  exact ⟨equality, (holds_promoteWildcards_neq text [wildcard] subject).trans (not_congr equality)⟩

/-- The theorem at a negated equality with percent signs at both ends and inside: a text that has
its letters in order is excluded, and a missing field is not. -/
theorem promoteWildcards_keeps_meaning_percent :
    let text := "%a%b%".toList
    let promoted := promoteWildcards .neq text ['%']
    ('%' ≠ '*' → '*' ∉ text) ∧ '\\' ∉ text ∧
    promoted =
      { operator := .notContains, value := .pattern "a*b" true, wildcards := ⟨true, true⟩ } ∧
    ¬ promoted.Holds (some "xaybz".toList) ∧ promoted.Holds (some "xbya".toList) ∧
    promoted.Holds none := by
  intro text promoted
  have starless : '%' ≠ '*' → '*' ∉ text := by decide
  have plain : '\\' ∉ text := by decide
  have meaning (subject : Option (List Char)) :=
    (promoteWildcards_keeps_meaning '%' text starless plain subject).2
  have ordered : Fits (glob '%' text) "xaybz".toList := by decide
  have swapped : ¬ Fits (glob '%' text) "xbya".toList := by decide
  refine ⟨starless, plain, rfl, ?_, ?_, ?_⟩
  · rw [meaning]
    exact not_not.mpr ⟨_, rfl, ordered⟩
  · rw [meaning]
    rintro ⟨whole, same, fits⟩
    obtain rfl := Option.some.inj same
    exact swapped fits
  · rw [meaning]
    rintro ⟨whole, missing, _⟩
    contradiction

end Detection
