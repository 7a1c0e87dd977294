import Detection.Language.Axon
import Detection.Language.Hunters
import Detection.Language.Spl
import Detection.Language.Xql
import Detection.Proofs.TreeValue

/-!
# How clauses end

On all platforms but one the clause of a leaf ends with a quote, a parenthesis, a star or a word of
the platform. The exception on these platforms is a number, which is written as it is. So a property
that texts have because of how they end is one of all clauses, if it is one of all numbers. Such are
that a text is not empty, and that it ends with a visible character.

The clauses of each platform are looked at for single values only; lists, fields with several
names and the raw message are the same for all of them.
-/
namespace Detection

open Text

/-- Whether the last character of a text is there and not blank. -/
def endsVisibly (text : String) : Bool :=
  text.toList.getLast?.any fun c => !isBlank c

/-- A property that a text has because of how it ends. -/
structure OfEnd (shown : String → Prop) : Prop where
  behind (lead : String) {text : String} : shown text → shown (lead ++ text)
  visible {text : String} : endsVisibly text = true → shown text

theorem OfEnd.ne_empty : OfEnd (· ≠ "") where
  behind lead text some := by simp [String.append_eq_empty_iff, some]
  visible {text} ends := by
    rintro rfl
    cases ends

theorem OfEnd.endsVisibly : OfEnd (endsVisibly · = true) where
  behind lead text ends := by
    rw [Detection.endsVisibly] at ends ⊢
    rw [String.toList_append, List.getLast?_append]
    cases last : text.toList.getLast? with
    | none => simp [last] at ends
    | some c => simpa [last] using ends
  visible := id

/-- All results of a computation have a property. -/
def Yields (shown : String → Prop) (step : Except RenderError String) : Prop :=
  ∀ text, step = .ok text → shown text

namespace Yields

variable {shown : String → Prop}

theorem pure {text : String} (holds : shown text) :
    Yields shown (pure text : Except RenderError String) := by
  rintro _ same
  cases same
  exact holds

theorem error (failure : RenderError) : Yields shown (.error failure) := by
  rintro _ same
  cases same

/-- The last step of a computation decides. -/
theorem bind {α : Type} {step : Except RenderError α} {next : α → Except RenderError String}
    (each : ∀ result, Yields shown (next result)) : Yields shown (step >>= next) := by
  cases step with
  | error failure => exact error failure
  | ok result => exact each result

end Yields

/-- The number that a value is has a property. -/
def Value.NumberShown (shown : String → Prop) (value : Value) : Prop :=
  ∀ lexeme, value = .number lexeme → shown lexeme

/-- Clauses that have a property for the single values of a class, and for all lists. -/
structure Clauses.Show (clauses : Clauses) (shown : String → Prop) (plain : Value → Prop) :
    Prop where
  scalar (field : String) (operator : Operator) (value : Value) (allowed : plain value) :
    Yields shown (clauses.scalar field operator value)
  oneOf (oneOf : String → List Value → Except RenderError String)
    (known : clauses.oneOf? = some oneOf) (field : String) (values : List Value) :
    Yields shown (oneOf field values)

section

variable {shown : String → Prop} (ofEnd : OfEnd shown)
include ofEnd

theorem OfEnd.closed (lead : String) {mark : String} (ends : Detection.endsVisibly mark = true) :
    shown (lead ++ mark) :=
  ofEnd.behind lead (ofEnd.visible ends)

/-- What a computation yields, behind another text. -/
theorem OfEnd.yields_behind (lead : String) {step : Except RenderError String}
    (yields : Yields shown step) : Yields shown (do return lead ++ (← step)) := by
  cases step with
  | error failure => exact .error failure
  | ok text => exact .pure (ofEnd.behind lead (yields text rfl))

/-- A comparison, in which chains stand between parentheses. -/
theorem Clauses.Show.comparison {clauses : Clauses} {plain : Value → Prop}
    (shows : clauses.Show shown plain) (words : Words) (field : String) (operator : Operator)
    (value : Value) (single : Yields shown (clauses.scalar field operator value.unwrapped)) :
    Yields shown (clauses.comparison words field operator value) := by
  have chain (items : List Value) (word : String) : Yields shown (do
      let parts ← items.mapM (clauses.scalar field operator)
      return "(" ++ join (" " ++ word ++ " ") parts ++ ")") :=
    .bind fun parts => .pure (ofEnd.closed _ (by decide))
  simp only [Clauses.comparison]
  split
  · split
    · next oneOf known =>
      split
      · exact shows.oneOf oneOf known field _
      · exact chain _ _
    · exact chain _ _
  · exact single

/-- A quoted value, or a number. -/
theorem Spl.quoted_yields (lead : String) {value : Value} (number : value.NumberShown shown)
    (trail : String) : Yields shown (Spl.quoted lead value trail) := by
  have wrapped (step : Except RenderError String) : Yields shown (do
      return "\"" ++ lead ++ escaping.escape .doubleQuoted (← step) ++ trail ++ "\"") :=
    .bind fun content => .pure (ofEnd.closed _ (by decide))
  cases value with
  | number lexeme =>
    simp only [quoted]
    split
    · exact .pure (number lexeme rfl)
    · exact .pure (ofEnd.closed _ (by decide))
  | text | pattern | list | absent => exact wrapped _

theorem Spl.shows (platform : String) : (Spl.clauses platform).Show shown
    (Value.NumberShown shown) := by
  constructor
  · intro field operator value number
    change Yields shown (Spl.scalar platform field operator value)
    have quoted (lead trail : String) : Yields shown (Spl.quoted lead value trail) :=
      Spl.quoted_yields ofEnd lead number trail
    by_cases empty : field = ""
    · simp only [Spl.scalar, empty, BEq.rfl, ↓reduceIte]
      cases operator with
      | keyword | eq | contains | startsWith | endsWith => exact quoted _ _
      | neq | lt | lte | gt | gte | notContains | regex | notRegex | isNone | isNotNone | other =>
        exact .error _
    · simp only [Spl.scalar, beq_iff_eq, empty, ↓reduceIte]
      cases operator with
      | notContains => exact ofEnd.yields_behind _ (ofEnd.yields_behind _ (quoted _ _))
      | regex | notRegex | keyword | other => exact .error _
      | isNone | isNotNone => exact .pure (ofEnd.closed _ (by decide))
      | eq | neq | lt | lte | gt | gte | contains | startsWith | endsWith =>
        exact ofEnd.yields_behind _ (quoted _ _)
  · intro oneOf known field values
    obtain rfl : Spl.oneOf = oneOf := Option.some.inj known
    exact .bind fun parts => .pure (ofEnd.closed _ (by decide))

/-- The search for an alternation stands between parentheses. -/
theorem alternationContains_shown (text orWord andWord : String) (clause : String → String) :
    shown (alternationContains text orWord andWord clause) := by
  simp only [alternationContains]
  split
  · next only single =>
    obtain ⟨parts, _, rfl⟩ := List.mem_map.mp (single ▸ List.mem_singleton.mpr rfl)
    exact ofEnd.closed _ (by decide)
  · exact ofEnd.closed _ (by decide)

theorem Axon.quoted_shown (lead text : String) : shown (lead ++ Axon.quoted text) :=
  ofEnd.behind lead (ofEnd.closed _ (by decide))

theorem Axon.matching_shown (field body : String) : shown (Axon.matching field body) :=
  ofEnd.behind _ (ofEnd.closed _ (by decide))

/-- The search for a text in Axon, which writes a number between quotes as well. -/
theorem Axon.containing_yields (field : String) (value : Value) :
    Yields shown (Axon.containing field value) := by
  refine .bind fun text => ?_
  split
  · exact .pure (Axon.quoted_shown ofEnd _ _)
  · split
    · exact .error _
    · exact .pure (alternationContains_shown ofEnd _ _ _ _)

theorem Axon.fieldScalar_yields (field : String) (operator : Operator) {value : Value}
    (number : value.NumberShown shown) : Yields shown (Axon.fieldScalar field operator value) := by
  have matching (body : String) : shown (Axon.matching field body) :=
    Axon.matching_shown ofEnd field body
  have ordered (symbol : String) : Yields shown (Axon.ordered field symbol value) := by
    cases value with
    | number lexeme => exact .pure (ofEnd.behind _ (number lexeme rfl))
    | text | pattern | list | absent => exact .bind fun text => .pure (Axon.quoted_shown ofEnd _ _)
  cases operator with
  | eq =>
    refine .bind fun text => ?_
    split
    · exact .pure (matching _)
    · exact .pure (Axon.quoted_shown ofEnd _ _)
  | neq =>
    refine .bind fun text => ?_
    split
    · exact .pure (ofEnd.behind _ (matching _))
    · exact ordered _
  | lt | lte | gt | gte => exact ordered _
  | contains => exact Axon.containing_yields ofEnd field value
  | notContains => exact ofEnd.yields_behind _ (Axon.containing_yields ofEnd field value)
  | startsWith | endsWith | regex => exact .bind fun text => .pure (matching _)
  | notRegex => exact .bind fun text => .pure (ofEnd.behind _ (matching _))
  | isNone | isNotNone | keyword | other => exact .error _

theorem Axon.shows : Axon.clauses.Show shown (Value.NumberShown shown) := by
  constructor
  · intro field operator value number
    change Yields shown (Axon.scalar field operator value)
    simp only [Axon.scalar]
    split <;> exact Axon.fieldScalar_yields ofEnd _ _ number
  · intro oneOf known field values
    obtain rfl : Axon.oneOf = oneOf := Option.some.inj known
    have strict : Yields shown (Axon.strictOneOf field values) :=
      .bind fun parts => .pure (ofEnd.closed _ (by decide))
    simp only [Axon.oneOf]
    split
    · next text listed => exact .pure (strict text listed)
    · exact .error _
    · exact .bind fun parts => .pure (ofEnd.closed _ (by decide))

/-- The search in the raw message takes all values, because it writes no number without quotes. -/
theorem Axon.raw_yields (value : Value) (operator : Operator)
    (searches : operator ∈ [Operator.contains, .notContains]) :
    Yields shown (Axon.clauses.scalar Axon.rawField operator value) := by
  have containing := Axon.containing_yields ofEnd Axon.rawField value
  rcases List.mem_cons.mp searches with rfl | negated
  · exact containing
  · cases List.mem_singleton.mp negated
    exact ofEnd.yields_behind _ containing

theorem Xql.fieldScalar_yields (field : String) (operator : Operator) {value : Value}
    (number : value.NumberShown shown) : Yields shown (Xql.fieldScalar field operator value) := by
  have matching (symbol lead trail : String) :
      Yields shown (Xql.matching field symbol lead value trail) :=
    .bind fun text => .pure (ofEnd.closed _ (by decide))
  have literal : Yields shown (Xql.literal value) := by
    cases value with
    | number lexeme => exact .pure (number lexeme rfl)
    | text | pattern => exact .pure (ofEnd.closed _ (by decide))
    | list | absent => exact .error _
  have compared (symbol : String) : Yields shown (Xql.compared field symbol value) :=
    ofEnd.yields_behind _ literal
  have regex (symbol : String) : Yields shown (Xql.regex field symbol value) :=
    .bind fun text => .pure (ofEnd.closed _ (by decide))
  have containing (word symbol : String) :
      Yields shown (Xql.containing field word symbol value) := by
    simp only [Xql.containing]
    split
    · exact matching _ _ _
    · refine .bind fun text => ?_
      split
      · exact matching _ _ _
      · exact compared _
  cases operator with
  | eq | neq =>
    simp only [Xql.fieldScalar]
    split
    · exact matching _ _ _
    · exact compared _
  | lt | lte | gt | gte => exact compared _
  | contains | notContains => exact containing _ _
  | startsWith | endsWith => exact matching _ _ _
  | regex | notRegex => exact regex _
  | isNone | isNotNone => exact .pure (ofEnd.closed _ (by decide))
  | keyword | other => exact .error _

theorem Xql.shows : Xql.clauses.Show shown (Value.NumberShown shown) := by
  constructor
  · intro field operator value number
    change Yields shown (Xql.scalar field operator value)
    simp only [Xql.scalar]
    split <;> exact Xql.fieldScalar_yields ofEnd _ _ number
  · intro oneOf known field values
    obtain rfl : Xql.oneOf = oneOf := Option.some.inj known
    refine .bind fun parts => ?_
    split
    · exact .bind fun chain => .pure (ofEnd.closed _ (by decide))
    · exact .pure (ofEnd.closed _ (by decide))

theorem Hunters.shows : Hunters.clauses.Show shown (Value.NumberShown shown) := by
  constructor
  · intro field operator value number
    change Yields shown (Hunters.scalar field operator value)
    have like (word lead trail : String) :
        Yields shown (Hunters.like field word lead value trail) :=
      ofEnd.yields_behind _ (.bind fun text => .pure (ofEnd.closed _ (by decide)))
    have literal : Yields shown (Hunters.literal value) := by
      cases value with
      | number lexeme => exact .pure (number lexeme rfl)
      | text | pattern => exact .pure (ofEnd.closed _ (by decide))
      | list | absent => exact .error _
    have compared (symbol : String) : Yields shown (Hunters.compared field symbol value) :=
      ofEnd.yields_behind _ literal
    have regex (word : String) : Yields shown (Hunters.regex field word value) :=
      .bind fun text => .pure (ofEnd.closed _ (by decide))
    simp only [Hunters.scalar]
    split
    · exact .error _
    · cases operator with
      | eq | neq =>
        dsimp only
        split
        · exact like _ _ _
        · exact compared _
      | lt | lte | gt | gte => exact compared _
      | contains | notContains | startsWith | endsWith => exact like _ _ _
      | regex | notRegex => exact regex _
      | isNone | isNotNone => exact .pure (ofEnd.closed _ (by decide))
      | keyword | other => exact .error _
  · intro oneOf known field values
    obtain rfl : Hunters.oneOf = oneOf := Option.some.inj known
    refine .bind fun parts => ?_
    split
    · exact .pure (ofEnd.closed _ (by decide))
    · exact .bind fun chain => .pure (ofEnd.closed _ (by decide))

/-- A leaf is written as its comparisons are, and several of them stand between parentheses. The
search in the raw message may change the value, and so it is asked about all values. -/
theorem QueryForm.leaf_yields {form : QueryForm} {plain : Value → Prop}
    (shows : form.clauses.Show shown plain)
    (raw : form.rawField = "" ∨ ∀ value, ∀ operator ∈ [Operator.contains, .notContains],
      Yields shown (form.clauses.scalar form.rawField operator value))
    (mapping : SourceMapping) (leaf : Leaf) (allowed : plain leaf.value.unwrapped) :
    Yields shown (form.leaf mapping leaf) := by
  have compared (field : String) (operator : Operator) :
      Yields shown (form.clauses.comparison form.words field operator leaf.value) :=
    shows.comparison ofEnd form.words field operator leaf.value
      (shows.scalar field operator _ allowed)
  cases leaf with
  | keyword operator => exact compared "" operator
  | comparison field operator value wildcards =>
    simp only [QueryForm.leaf]
    split
    · split
      · exact .error _
      · next searched =>
        have any := raw.resolve_left (by simpa using searched)
        rw [QueryForm.rawClause]
        split
        all_goals
          refine .bind fun sought => ?_
          have text := shows.comparison ofEnd form.words form.rawField
            (if operator.negated then .notContains else .contains) sought
            (any _ _ (by split <;> simp))
          dsimp only
          split
          · next found written => exact .pure (text found written)
          all_goals exact .error _
    · exact compared _ operator
    · exact .bind fun parts => .pure (ofEnd.closed _ (by decide))

end

end Detection
