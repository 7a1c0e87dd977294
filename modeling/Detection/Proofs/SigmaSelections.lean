import Detection.Proofs.SettledTokens
import Detection.Proofs.WildcardReading

/-!
# The value of selections

A selection is a table of comparisons that all have to hold, a list of which one item has to, or a
word. Under one key several values may stand, of which one has to match, or all where the key
says so. The tokens of a selection are flat: parentheses stand around several values and around
the tables of a list only. The compiler gives them back the value that the selection has by its
form, because each part is an operand wherever it stands.

A list of plain values under a key without modifiers may be a single comparison, with a list as
its value. It holds where one of the comparisons with its items does.
-/
namespace Detection.Sigma

open Text

variable {key : FieldKey} {items : List Yaml.Node} {entries : List (Yaml.Node × Yaml.Node)}

/-! ## Keys -/

def keyField (text : String) : String :=
  (splitAt '|' text).headD ""

/-- The modifiers behind the field of a key, in small letters. -/
def keyModifiers (text : String) : List String :=
  (splitAt '|' text).tail.map fun modifier => lower (trim modifier)

/-- The modifiers that say how a field is compared. -/
def operatorModifiers : List (String × Operator) :=
  [("contains", .contains), ("startswith", .startsWith), ("endswith", .endsWith), ("re", .regex),
    ("regex", .regex), ("lt", .lt), ("lte", .lte), ("gt", .gt), ("gte", .gte)]

/-- How the field of a key is compared: as its last modifier of this kind says, or for equality. -/
def keyOperator (text : String) : Operator :=
  ((keyModifiers text).filterMap fun word => operatorModifiers.lookup word).getLast?.getD .eq

namespace FieldKey

/-- What a modifier that is known does to a key. -/
theorem withModifier_ok {next : FieldKey} {modifier : String}
    (taken : key.withModifier modifier = .ok next) :
    next = {
      field := key.field
      operator := (operatorModifiers.lookup (lower (trim modifier))).getD key.operator
      all := key.all || "all" == lower (trim modifier)
      existence := key.existence || "exists" == lower (trim modifier) } := by
  unfold withModifier at taken
  split at taken <;> cases taken <;> simp [*, operatorModifiers, List.lookup_cons]

/-- What several modifiers do. The last operator counts, and any `all` or `exists`. -/
theorem foldlM_withModifier {modifiers : List String} {last : FieldKey}
    (read : modifiers.foldlM withModifier key = .ok last) :
    let words := modifiers.map fun modifier => lower (trim modifier)
    last = {
      field := key.field
      operator := (words.filterMap fun word => operatorModifiers.lookup word).getLast?.getD
        key.operator
      all := key.all || words.contains "all"
      existence := key.existence || words.contains "exists" } := by
  induction modifiers generalizing key with
  | nil =>
    cases read
    simp
  | cons modifier others ih =>
    obtain ⟨next, taken, rest⟩ := exists_of_bind read
    rw [ih rest, withModifier_ok taken]
    cases named : operatorModifiers.lookup (lower (trim modifier)) with
    | none =>
      simp only [List.map_cons, List.filterMap_cons, named, List.contains_cons, Bool.or_assoc,
        Option.getD_none]
    | some =>
      simp only [List.map_cons, List.filterMap_cons, named, List.contains_cons, Bool.or_assoc,
        List.getLast?_cons, Option.getD_some]

/-- What a key that can be read says. -/
theorem ofText_ok {text : String} (read : ofText text = .ok key) :
    key = ⟨keyField text, keyOperator text, (keyModifiers text).contains "all",
      (keyModifiers text).contains "exists"⟩ := by
  unfold ofText at read
  split at read
  · next none =>
    cases read
    simp [keyField, keyModifiers, keyOperator, none]
  · next field modifiers split =>
    rw [foldlM_withModifier read]
    simp [keyField, keyModifiers, keyOperator, split]

end FieldKey

theorem keyOperator_ne_neq (text : String) : keyOperator text ≠ .neq := by
  unfold keyOperator
  cases last :
      ((keyModifiers text).filterMap fun word => operatorModifiers.lookup word).getLast? with
  | none => decide
  | some operator =>
    obtain ⟨word, _, found⟩ := List.mem_filterMap.mp (List.mem_of_getLast? last)
    have listed : ∀ entry ∈ operatorModifiers, entry.2 ≠ .neq := by decide
    obtain ⟨before, behind, whole, _⟩ := List.lookup_eq_some_iff.mp found
    exact listed (word, operator) (by simp [whole])

/-! ## What a selection means -/

/-- The comparison of a field with one value. No value is the absence of the field; stars at the
ends of a text change how it is compared, except in a regular expression. -/
def itemLeaf (field : Field) (operator : Operator) (node : Yaml.Node) : Leaf :=
  if node.isNull then .comparison field .isNone (.text "") {}
  else match scalarValue node with
    | .text content =>
      if operator = .regex then .comparison field .regex (.text content) {}
      else
        let promotion := promoteWildcards operator content.toList ['*']
        .comparison field promotion.operator promotion.value promotion.wildcards
    | value => .comparison field operator value {}

/-- The search for a word. A lone star is the empty word. -/
def wordLeaf (text : String) : Leaf :=
  let promotion := promoteWildcards .eq text.toList ['*']
  .keyword .keyword (if promotion.operator = .isNotNone then .text "" else promotion.value)
    promotion.wildcards

/-- The truth value that a node writes. -/
def truthValue? (node : Yaml.Node) : Option Bool :=
  match Yaml.Decoding.finish node.bool? with
  | .ok wanted => wanted
  | .error _ => none

/-- Whether an entry of a table holds: the presence of its field is as asked, or one of its values
matches, or all of them do. -/
def entryMeaning (truth : Leaf → Bool) (key : String) (value : Yaml.Node) : Bool :=
  let field : Field := { name := keyField key }
  let holds := fun item => truth (itemLeaf field (keyOperator key) item)
  if "exists" ∈ keyModifiers key then
    truth (.comparison field (if truthValue? value = some true then .isNotNone else .isNone)
      (.text "") {})
  else if "all" ∈ keyModifiers key then (itemsOf value).all holds
  else (itemsOf value).any holds

/-- Whether an item of a selection holds: all entries of a table, or a word. -/
def itemMeaning (truth : Leaf → Bool) : Yaml.Node → Bool
  | .mapping _ _ entries => entries.all fun entry => entryMeaning truth entry.1.rawText entry.2
  | node => truth (wordLeaf node.rawText)

/-- Whether a selection holds: one of the items of a list, or its only item. -/
def selectionMeaning (truth : Leaf → Bool) : Yaml.Node → Bool
  | .sequence _ _ items => items.any (itemMeaning truth)
  | node => itemMeaning truth node

/-- Whether a value is a number or a text without wildcards. -/
def isLiteral : Value → Bool
  | .number content | .text content => !containsAny content ['*', '?']
  | _ => false

/-- An assignment in which an equality with a list of literals is one with one of its items. -/
def spread (truth : Leaf → Bool) : Leaf → Bool
  | .comparison field .eq (.list items) wildcards =>
    if items.all isLiteral then
      items.any fun item => truth (.comparison field .eq item wildcards)
    else truth (.comparison field .eq (.list items) wildcards)
  | leaf => truth leaf

/-! ## Selections of the right form -/

def IsScalar (node : Yaml.Node) : Prop :=
  ∃ content, node = .scalar content

/-- An entry whose key can be read and has a value, or several. Where only the presence of the
field counts, the value is a truth value. -/
structure EntryFormed (key value : Yaml.Node) : Prop where
  readable : ∃ fieldKey, FieldKey.ofText key.rawText = .ok fieldKey
  existence : "exists" ∈ keyModifiers key.rawText → truthValue? value ≠ none
  values : IsScalar value ∨ ∃ flow line items, value = .sequence flow line items ∧ items ≠ [] ∧
    ∀ item ∈ items, IsScalar item

/-- A word, or a table with entries. -/
inductive ItemFormed : Yaml.Node → Prop
  | word (content : Yaml.Scalar) : ItemFormed (.scalar content)
  | table {flow : Bool} {line : Nat} {entries : List (Yaml.Node × Yaml.Node)}
      (present : entries ≠ []) (each : ∀ entry ∈ entries, EntryFormed entry.1 entry.2) :
      ItemFormed (.mapping flow line entries)

/-- An item, or a list of items. -/
inductive SelectionFormed : Yaml.Node → Prop
  | item {node : Yaml.Node} (formed : ItemFormed node) : SelectionFormed node
  | list {flow : Bool} {line : Nat} {items : List Yaml.Node} (present : items ≠ [])
      (each : ∀ item ∈ items, ItemFormed item) : SelectionFormed (.sequence flow line items)

/-! ## Leaves -/

/-- A comparison that is no inequality is a single leaf. -/
theorem predicate_eq (field : Field) {operator : Operator} (positive : operator ≠ .neq)
    (node : Yaml.Node) :
    predicate field operator node = [.leaf (itemLeaf field operator node)] := by
  unfold predicate itemLeaf
  split
  · rfl
  · cases scalarValue node with
    | text =>
      by_cases regex : operator = .regex
      · simp [regex]
      · simp [regex, negate_promoteWildcards positive]
    | number | pattern | list | absent => rfl

/-- A leaf about a single value is as it was. -/
theorem spread_single (truth : Leaf → Bool) {leaf : Leaf} (single : leaf.value.isSingle = true) :
    spread truth leaf = truth leaf := by
  unfold spread
  split
  · cases single
  · rfl

theorem value_itemLeaf_isSingle (field : Field) (operator : Operator) (node : Yaml.Node) :
    (itemLeaf field operator node).value.isSingle = true := by
  unfold itemLeaf
  split
  · rfl
  · split
    · split
      · rfl
      · exact promoteWildcards_isSingle operator _ ['*']
    · exact scalarValue_isSingle node

theorem value_wordLeaf_isSingle (text : String) : (wordLeaf text).value.isSingle = true := by
  have promoted := promoteWildcards_isSingle .eq text.toList ['*']
  simp only [wordLeaf, Leaf.value]
  split
  · rfl
  · exact promoted

/-- The value of a plain item is a literal, and it is compared as it stands. -/
theorem itemLeaf_plain (field : Field) {node : Yaml.Node} (plain : isPlainItem node = true) :
    isLiteral (scalarValue node) = true ∧
      itemLeaf field .eq node = .comparison field .eq (scalarValue node) {} := by
  cases node with
  | scalar content =>
    simp only [isPlainItem, Bool.and_eq_true, bne_iff_ne, ne_eq] at plain
    obtain ⟨notNull, bare⟩ := plain
    have null : (Yaml.Node.scalar content).isNull = false := by simp [Yaml.Node.isNull, notNull]
    have noStar : '*' ∉ content.text.toList := by
      intro inside
      simp [containsAny] at bare
      exact absurd rfl (bare '*' inside).1
    have value : scalarValue (.scalar content) = .number content.text ∨
        scalarValue (.scalar content) = .text content.text := by
      cases tagged : content.tag == "!!int" || content.tag == "!!float" with
      | false => simp [scalarValue, tagged]
      | true =>
        cases checked : checkNumeral content.text.toList with
        | ok | error => simp [scalarValue, Value.ofNumeral, tagged, checked]
    rcases value with number | text
    · simp [itemLeaf, null, number, isLiteral, bare]
    · have kept := promoteWildcards_plain .eq noStar
      simp [itemLeaf, null, text, isLiteral, bare, kept]
  | sequence | mapping | reference => cases plain

/-! ## Operands -/

namespace IsOperand

theorem leaf (content : Leaf) : IsOperand [.leaf content] fun truth => truth content := by
  intro rest grounded
  refine ⟨.leaf 0 content rest, by simp [Phrase.tokens], grounded, by simp [Phrase.leaves], ?_⟩
  exact fun truth before pending => rfl

theorem ne_nil {tokens : List Token} {value : (Leaf → Bool) → Bool}
    (operand : IsOperand tokens value) : tokens ≠ [] := by
  rintro rfl
  obtain ⟨phrase, written, _, leaf, _⟩ := operand .done trivial
  rw [← Phrase.leaves_tokens, written] at leaf
  exact leaf rfl

/-- Operands that a connective joins compile to a tree with their value. -/
theorem exists_compile (connective : Connective) {parts : List (List Token)}
    {values : List ((Leaf → Bool) → Bool)} (operands : List.Forall₂ IsOperand parts values)
    (present : parts ≠ []) :
    ∃ tree, compile (joinTokens connective.token parts) = .ok tree ∧
      ∀ truth, tree.value truth = connective.valueOf (values.map (· truth)) := by
  cases operands with
  | nil => contradiction
  | cons operand operands =>
    obtain ⟨phrase, written, grounded, _, value⟩ := exists_joined connective operands operand
    obtain ⟨tree, compiled⟩ := phrase.exists_compile_iff.mpr grounded
    refine ⟨tree, by rw [written, compiled], fun truth => ?_⟩
    rw [value_of_compile compiled truth, Phrase.value?, value truth none none (.inl rfl)]
    rfl

/-- The comparisons with the values under a key. Several of them stand between parentheses. -/
theorem values (connective : Connective) (field : Field) {operator : Operator}
    (positive : operator ≠ .neq) (present : items ≠ []) :
    IsOperand
      (if items.length > 1 then
        enclosed (joinTokens connective.token (items.map (predicate field operator)))
      else joinTokens connective.token (items.map (predicate field operator)))
      fun truth =>
        connective.valueOf (items.map fun item => truth (itemLeaf field operator item)) := by
  have operands : List.Forall₂ IsOperand (items.map (predicate field operator))
      (items.map fun item truth => truth (itemLeaf field operator item)) := by
    rw [List.forall₂_map_left_iff, List.forall₂_map_right_iff, List.forall₂_same]
    intro item _
    rw [predicate_eq field positive]
    exact leaf _
  split
  · have denotes := Denotes.of_operands connective operands (by simpa using present)
    simpa [List.map_map, Function.comp_def] using denotes.isOperand
  · next lone =>
    obtain ⟨item, rfl⟩ : ∃ item, items = [item] := by
      have size := List.length_pos_iff.mpr present
      exact List.length_eq_one_iff.mp (by omega)
    simpa [joinTokens, predicate_eq field positive, Connective.valueOf_singleton] using
      leaf (itemLeaf field operator item)

end IsOperand

/-! ## Entries, items and selections -/

theorem EntryFormed.itemsOf_ne_nil {key value : Yaml.Node} (formed : EntryFormed key value) :
    itemsOf value ≠ [] := by
  rcases formed.values with ⟨content, rfl⟩ | ⟨flow, line, items, rfl, present, _⟩
  · simp [itemsOf]
  · exact present

/-- A node that writes a truth value is decoded to it. -/
theorem exists_decoded {node : Yaml.Node} (written : truthValue? node ≠ none) :
    ∃ wanted, Yaml.Decoding.finish node.bool? = .ok (some wanted) ∧
      truthValue? node = some wanted := by
  obtain ⟨wanted, found⟩ := Option.ne_none_iff_exists'.mp written
  refine ⟨wanted, ?_, found⟩
  unfold truthValue? at found
  split at found
  · next decoded => rw [decoded, found]
  · cases found

/-- A list of plain values that is compared as one value holds where one of its items does. -/
theorem spread_list (truth : Leaf → Bool) (field : Field)
    (plain : ∀ item ∈ items, isPlainItem item = true) :
    spread truth (.comparison field .eq (.list (items.map scalarValue)) {}) =
      items.any fun item => truth (itemLeaf field .eq item) := by
  have literal : (items.map scalarValue).all isLiteral = true := by
    rw [List.all_map, List.all_eq_true]
    exact fun item listed => (itemLeaf_plain field (plain item listed)).1
  have leaves : items.map (fun item => Leaf.comparison field .eq (scalarValue item) {}) =
      items.map (itemLeaf field .eq) :=
    List.map_congr_left fun item listed => (itemLeaf_plain field (plain item listed)).2.symm
  rw [spread, if_pos literal]
  simpa only [List.any_map, Function.comp_def] using congrArg (List.any · truth) leaves

/-- An entry of a table is an operand with its meaning. -/
theorem entryTokens_operand {key value : Yaml.Node} (formed : EntryFormed key value) :
    ∃ tokens meaning, entryTokens key.rawText value = .ok tokens ∧ IsOperand tokens meaning ∧
      ∀ truth, meaning (spread truth) = entryMeaning truth key.rawText value := by
  obtain ⟨fieldKey, read⟩ := formed.readable
  obtain rfl := FieldKey.ofText_ok read
  let field : Field := { name := keyField key.rawText }
  by_cases existence : "exists" ∈ keyModifiers key.rawText
  · obtain ⟨wanted, decoded, written⟩ := exists_decoded (formed.existence existence)
    let leaf : Leaf := .comparison field (if wanted then .isNotNone else .isNone) (.text "") {}
    refine ⟨[.leaf leaf], _, ?_, IsOperand.leaf leaf, fun truth => ?_⟩
    · simp only [entryTokens, read, bind, Except.bind, List.contains_iff_mem.mpr existence, decoded,
        ↓reduceIte, Option.getD_some]
      rfl
    · have single : leaf.value.isSingle = true := rfl
      simp [spread_single truth single, entryMeaning, existence, written, leaf, field]
  · have absent : (keyModifiers key.rawText).contains "exists" = false := by simpa using existence
    cases plain : keyOperator key.rawText = .eq && !(keyModifiers key.rawText).contains "all" &&
        (itemsOf value).length > 1 && (itemsOf value).all isPlainItem with
    | true =>
      -- The only leaf with a list, which `spread` takes apart again.
      let leaf : Leaf := .comparison field .eq (.list ((itemsOf value).map scalarValue)) {}
      refine ⟨[.leaf leaf], _, ?_, IsOperand.leaf leaf, fun truth => ?_⟩
      · simp only [entryTokens, read, bind, Except.bind, absent, plain, Bool.false_eq_true,
          ↓reduceIte]
        rfl
      · simp only [Bool.and_eq_true, decide_eq_true_eq, Bool.not_eq_true',
          List.all_eq_true] at plain
        obtain ⟨⟨⟨equality, notAll⟩, _⟩, each⟩ := plain
        have one : "all" ∉ keyModifiers key.rawText := by simpa using notAll
        simp only [leaf, spread_list truth field each, entryMeaning, existence, one, ↓reduceIte,
          equality, field]
    | false =>
      let connective : Connective := if "all" ∈ keyModifiers key.rawText then .and else .or
      refine ⟨_, _, ?_, IsOperand.values connective field (keyOperator_ne_neq key.rawText)
        formed.itemsOf_ne_nil, fun truth => ?_⟩
      · have word : (if (keyModifiers key.rawText).contains "all" then Token.and else .or) =
            connective.token := by
          by_cases all : "all" ∈ keyModifiers key.rawText <;>
            simp [connective, all, Connective.token]
        simp only [entryTokens, read, bind, Except.bind, absent, plain, Bool.false_eq_true,
          ↓reduceIte, word]
        rfl
      · have single (item : Yaml.Node) :=
          spread_single truth (value_itemLeaf_isSingle field (keyOperator key.rawText) item)
        by_cases all : "all" ∈ keyModifiers key.rawText <;>
          simp [connective, all, single, entryMeaning, existence, Connective.valueOf, field]

/-- The last group of joined ones may already be joined to the next. -/
theorem joinTokens_append (connective : Token) (first second : List Token)
    (others : List (List Token)) :
    joinTokens connective ((first ++ connective :: second) :: others) =
      joinTokens connective (first :: second :: others) := by
  cases others <;> simp [joinTokens]

/-- What has been read of a table with one more entry. -/
def addEntry (tokens : List Token) (entry : Yaml.Node × Yaml.Node) :
    Except PredicateFault (List Token) := do
  let more ← entryTokens entry.1.rawText entry.2
  return (if tokens.isEmpty then tokens else tokens ++ [Token.and]) ++ more

theorem tableTokens_eq (entries : List (Yaml.Node × Yaml.Node)) :
    tableTokens entries = entries.foldlM addEntry [] := rfl

theorem addEntry_eq {entry : Yaml.Node × Yaml.Node} {part : List Token}
    (read : entryTokens entry.1.rawText entry.2 = .ok part) (front : List Token) :
    addEntry front entry =
      .ok ((if front.isEmpty then front else front ++ [Token.and]) ++ part) := by
  rw [addEntry, read]
  rfl

/-- Entries are joined by AND behind what has been read. -/
theorem foldlM_addEntry {parts : List (List Token)}
    (read : List.Forall₂ (fun entry part => entryTokens entry.1.rawText entry.2 = .ok part)
      entries parts) {front : List Token} (present : front ≠ []) :
    entries.foldlM addEntry front = .ok (joinTokens .and (front :: parts)) := by
  induction read generalizing front with
  | nil => rfl
  | @cons entry part entries parts own _ ih =>
    have behind : front ++ .and :: part ≠ [] := by simp
    have next : addEntry front entry = .ok (front ++ .and :: part) := by
      simp [addEntry_eq own, present]
    rw [List.foldlM_cons, next, ← joinTokens_append, ← ih behind]
    rfl

/-- The entries of a table are operands that AND joins. -/
theorem tableTokens_operands (present : entries ≠ [])
    (each : ∀ entry ∈ entries, EntryFormed entry.1 entry.2) :
    ∃ parts meanings, tableTokens entries = .ok (joinTokens .and parts) ∧ parts ≠ [] ∧
      List.Forall₂ IsOperand parts meanings ∧
      ∀ truth, meanings.map (· (spread truth)) =
        entries.map fun entry => entryMeaning truth entry.1.rawText entry.2 := by
  have parts : ∃ parts meanings,
      List.Forall₂ (fun entry part => entryTokens entry.1.rawText entry.2 = .ok part)
        entries parts ∧
      List.Forall₂ IsOperand parts meanings ∧
      ∀ truth, meanings.map (· (spread truth)) =
        entries.map fun entry => entryMeaning truth entry.1.rawText entry.2 := by
    clear present
    induction entries with
    | nil => exact ⟨[], [], .nil, .nil, fun truth => rfl⟩
    | cons entry others ih =>
      rw [List.forall_mem_cons] at each
      obtain ⟨part, meaning, read, operand, agrees⟩ := entryTokens_operand each.1
      obtain ⟨parts, meanings, rest, operands, agree⟩ := ih each.2
      refine ⟨part :: parts, meaning :: meanings, .cons read rest, .cons operand operands, ?_⟩
      intro truth
      rw [List.map_cons, List.map_cons, agrees, agree]
  obtain ⟨parts, meanings, read, operands, agree⟩ := parts
  refine ⟨parts, meanings, ?_, ?_, operands, agree⟩
  · cases read with
    | nil => contradiction
    | @cons entry part entries parts own rest =>
      cases operands with
      | cons operand _ =>
        rw [tableTokens_eq, List.foldlM_cons, addEntry_eq own]
        exact foldlM_addEntry rest operand.ne_nil
  · rintro rfl
    cases read
    contradiction

/-- A table between parentheses is an operand with the meaning of its entries. -/
theorem enclosed_table (present : entries ≠ [])
    (each : ∀ entry ∈ entries, EntryFormed entry.1 entry.2) :
    ∃ tokens meaning, tableTokens entries = .ok tokens ∧ IsOperand (enclosed tokens) meaning ∧
      ∀ truth, meaning (spread truth) =
        entries.all fun entry => entryMeaning truth entry.1.rawText entry.2 := by
  obtain ⟨parts, meanings, read, filled, operands, agree⟩ := tableTokens_operands present each
  refine ⟨_, _, read, (Denotes.of_operands .and operands filled).isOperand, fun truth => ?_⟩
  simp only [Connective.valueOf, agree truth, List.all_map, Function.comp_def, id]

/-- An item of a selection is an operand with its meaning. -/
theorem itemTokens_operand (selection : String) (index : Nat) {item : Yaml.Node}
    (formed : ItemFormed item) :
    ∃ tokens meaning, itemTokens selection index item = .ok tokens ∧ IsOperand tokens meaning ∧
      ∀ truth, meaning (spread truth) = itemMeaning truth item := by
  cases formed with
  | word content =>
    refine ⟨_, _, rfl, IsOperand.leaf (wordLeaf content.text), fun truth => ?_⟩
    exact spread_single truth (value_wordLeaf_isSingle content.text)
  | table present each =>
    obtain ⟨tokens, meaning, read, operand, agrees⟩ := enclosed_table present each
    refine ⟨enclosed tokens, meaning, ?_, operand, agrees⟩
    rw [itemTokens, read]
    rfl

/-- The items of a selection are operands. -/
theorem itemTokens_operands (selection : String) (start : Nat)
    (each : ∀ item ∈ items, ItemFormed item) :
    ∃ groups meanings,
      (items.zipIdx start).mapM (fun entry => itemTokens selection entry.2 entry.1) = .ok groups ∧
      List.Forall₂ IsOperand groups meanings ∧
      ∀ truth, meanings.map (· (spread truth)) = items.map (itemMeaning truth) := by
  induction items generalizing start with
  | nil => exact ⟨[], [], rfl, .nil, fun truth => rfl⟩
  | cons item others ih =>
    rw [List.forall_mem_cons] at each
    obtain ⟨group, meaning, read, operand, agrees⟩ := itemTokens_operand selection start each.1
    obtain ⟨groups, meanings, rest, operands, agree⟩ := ih (start + 1) each.2
    refine ⟨group :: groups, meaning :: meanings, ?_, .cons operand operands, fun truth => ?_⟩
    · rw [List.zipIdx_cons, List.mapM_cons, read, rest]
      rfl
    · rw [List.map_cons, List.map_cons, agrees, agree]

/-- A selection of the right form can be read, and its tokens compile to a tree with the meaning of
the selection. -/
theorem selectionTokens_meaning (name : String) {node : Yaml.Node} (formed : SelectionFormed node) :
    ∃ tokens tree, selectionTokens name node = .ok tokens ∧ compile tokens = .ok tree ∧
      ∀ truth, tree.value (spread truth) = selectionMeaning truth node := by
  cases formed with
  | item formed =>
    cases formed with
    | word content =>
      have operands : List.Forall₂ IsOperand [[.leaf (wordLeaf content.text)]]
          [fun truth => truth (wordLeaf content.text)] := .cons (IsOperand.leaf _) .nil
      obtain ⟨tree, compiled, value⟩ := IsOperand.exists_compile .or operands (by simp)
      refine ⟨_, tree, rfl, compiled, fun truth => ?_⟩
      rw [value, List.map_singleton, Connective.valueOf_singleton]
      exact spread_single truth (value_wordLeaf_isSingle content.text)
    | table present each =>
      obtain ⟨parts, meanings, read, filled, operands, agree⟩ := tableTokens_operands present each
      obtain ⟨tree, compiled, value⟩ := IsOperand.exists_compile .and operands filled
      refine ⟨_, tree, ?_, compiled, fun truth => ?_⟩
      · rw [selectionTokens, read]
        rfl
      · simp [value, agree truth, Connective.valueOf, selectionMeaning, itemMeaning]
  | @list flow line items present each =>
    obtain ⟨groups, meanings, read, operands, agree⟩ := itemTokens_operands name 0 each
    have filled : groups ≠ [] := by
      rintro rfl
      cases operands
      simpa [present] using agree fun _ => true
    obtain ⟨tree, compiled, value⟩ := IsOperand.exists_compile .or operands filled
    refine ⟨joinTokens .or groups, tree, ?_, compiled, fun truth => ?_⟩
    · have steps : selectionTokens name (.sequence flow line items) = (do
          let groups ← (items.zipIdx 0).mapM fun entry => itemTokens name entry.2 entry.1
          return joinTokens .or groups) := rfl
      rw [steps, read]
      rfl
    · simp [value, agree truth, Connective.valueOf, selectionMeaning]

/-- A selection with a table of every kind of entry, and with a word. -/
def mixedSelection : Yaml.Node :=
  .ofItems [
    .ofEntries [
      (.ofText "Line|contains|ALL", .ofItems [.ofText "x", .ofText "y"]),
      (.ofText "User", .ofItems [.ofText "root", .ofText "admin"]),
      (.ofText "Name", .ofItems [.ofText "n*", .scalar { text := "", tag := "!!null" }]),
      (.ofText "Parent|exists", .scalar { text := "true", tag := "!!bool" })],
    .ofText "word"]

theorem formed_mixedSelection : SelectionFormed mixedSelection := by
  have scalars (first second : Yaml.Scalar) :
      ∀ item ∈ [Yaml.Node.scalar first, .scalar second], IsScalar item := by
    simp [IsScalar]
  refine .list (by simp) ?_
  simp only [List.forall_mem_cons, List.not_mem_nil, false_implies, implies_true, and_true]
  refine ⟨.table (by simp) ?_, .word _⟩
  simp only [List.forall_mem_cons, List.not_mem_nil, false_implies, implies_true, and_true]
  refine ⟨⟨⟨_, rfl⟩, by decide +kernel, .inr ⟨_, _, _, rfl, by simp, scalars _ _⟩⟩,
    ⟨⟨_, rfl⟩, by decide +kernel, .inr ⟨_, _, _, rfl, by simp, scalars _ _⟩⟩,
    ⟨⟨_, rfl⟩, by decide +kernel, .inr ⟨_, _, _, rfl, by simp, scalars _ _⟩⟩,
    ⟨⟨_, rfl⟩, by decide +kernel, .inl ⟨_, rfl⟩⟩⟩

/-- The selection holds where its whole table does, or where the word is found. -/
theorem selectionTokens_meaning_mixed :
    ∃ tokens tree, selectionTokens "mixed" mixedSelection = .ok tokens ∧
      compile tokens = .ok tree ∧ ∀ truth, tree.value (spread truth) = [
        [[.comparison { name := "Line" } .contains (.text "x") {},
          .comparison { name := "Line" } .contains (.text "y") {}].all truth,
        [.comparison { name := "User" } .eq (.text "root") {},
          .comparison { name := "User" } .eq (.text "admin") {}].any truth,
        [.comparison { name := "Name" } .startsWith (.text "n") ⟨false, true⟩,
          .comparison { name := "Name" } .isNone (.text "") {}].any truth,
        truth (.comparison { name := "Parent" } .isNotNone (.text "") {})].all id,
        truth (.keyword .keyword (.text "word") {})].any id := by
  obtain ⟨tokens, tree, read, compiled, value⟩ :=
    selectionTokens_meaning "mixed" formed_mixedSelection
  exact ⟨tokens, tree, read, compiled, fun truth => (value truth).trans rfl⟩

end Detection.Sigma
