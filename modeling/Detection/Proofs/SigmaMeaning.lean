import Detection.Language.Sigma.Blocks
import Detection.Proofs.Infix

/-!
# What Sigma blocks ask of an event

An event answers atomic questions: whether a field of the target compares with a single
value in a positive way, and whether a word occurs. A leaf of a condition asks one of
several such questions, since its field may have several names and its value may be a
list, and a negated operator asks for the opposite. A block asks them by its keys and
values: all entries of a map, one of several maps, or one of several words; a list is one
of its items, and no value at all is the absence of the field.

The names of fields must not contain the bar, which separates a field from its modifier
in a key. Then a key says which field and which operator it was written for, and an entry
asks what its leaf asks. Entries under one key can share a list.
-/
namespace Detection

variable {operator : Operator} {members : List Tree} {entry : Entry} {value : Value}
  {entries : List Entry} {held : List Bool} {member : Tree} {taken : List String}

/-- A computation without a defect gives its result. -/
theorem orDefect_ok {α : Type} {step : Except Defect α} {result : α}
    (done : Except.orDefect step = .ok result) : step = .ok result := by
  cases step with
  | error => cases done
  | ok => exact congrArg Except.ok (Except.ok.inj done)

namespace Value

/-- Induction over a value, with a hypothesis for every item of a list. -/
@[elab_as_elim]
theorem induction {motive : Value → Prop} (number : ∀ lexeme, motive (number lexeme))
    (text : ∀ content, motive (text content))
    (pattern : ∀ content special, motive (pattern content special))
    (list : ∀ items, (∀ item ∈ items, motive item) → motive (list items))
    (absent : motive absent) (value : Value) : motive value :=
  @Value.rec motive (fun items => ∀ item ∈ items, motive item) number text pattern list absent
    (fun _ none => absurd none List.not_mem_nil)
    (fun _ _ first others _ belongs => (List.mem_cons.mp belongs).elim (· ▸ first) (others _))
    value

mutual

/-- Whether one of the single values in a value is as asked. -/
def any (asked : Value → Bool) : Value → Bool
  | list items => anyOf asked items
  | single => asked single

/-- Whether one of the single values in several values is as asked. -/
def anyOf (asked : Value → Bool) : List Value → Bool
  | [] => false
  | item :: others => item.any asked || anyOf asked others

end

end Value

namespace Sigma

open Text

mutual

/-- Whether one of the single items in an item is as asked. -/
def Item.any (asked : Item → Bool) : Item → Bool
  | .list items => Item.anyOf asked items
  | single => asked single

/-- Whether one of the single items in several items is as asked. -/
def Item.anyOf (asked : Item → Bool) : List Item → Bool
  | [] => false
  | item :: others => item.any asked || Item.anyOf asked others

end

theorem Item.anyOf_eq (asked : Item → Bool) (items : List Item) :
    Item.anyOf asked items = items.any (Item.any asked) := by
  induction items with
  | nil => rfl
  | cons item others ih =>
    simp only [Item.anyOf, List.any_cons, ih]

/-- What an event is asked. Absence is asked without a value. -/
inductive Atom
  | comparison (field : String) (operator : Operator) (item : Item)
  | word (item : Item)
  deriving Repr

def formOf (operator : Operator) (value : Value) : Item :=
  (itemOf operator value).toOption.getD .null

/-- Whether a field compares with a value, or with one of its items. -/
def compares (truth : Atom → Bool) (field : String) (operator : Operator) (value : Value) : Bool :=
  if operator = .isNone then truth (.comparison field .isNone .null)
  else value.any fun single => truth (.comparison field operator (formOf operator single))

/-- Whether a word occurs, or one of its items. Open ends belong to a single word. -/
def searches (truth : Atom → Bool) (operator : Operator) (wildcards : Wildcards) : Value → Bool
  | .list items => Value.anyOf (fun single => truth (.word (formOf operator single))) items
  | single => truth (.word ((keywordItem operator single wildcards).toOption.getD .null))

/-- Whether a leaf holds under a mapping. -/
def leafHolds (naming : FieldNaming) (mapping : SourceMapping) (truth : Atom → Bool) : Leaf → Bool
  | .keyword operator value wildcards => searches truth operator wildcards value
  | .comparison field operator value _ =>
    let names := (naming.names mapping field).toOption.getD []
    let found := names.any fun name =>
      compares truth name ((positive? operator).getD operator) value
    if (positive? operator).isSome then !found else found

/-- The operator that a modifier stands for. -/
def operatorOf : String → Operator
  | "|contains" => .contains
  | "|startswith" => .startsWith
  | "|endswith" => .endsWith
  | "|re" => .regex
  | "|lt" => .lt
  | "|lte" => .lte
  | "|gt" => .gt
  | "|gte" => .gte
  | _ => .eq

/-- The field and the operator that a key stands for. -/
def readKey (key : String) : String × Operator :=
  (String.ofList (key.toList.takeWhile (· != '|')),
    operatorOf (String.ofList (key.toList.dropWhile (· != '|'))))

/-- What an item under a key asks: absence without a value, and else the comparison. -/
def itemHolds (truth : Atom → Bool) (key : String) : Item → Bool
  | .null => truth (.comparison (readKey key).1 .isNone .null)
  | item => truth (.comparison (readKey key).1 (readKey key).2 item)

def Entry.holds (truth : Atom → Bool) (entry : Entry) : Bool :=
  entry.value.any (itemHolds truth entry.key)

def BlockContent.holds (truth : Atom → Bool) : BlockContent → Bool
  | .all entries => entries.all (Entry.holds truth)
  | .any entries => entries.any (Entry.holds truth)
  | .keywords items => Item.anyOf (fun item => truth (.word item)) items

/-- The forms of several values ask what the values ask, if that is so for each. -/
theorem anyOf_itemsOfAll {values : List Value} {items : List Item}
    (formed : itemsOfAll operator values = .ok items) {asked : Item → Bool}
    {wanted : Value → Bool} (each : ∀ value ∈ values, ∀ item, itemOf operator value = .ok item →
      item.any asked = value.any wanted) : Item.anyOf asked items = Value.anyOf wanted values := by
  induction values generalizing items with
  | nil =>
    obtain rfl : [] = items := Except.ok.inj formed
    rfl
  | cons value others ih =>
    rw [itemsOfAll] at formed
    obtain ⟨first, firstFormed, formed⟩ := exists_of_bind formed
    obtain ⟨rest, restFormed, formed⟩ := exists_of_bind formed
    obtain rfl : first :: rest = items := Except.ok.inj formed
    have tail := ih restFormed
      fun other belongs => each other (List.mem_cons_of_mem _ belongs)
    rw [Item.anyOf, Value.anyOf, each value List.mem_cons_self first firstFormed, tail]

/-- The form of a value asks what its single values ask in their forms. A single value
always has a form with something in it. -/
theorem any_itemOf {item : Item} (formed : itemOf operator value = .ok item)
    (asked wanted : Item → Bool) (same : ∀ item, item ≠ .null → asked item = wanted item) :
    item.any asked = value.any fun single => wanted (formOf operator single) := by
  induction value using Value.induction generalizing item with
  | number lexeme =>
    obtain rfl : Item.number lexeme = item := Except.ok.inj formed
    exact same _ (by simp)
  | text =>
    cases formed
    exact same _ (by simp)
  | pattern content =>
    obtain rfl : Item.text content = item := Except.ok.inj formed
    exact same _ (by simp)
  | absent => simp [itemOf] at formed
  | list items ih =>
    rw [itemOf] at formed
    obtain ⟨forms, itemsFormed, formed⟩ := exists_of_bind formed
    obtain rfl : Item.list forms = item := Except.ok.inj formed
    exact anyOf_itemsOfAll itemsFormed fun value belongs form =>
      ih value belongs

/-- The form of a keyword asks what the keyword asks. -/
theorem any_keywordItem {wildcards : Wildcards} {item : Item}
    (formed : keywordItem operator value wildcards = .ok item) (truth : Atom → Bool) :
    item.any (fun item => truth (.word item)) = searches truth operator wildcards value := by
  have whole := formed
  obtain ⟨form, valueFormed, formed⟩ := exists_of_bind formed
  have shown : (keywordItem operator value wildcards).toOption.getD .null = item := by
    rw [whole]
    rfl
  cases value with
  | list items =>
    have asks : form.any (fun item => truth (.word item)) =
        (Value.list items).any fun single => truth (.word (formOf operator single)) :=
      any_itemOf valueFormed _ (fun item => truth (.word item)) fun _ _ => rfl
    rw [itemOf] at valueFormed
    obtain ⟨forms, _, listed⟩ := exists_of_bind valueFormed
    obtain rfl : Item.list forms = form := Except.ok.inj listed
    obtain rfl : Item.list forms = item := Except.ok.inj formed
    exact asks
  | number lexeme =>
    obtain rfl : Item.number lexeme = form := Except.ok.inj valueFormed
    obtain rfl : Item.number lexeme = item := Except.ok.inj formed
    rw [searches, shown]
    · rfl
    · simp
  | text =>
    cases valueFormed
    cases formed
    rw [searches, shown]
    · rfl
    · simp
  | pattern content =>
    obtain rfl : Item.text content = form := Except.ok.inj valueFormed
    cases formed
    rw [searches, shown]
    · rfl
    · simp
  | absent => simp [itemOf] at valueFormed

/-- The operators under which a key stands for itself. -/
def keyOperators : List Operator :=
  [.eq, .lt, .lte, .gt, .gte, .contains, .startsWith, .endsWith, .regex]

/-- A key says which field and which operator it was written for. -/
theorem readKey_modifierOf {field : String} (bare : '|' ∉ field.toList)
    (listed : operator ∈ keyOperators) :
    readKey (field ++ modifierOf operator) = (field, operator) := by
  have inside : ∀ c ∈ field.toList, (c != '|') = true := by
    intro c belongs
    rw [bne_iff_ne]
    rintro rfl
    exact bare belongs
  have parts : readKey (field ++ modifierOf operator) =
      (String.ofList (field.toList ++ (modifierOf operator).toList.takeWhile (· != '|')),
        operatorOf (String.ofList ((modifierOf operator).toList.dropWhile (· != '|')))) := by
    rw [readKey, String.toList_append, List.takeWhile_append_of_pos inside,
      List.dropWhile_append_of_pos inside]
  have name : String.ofList (field.toList ++ []) = field := by simp
  rw [parts]
  simp only [keyOperators, List.mem_cons, List.not_mem_nil, or_false] at listed
  rcases listed with rfl | rfl | rfl | rfl | rfl | rfl | rfl | rfl | rfl <;>
    exact Prod.ext name rfl

/-- The positive operators of comparisons. -/
def positiveOperators : List Operator := .isNone :: keyOperators

/-- An entry asks what the comparison asks that it was written for. -/
theorem entryFor_holds {field : String} (bare : '|' ∉ field.toList)
    (listed : operator ∈ positiveOperators) (built : entryFor field operator value = .ok entry)
    (truth : Atom → Bool) : entry.holds truth = compares truth field operator value := by
  rcases List.mem_cons.mp listed with rfl | keyed
  · obtain rfl : Entry.mk field .null = entry := Except.ok.inj built
    have key : readKey (field ++ modifierOf .eq) = (field, .eq) :=
      readKey_modifierOf bare (by decide)
    have bareKey : readKey field = (field, .eq) := by simpa [modifierOf] using key
    simp [Entry.holds, Item.any, itemHolds, bareKey, compares]
  · have present : operator ≠ .isNone := by
      rintro rfl
      exact absurd keyed (by decide)
    simp only [entryFor, present, ↓reduceIte] at built
    obtain ⟨item, formed, built⟩ := exists_of_bind built
    obtain rfl : Entry.mk (field ++ modifierOf operator) item = entry := Except.ok.inj built
    have key := readKey_modifierOf bare keyed
    have same : ∀ item, item ≠ .null → itemHolds truth (field ++ modifierOf operator) item =
        truth (.comparison field operator item) := by
      intro item some
      cases item with
      | null => contradiction
      | number | text | list => simp [itemHolds, key]
    have asks := any_itemOf formed _ (fun item => truth (.comparison field operator item)) same
    simpa [Entry.holds, compares, present] using asks

/-- The entries for the names of a field ask one by one what the comparison asks under
each name. -/
theorem entriesFor_holds {names : List String} (bare : ∀ name ∈ names, '|' ∉ name.toList)
    (listed : operator ∈ positiveOperators)
    (built : names.mapM (entryFor · operator value) = .ok entries) (truth : Atom → Bool) :
    entries.map (Entry.holds truth) = names.map fun name => compares truth name operator value := by
  induction names generalizing entries with
  | nil =>
    obtain rfl : [] = entries := Except.ok.inj built
    rfl
  | cons name others ih =>
    rw [List.forall_mem_cons] at bare
    rw [List.mapM_cons] at built
    obtain ⟨entry, entryBuilt, built⟩ := exists_of_bind built
    obtain ⟨rest, restBuilt, built⟩ := exists_of_bind built
    obtain rfl : entry :: rest = entries := Except.ok.inj built
    rw [List.map_cons, List.map_cons, entryFor_holds bare.1 listed entryBuilt truth,
      ih bare.2 restBuilt]

/-- The operators of comparisons that a rule can say. -/
def comparisonOperators : List Operator :=
  [.eq, .neq, .lt, .lte, .gt, .gte, .contains, .notContains, .startsWith, .endsWith, .regex,
    .notRegex, .isNone, .isNotNone]

/-- The leaves that a rule can say under a mapping: words, and comparisons of fields whose
names on the target do not contain the bar. -/
def Sayable (naming : FieldNaming) (mapping : SourceMapping) : Leaf → Prop
  | .keyword .. => True
  | .comparison field operator _ _ => operator ∈ comparisonOperators ∧
    ∀ names, naming.names mapping field = .ok names → ∀ name ∈ names, '|' ∉ name.toList

/-- What an operator is the negation of, or else the operator itself, is positive. -/
theorem positive_mem (listed : operator ∈ comparisonOperators) :
    (positive? operator).getD operator ∈ positiveOperators := by
  simp only [comparisonOperators, List.mem_cons, List.not_mem_nil, or_false] at listed
  rcases listed with rfl | rfl | rfl | rfl | rfl | rfl | rfl | rfl | rfl | rfl | rfl | rfl | rfl |
    rfl <;> decide

section

variable {naming : FieldNaming} {mapping : SourceMapping}

/-- The entry for a leaf asks what the leaf asks. -/
theorem entryOfLeaf_holds {leaf : Leaf} (sayable : Sayable naming mapping leaf)
    (built : entryOfLeaf? naming mapping leaf = .ok (some entry)) (truth : Atom → Bool) :
    entry.holds truth = leafHolds naming mapping truth leaf := by
  cases leaf with
  | keyword => cases built
  | comparison field operator value wildcards =>
    obtain ⟨listed, bare⟩ := sayable
    simp only [entryOfLeaf?] at built
    split at built
    · cases built
    · next affirmative =>
      have plain : positive? operator = none := by
        cases operator <;> simp_all [Operator.negated, positive?]
      have positive := positive_mem listed
      obtain ⟨names, named, built⟩ := exists_of_bind built
      split at built
      · next name =>
        obtain ⟨found, entryBuilt, same⟩ := exists_of_bind built
        obtain rfl : found = entry := Option.some.inj (Except.ok.inj same)
        rw [plain, Option.getD_none] at positive
        have holds := entryFor_holds (bare [name] named name List.mem_cons_self) positive
          (orDefect_ok entryBuilt) truth
        simpa [leafHolds, named, Except.toOption, plain] using holds
      · cases built

/-- Items under one key can be asked in two parts. -/
theorem holds_append (truth : Atom → Bool) (key : String) (first second : List Item) :
    Entry.holds truth ⟨key, .list (first ++ second)⟩ =
      (Entry.holds truth ⟨key, .list first⟩ || Entry.holds truth ⟨key, .list second⟩) := by
  simp [Entry.holds, Item.any, Item.anyOf_eq]

/-- What an item contributes to a list asks what the item asks. -/
theorem holds_spread (truth : Atom → Bool) (key : String) (item : Item) :
    Entry.holds truth ⟨key, .list item.spread⟩ = Entry.holds truth ⟨key, item⟩ := by
  cases item <;> simp [Entry.holds, Item.spread, Item.any, Item.anyOf]

/-- The values of leaves under one key ask what one of the leaves asks. -/
theorem valuesUnder_holds {key : String}
    (sayable : ∀ leaf ∈ members.flatMap Tree.leaves, Sayable naming mapping leaf)
    {values : List Item} (built : valuesUnder? naming mapping key members = .ok (some values))
    (truth : Atom → Bool) :
    Entry.holds truth ⟨key, .list values⟩ =
      members.any (Tree.value (leafHolds naming mapping truth)) := by
  induction members generalizing values with
  | nil =>
    obtain rfl : [] = values := Option.some.inj (Except.ok.inj built)
    rfl
  | cons member others ih =>
    cases member with
    | group => cases built
    | leaf content =>
      rw [List.flatMap_cons, List.forall_mem_append] at sayable
      rw [valuesUnder?] at built
      obtain ⟨found, leafBuilt, built⟩ := exists_of_bind built
      cases found with
      | none => cases built
      | some entry =>
        simp only at built
        split at built
        · next same =>
          obtain ⟨rest, restBuilt, built⟩ := exists_of_bind built
          obtain ⟨items, rfl, rfl⟩ := Option.map_eq_some_iff.mp (Except.ok.inj built)
          obtain rfl : entry.key = key := by simpa using same
          have first := entryOfLeaf_holds (sayable.1 content (by simp)) leafBuilt truth
          have tail := ih sayable.2 restBuilt
          rw [holds_append, holds_spread, first, tail]
          rfl
        · cases built

/-- The entry for an OR asks what the OR asks. -/
theorem entryOfAny_holds
    (sayable : ∀ leaf ∈ members.flatMap Tree.leaves, Sayable naming mapping leaf)
    (built : entryOfAny? naming mapping members = .ok (some entry)) (truth : Atom → Bool) :
    entry.holds truth = members.any (Tree.value (leafHolds naming mapping truth)) := by
  match members with
  | [] => cases built
  | .group kind inner :: others => cases built
  | .leaf content :: others =>
    rw [List.flatMap_cons, List.forall_mem_append] at sayable
    obtain ⟨found, leafBuilt, built⟩ := exists_of_bind built
    cases found with
    | none => cases built
    | some =>
      obtain ⟨rest, restBuilt, built⟩ := exists_of_bind built
      obtain ⟨values, rfl, rfl⟩ := Option.map_eq_some_iff.mp (Except.ok.inj built)
      have head := entryOfLeaf_holds (sayable.1 content (by simp)) leafBuilt truth
      have tail := valuesUnder_holds sayable.2 restBuilt truth
      rw [holds_append, holds_spread, head, tail]
      rfl

/-- The entry for a member of an AND asks what the member asks. -/
theorem entryOfMember_holds (sayable : ∀ leaf ∈ member.leaves, Sayable naming mapping leaf)
    (built : entryOfMember? naming mapping member = .ok (some entry)) (truth : Atom → Bool) :
    entry.holds truth = member.value (leafHolds naming mapping truth) := by
  match member with
  | .leaf content => exact entryOfLeaf_holds (sayable content (by simp)) built truth
  | .group .or members =>
    rw [Tree.leaves_group] at sayable
    rw [Tree.value_or]
    exact entryOfAny_holds sayable built truth
  | .group .and members => cases built
  | .group .not members => cases built
  | .group .single members => cases built

/-- The members of a group that a common block does not hold. -/
def remaining : List Bool → List Tree → List Tree
  | _, [] => []
  | held, member :: others =>
    if held.headD false then remaining held.tail others else member :: remaining held.tail others

theorem mem_of_mem_remaining (stays : member ∈ remaining held members) : member ∈ members := by
  induction members generalizing held with
  | nil => exact stays
  | cons first others ih =>
    rw [remaining] at stays
    split at stays
    · exact List.mem_cons_of_mem _ (ih stays)
    · rcases List.mem_cons.mp stays with rfl | later
      · exact List.mem_cons_self
      · exact List.mem_cons_of_mem _ (ih later)

/-- The entries of a common block and the members that it holds: every key is there once
and was not taken before, no member is lost, and the entries with the members that stay
ask what all members ask. -/
structure Shares (naming : FieldNaming) (mapping : SourceMapping) (taken : List String)
    (members : List Tree) (entries : List Entry) (held : List Bool) : Prop where
  distinct : (entries.map Entry.key).Nodup
  fresh : ∀ entry ∈ entries, entry.key ∉ taken
  count : entries.length + (remaining held members).length = members.length
  value : ∀ truth, members.all (Tree.value (leafHolds naming mapping truth)) =
    (entries.all (Entry.holds truth) &&
      (remaining held members).all (Tree.value (leafHolds naming mapping truth)))

/-- A member that contributes no entry stays. -/
theorem Shares.stay (shares : Shares naming mapping taken members entries held) (member : Tree) :
    Shares naming mapping taken (member :: members) entries (false :: held) where
  distinct := shares.distinct
  fresh := shares.fresh
  count := by
    have count := shares.count
    simp only [remaining, List.headD_cons, List.tail_cons, Bool.false_eq_true, ↓reduceIte,
      List.length_cons]
    omega
  value truth := by
    simp only [List.all_cons, shares.value truth, remaining, List.headD_cons, List.tail_cons,
      Bool.false_eq_true, ↓reduceIte]
    ac_rfl

/-- A member with an entry of its own goes into the block. -/
theorem Shares.hold (shares : Shares naming mapping (entry.key :: taken) members entries held)
    (free : entry.key ∉ taken)
    (own : ∀ truth, entry.holds truth = member.value (leafHolds naming mapping truth)) :
    Shares naming mapping taken (member :: members) (entry :: entries) (true :: held) where
  distinct := by
    rw [List.map_cons, List.nodup_cons]
    refine ⟨fun again => ?_, shares.distinct⟩
    obtain ⟨other, belongs, same⟩ := List.mem_map.mp again
    exact shares.fresh other belongs (same ▸ List.mem_cons_self)
  fresh := List.forall_mem_cons.mpr ⟨free, fun other later known =>
    shares.fresh other later (List.mem_cons_of_mem _ known)⟩
  count := by
    have count := shares.count
    simp only [remaining, List.headD_cons, List.tail_cons, ↓reduceIte, List.length_cons]
    omega
  value truth := by
    simp only [List.all_cons, shares.value truth, own truth, remaining, List.headD_cons,
      List.tail_cons, ↓reduceIte]
    ac_rfl

/-- The members of an AND share a block. -/
theorem sharedEntries_shares
    (sayable : ∀ leaf ∈ members.flatMap Tree.leaves, Sayable naming mapping leaf)
    (built : sharedEntries naming mapping taken members = .ok (entries, held)) :
    Shares naming mapping taken members entries held := by
  induction members generalizing taken entries held with
  | nil =>
    cases built
    exact ⟨by simp, by simp, rfl, fun _ => rfl⟩
  | cons member others ih =>
    rw [List.flatMap_cons, List.forall_mem_append] at sayable
    rw [sharedEntries] at built
    obtain ⟨found, memberBuilt, built⟩ := exists_of_bind built
    cases found with
    | none =>
      obtain ⟨rest, restBuilt, built⟩ := exists_of_bind built
      cases built
      exact (ih sayable.2 restBuilt).stay member
    | some =>
      simp only at built
      split at built
      · obtain ⟨rest, restBuilt, built⟩ := exists_of_bind built
        cases built
        exact (ih sayable.2 restBuilt).stay member
      · next free =>
        obtain ⟨rest, restBuilt, built⟩ := exists_of_bind built
        cases built
        exact (ih sayable.2 restBuilt).hold (by simpa using free)
          (entryOfMember_holds sayable.1 memberBuilt)

end

end Sigma

end Detection
