import Detection.Lexer.Literal
import Detection.Render.Literal
import Mathlib.Data.List.Basic

/-!
# What escaping does to a text

The dialects escape by putting a mark in front of each of some symbols. Such a rule works
character by character: every character of the text stands in the result, behind a mark or
alone. So escaping never makes a text empty, and taking the marks away gives the text back.

The mark need not be one of the symbols. Then a mark of the text stays as it is, also in front
of the mark that is put before a symbol. It is not taken away with that one, because the
character behind it is the other mark, which is no symbol. For a list of rules this is said
of one rule after another, since each rule is undone on what it has written itself.
-/
namespace Detection

open Text

/-- A text that is written character by character is read character by character, if the reader
gets over what each character is written as and stops at what stands behind the text. -/
theorem read_flatMap {α : Type} {read : List Char → Option (List α × List Char)}
    {code : Char → List Char} {image : Char → List α}
    (step : ∀ c rest body behind, read rest = some (body, behind) →
      read (code c ++ rest) = some (image c ++ body, behind))
    {tail behind : List Char} (stop : read tail = some ([], behind)) (text : List Char) :
    read (text.flatMap code ++ tail) = some (text.flatMap image, behind) := by
  induction text with
  | nil => exact stop
  | cons c rest ih =>
    rw [List.flatMap_cons, List.flatMap_cons, List.append_assoc]
    exact step c _ _ behind ih

namespace EscapeRule

theorem markedSymbol_single {mark : Char} (plain : mark ≠ '$') (c : Char) :
    markedSymbol [mark] c = [mark, c] := by
  have symbol : expandFrom c 0 ['$', '\x7b', '1', '\x7d'] = [c] := rfl
  rw [markedSymbol, expandTemplate, List.singleton_append, expandFrom, symbol]
  simp [plain]

theorem apply_eq_flatMap (rule : EscapeRule) (text : List Char) :
    rule.apply text = text.flatMap fun c => rule.apply [c] := by
  cases rule <;> simp only [apply, List.flatMap_singleton]

/-- The rule with a single mark, character by character. -/
theorem apply_marked {mark : Char} (plain : mark ≠ '$') (symbols text : List Char) :
    (marked symbols [mark]).apply text =
      text.flatMap fun c => if c ∈ symbols then [mark, c] else [c] := by
  simp only [apply, markedSymbol_single plain, List.contains_iff_mem]

/-- The rule with a backslash, character by character. -/
theorem apply_backslash (symbols : String) (text : List Char) :
    (Escaping.backslash symbols).apply text =
      text.flatMap fun c => if c ∈ symbols.toList then ['\\', c] else [c] :=
  apply_marked (by decide) symbols.toList text

/-- Escaping leaves nothing only where there was nothing. -/
theorem apply_backslash_eq_nil (symbols : String) (text : List Char) :
    (Escaping.backslash symbols).apply text = [] ↔ text = [] := by
  rw [apply_backslash]
  cases text with
  | nil => simp
  | cons =>
    rw [List.flatMap_cons]
    split <;> simp

/-- An escaped text begins with a symbol only if the mark is one: its first character is a mark
or was not escaped. -/
theorem mark_mem_of_head {mark : Char} (plain : mark ≠ '$') {symbols text : List Char} {c : Char}
    (first : c ∈ ((marked symbols [mark]).apply text).head?) (symbol : c ∈ symbols) :
    mark ∈ symbols := by
  rw [apply_marked plain] at first
  cases text with
  | nil => simp at first
  | cons own rest =>
    by_cases escaped : own ∈ symbols
    · have same : mark = c := by simpa [escaped] using first
      exact same ▸ symbol
    · have same : own = c := by simpa [escaped] using first
      exact absurd symbol (same ▸ escaped)

/-- A mark in front of a symbol is taken away. -/
theorem unmark_symbol (mark : Char) {symbols : List Char} {c : Char} (symbol : c ∈ symbols)
    (rest : List Char) :
    unmark symbols [mark] 0 (mark :: c :: rest) = c :: unmark symbols [mark] 0 rest := by
  simp [unmark, List.isPrefixOf?, symbol]

/-- A character stays, if it is not a mark in front of a symbol. -/
theorem unmark_other {mark c : Char} {symbols rest : List Char}
    (other : c = mark → ∀ next ∈ rest.head?, next ∉ symbols) :
    unmark symbols [mark] 0 (c :: rest) = c :: unmark symbols [mark] 0 rest := by
  by_cases same : mark = c
  · cases rest with
    | nil => simp [unmark, List.isPrefixOf?, same]
    | cons next =>
      have free : next ∉ symbols := other same.symm next rfl
      simp [unmark, List.isPrefixOf?, same, free]
  · simp [unmark, List.isPrefixOf?, same]

/-- Taking the marks in front of symbols away gives the text back, whether or not the mark is one
of the symbols. -/
theorem undo_apply_marked {mark : Char} (plain : mark ≠ '$') (symbols text : List Char) :
    (marked symbols [mark]).undo ((marked symbols [mark]).apply text) = text := by
  change unmark symbols [mark] 0 _ = text
  induction text with
  | nil => rfl
  | cons c rest ih =>
    have split : (marked symbols [mark]).apply (c :: rest) =
        (if c ∈ symbols then [mark, c] else [c]) ++ (marked symbols [mark]).apply rest := by
      simp only [apply_marked plain, List.flatMap_cons]
    rw [split]
    by_cases symbol : c ∈ symbols
    · rw [if_pos symbol]
      exact (unmark_symbol mark symbol _).trans (congrArg (c :: ·) ih)
    · rw [if_neg symbol]
      -- A mark that is no symbol may stand in front of an escaped symbol. What follows it is
      -- then the other mark.
      have other : c = mark →
          ∀ next ∈ ((marked symbols [mark]).apply rest).head?, next ∉ symbols := by
        rintro rfl next first isSymbol
        exact symbol (mark_mem_of_head plain first isSymbol)
      exact (unmark_other other).trans (congrArg (c :: ·) ih)

/-- Escaped text ends at the mark behind it, if the rule escapes the mark and the
backslash. No escaped symbol may end the line. -/
theorem escapedBody_apply_backslash {symbols : String} {mark : Char}
    (markEscaped : mark ∈ symbols.toList) (backslashEscaped : '\\' ∈ symbols.toList)
    (lines : '\n' ∉ symbols.toList) (apart : mark ≠ '\\') (text rest : List Char) :
    Lexer.escapedBody? mark ((Escaping.backslash symbols).apply text ++ mark :: rest) =
      some ((Escaping.backslash symbols).apply text, rest) := by
  rw [apply_backslash]
  refine read_flatMap ?_ (by simp [Lexer.escapedBody?, apart]) text
  intro c others body behind read
  by_cases symbol : c ∈ symbols.toList
  · have joins : c ≠ '\n' := by
      rintro rfl
      exact lines symbol
    simp [symbol, Lexer.escapedBody?, joins, read]
  · have plain : c ≠ '\\' := by
      rintro rfl
      exact symbol backslashEscaped
    have inside : c ≠ mark := by
      rintro rfl
      exact symbol markEscaped
    simp [symbol, Lexer.escapedBody?, plain, inside, read]

/-- Rules that mark symbols are made for every list of non-empty classes. -/
theorem mapM_symbols {entries : List (String × Char)}
    (visible : ∀ entry ∈ entries, entry.1 ≠ "") :
    entries.mapM (fun entry => symbols entry.1 (String.singleton entry.2)) =
      .ok (entries.map fun entry => marked entry.1.toList [entry.2]) := by
  induction entries with
  | nil => rfl
  | cons entry others ih =>
    obtain ⟨own, rest⟩ := List.forall_mem_cons.mp visible
    have made : symbols entry.1 (String.singleton entry.2) =
        .ok (marked entry.1.toList [entry.2]) := by
      simp [symbols, own]
    rw [List.mapM_cons, made, ih rest]
    rfl

end EscapeRule

namespace Escaping

variable {escaping : Escaping} {kind : LiteralKind}

/-- Escaping with a single rule. -/
theorem escapeChars_single {rule : EscapeRule} (rules : escaping.rules kind = [rule])
    (text : List Char) : escaping.escapeChars kind text = rule.apply text := by
  simp only [escapeChars, rules, List.foldl_cons, List.foldl_nil]

/-- Escaping works character by character, whatever the rules are. -/
theorem escapeChars_eq_flatMap (escaping : Escaping) (kind : LiteralKind) (text : List Char) :
    escaping.escapeChars kind text = text.flatMap fun c => escaping.escapeChars kind [c] := by
  simp only [escapeChars]
  generalize escaping.rules kind = rules
  induction rules generalizing text with
  | nil => exact (List.flatMap_singleton' text).symm
  | cons rule others ih =>
    simp only [List.foldl_cons]
    calc others.foldl (fun text rule => rule.apply text) (rule.apply text)
      _ = (text.flatMap fun c => rule.apply [c]).flatMap fun c =>
            others.foldl (fun text rule => rule.apply text) [c] := by
          rw [ih, ← rule.apply_eq_flatMap]
      _ = text.flatMap fun c => (rule.apply [c]).flatMap fun c =>
            others.foldl (fun text rule => rule.apply text) [c] := List.flatMap_assoc
      _ = text.flatMap fun c =>
            others.foldl (fun text rule => rule.apply text) (rule.apply [c]) := by
          simp only [← ih]

@[simp] theorem escapeChars_nil (escaping : Escaping) (kind : LiteralKind) :
    escaping.escapeChars kind [] = [] :=
  escaping.escapeChars_eq_flatMap kind []

/-- The parts of a text are escaped one after another. -/
theorem escapeChars_append (escaping : Escaping) (kind : LiteralKind) (first second : List Char) :
    escaping.escapeChars kind (first ++ second) =
      escaping.escapeChars kind first ++ escaping.escapeChars kind second := by
  rw [escapeChars_eq_flatMap, List.flatMap_append, ← escapeChars_eq_flatMap,
    ← escapeChars_eq_flatMap]

theorem escape_append (escaping : Escaping) (kind : LiteralKind) (first second : String) :
    escaping.escape kind (first ++ second) =
      escaping.escape kind first ++ escaping.escape kind second := by
  rw [escape, String.toList_append, escapeChars_append, String.ofList_append, ← escape, ← escape]

/-- Unescaping with a single rule. -/
theorem unescapeChars_single {rule : EscapeRule} (rules : escaping.rules kind = [rule])
    (text : List Char) : escaping.unescapeChars kind text = rule.undo text := by
  simp only [unescapeChars, rules, List.foldr_cons, List.foldr_nil]

/-- Undoing rules from the last one on gives the text back, if each of them can be undone. -/
theorem unescapeChars_escapeChars
    (undone : ∀ rule ∈ escaping.rules kind, ∀ text, rule.undo (rule.apply text) = text)
    (text : List Char) :
    escaping.unescapeChars kind (escaping.escapeChars kind text) = text := by
  rw [unescapeChars, escapeChars]
  generalize escaping.rules kind = rules at undone
  induction rules generalizing text with
  | nil => rfl
  | cons rule others ih =>
    obtain ⟨own, rest⟩ := List.forall_mem_cons.mp undone
    rw [List.foldl_cons, List.foldr_cons, ih (rule.apply text) rest, own]

/-- Unescaping a text after escaping it gives the text back, for any list of rules that put single
marks other than the dollar sign in front of the symbols of non-empty classes. Such rules can
be made, and escaping writes the mark of each rule in turn in front of the symbols that it
finds, those that are marks of earlier rules included. -/
theorem unescape_escape_symbols (entries : List (String × Char))
    (visible : ∀ entry ∈ entries, entry.1 ≠ "") (plain : ∀ entry ∈ entries, entry.2 ≠ '$') :
    ∃ rules, entries.mapM (fun entry =>
        EscapeRule.symbols entry.1 (String.singleton entry.2)) = .ok rules ∧
      ∀ (escaping : Escaping) (kind : LiteralKind), escaping.rules kind = rules →
        ∀ text : String,
          (escaping.escape kind text).toList = entries.foldl (fun text entry =>
            text.flatMap fun c => if c ∈ entry.1.toList then [entry.2, c] else [c]) text.toList ∧
          escaping.unescape kind (escaping.escape kind text) = text := by
  refine ⟨_, EscapeRule.mapM_symbols visible, fun escaping kind known text => ⟨?_, ?_⟩⟩
  · rw [escape, String.toList_ofList, escapeChars, known, List.foldl_map]
    refine List.foldl_ext _ _ _ fun text entry listed => ?_
    exact EscapeRule.apply_marked (plain entry listed) entry.1.toList text
  · have undone : ∀ rule ∈ escaping.rules kind, ∀ text, rule.undo (rule.apply text) = text := by
      rw [known]
      intro rule listed text
      obtain ⟨entry, own, rfl⟩ := List.mem_map.mp listed
      exact EscapeRule.undo_apply_marked (plain entry own) entry.1.toList text
    rw [unescape, escape, String.toList_ofList, unescapeChars_escapeChars undone,
      String.ofList_toList]

/-- The theorem at two rules. The mark of the first one is none of its symbols, and the second one
marks that mark with one of its own symbols. The text has a mark in front of a symbol. -/
theorem unescape_escape_symbols_remarked :
    let entries : List (String × Char) := [("\"", '\\'), ("\\%", '%')]
    let escaping : Escaping := ⟨fun _ => [.marked ['"'] ['\\'], .marked ['\\', '%'] ['%']]⟩
    (∀ entry ∈ entries, entry.1 ≠ "") ∧ (∀ entry ∈ entries, entry.2 ≠ '$') ∧
    escaping.escape .value "\\\"%" = "%\\%\\\"%%" ∧
    escaping.unescape .value (escaping.escape .value "\\\"%") = "\\\"%" := by
  intro entries escaping
  have visible : ∀ entry ∈ entries, entry.1 ≠ "" := by decide
  have plain : ∀ entry ∈ entries, entry.2 ≠ '$' := by decide
  obtain ⟨rules, made, undone⟩ := unescape_escape_symbols entries visible plain
  have known : escaping.rules .value = rules := Except.ok.inj made
  exact ⟨visible, plain, by decide, (undone escaping .value known "\\\"%").2⟩

end Escaping

/-- Joining the pieces of a text that is cut at its stars puts the joint where the stars were. -/
theorem toList_join_splitFrom (escaping : Escaping) (kind : LiteralKind) (joint : String)
    (current text : List Char) :
    (join joint ((splitFrom (· == '*') current text).map
        (escaping.escape kind ∘ String.ofList))).toList =
      escaping.escapeChars kind current.reverse ++
        text.flatMap fun c => if c = '*' then joint.toList else escaping.escapeChars kind [c] := by
  induction text generalizing current with
  | nil => simp [splitFrom, join, Escaping.escape]
  | cons c rest ih =>
    by_cases star : c = '*'
    · obtain ⟨next, others, cut⟩ :=
        List.exists_cons_of_ne_nil (splitFrom_ne_nil (· == '*') [] rest)
      have tail := ih []
      simp only [cut, List.map_cons, Function.comp_apply, List.reverse_nil,
        Escaping.escapeChars_nil, List.nil_append] at tail
      simp only [splitFrom, star, beq_self_eq_true, ↓reduceIte, cut, List.map_cons,
        Function.comp_apply, join, String.toList_append, tail, List.flatMap_cons]
      simp [Escaping.escape]
    · have tail := ih (c :: current)
      have same : (c == '*') = false := beq_eq_false_iff_ne.mpr star
      simp only [splitFrom, same, Bool.false_eq_true, ↓reduceIte, tail, List.flatMap_cons, star,
        List.reverse_cons, Escaping.escapeChars_append, List.append_assoc]

/-- A text whose stars are written otherwise, character by character. -/
theorem Escaping.toList_overStars (escaping : Escaping) (kind : LiteralKind)
    (joint text : String) :
    (escaping.overStars kind joint text).toList = text.toList.flatMap fun c =>
      if c = '*' then joint.toList else escaping.escapeChars kind [c] := by
  have joined := toList_join_splitFrom escaping kind joint [] text.toList
  rw [List.reverse_nil, escapeChars_nil, List.nil_append] at joined
  rw [overStars, splitAt, List.map_map, joined]

/-- A text with stars is written as nothing only if it is empty, where the parts are
escaped with a backslash and the stars stay visible. -/
theorem Escaping.overStars_ne_empty {escaping : Escaping} {kind : LiteralKind} {symbols : String}
    (rules : escaping.rules kind = [Escaping.backslash symbols]) {joint text : String}
    (visible : joint ≠ "") (some : text ≠ "") : escaping.overStars kind joint text ≠ "" := by
  intro empty
  simp only [overStars, splitAt, List.map_map] at empty
  cases pieces : splitFrom (· == '*') [] text.toList with
  | nil => exact splitFrom_ne_nil _ _ _ pieces
  | cons piece others =>
    rw [pieces] at empty
    cases others with
    | nil =>
      obtain rfl : piece = text.toList := splitFrom_eq_singleton pieces
      have escaped : (Escaping.backslash symbols).apply text.toList = [] := by
        simpa [join, escape, escapeChars, rules] using empty
      rw [EscapeRule.apply_backslash_eq_nil] at escaped
      exact some (by simpa using escaped)
    | cons =>
      simp only [List.map_cons, join, String.append_eq_empty_iff] at empty
      exact visible empty.1.2

end Detection
