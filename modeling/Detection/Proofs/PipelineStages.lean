import Detection.Pipeline
import Detection.Proofs.Outcomes

/-!
# The stages of a search

A bar ends a stage unless it stands in quotes or in parentheses. Which texts hold no such bar, and
leave no quote and no parenthesis open, is said here by a grammar: such a text is made of plain
characters, of quoted texts, and of groups in parentheses, inside of which bars are plain. The
splitter knows no grammar. It goes over the text once and remembers the open quote and the number of
open parentheses. That both mean the same is proved first. A bar behind a closed text is then the
first one that ends a stage, and what follows is split as if nothing stood in front of it.
-/
namespace Detection

open Text

variable {text : List Char} {depth : Nat} {reading : Reading} {c : Char}

namespace Pipeline

/-! ## Closed texts -/

/-- What follows an opening quote, up to the quote that ends the text. Behind a backslash any
character belongs to the text. -/
inductive ClosesQuote (quote : Char) : List Char → Prop
  | ended : ClosesQuote quote [quote]
  | plain (c : Char) {rest : List Char} (other : c ≠ quote) (noEscape : c ≠ '\\')
      (behind : ClosesQuote quote rest) : ClosesQuote quote (c :: rest)
  | escaped (c : Char) {rest : List Char} (behind : ClosesQuote quote rest) :
      ClosesQuote quote ('\\' :: c :: rest)

/-- A text that leaves no quote and no parenthesis open, and has no plain character at which it
would end: that is the bar between the stages of a search, and the closing parenthesis in a group.
Outside of groups a closing parenthesis closes nothing and is plain. -/
inductive Closed : Char → List Char → Prop
  | nil (stop : Char) : Closed stop []
  | plain {stop : Char} (c : Char) {rest : List Char} (other : c ∉ ['"', '\'', '(', stop])
      (behind : Closed stop rest) : Closed stop (c :: rest)
  | quoted {stop quote : Char} {body rest : List Char} (isQuote : quote = '"' ∨ quote = '\'')
      (closes : ClosesQuote quote body) (behind : Closed stop rest) :
      Closed stop (quote :: (body ++ rest))
  | group {stop : Char} {inner rest : List Char} (inside : Closed ')' inner)
      (behind : Closed stop rest) : Closed stop ('(' :: (inner ++ ')' :: rest))

/-- The character at which a text ends that stands in a number of groups. -/
def stopAt : Nat → Char
  | 0 => '|'
  | _ + 1 => ')'

/-! ## What the splitter remembers -/

/-- What the splitter remembers behind a text. -/
def Reading.after (reading : Reading) (text : List Char) : Reading :=
  text.foldl Reading.next reading

/-- No bar in a text stands outside of quotes and parentheses. -/
def Unbroken (reading : Reading) (text : List Char) : Prop :=
  ∀ before rest, text = before ++ '|' :: rest → (reading.after before).atTop = false

/-- The splitter goes over a text without ending a stage. -/
structure Passes (reading : Reading) (text : List Char) (next : Reading) : Prop where
  unbroken : Unbroken reading text
  reaches : reading.after text = next

theorem Unbroken.cons_iff (reading : Reading) (c : Char) (rest : List Char) :
    Unbroken reading (c :: rest) ↔
      (c = '|' → reading.atTop = false) ∧ Unbroken (reading.next c) rest := by
  constructor
  · intro unbroken
    refine ⟨fun bar => unbroken [] rest (by rw [bar]; rfl), fun before behind written => ?_⟩
    exact unbroken (c :: before) behind (congrArg _ written)
  · rintro ⟨first, behind⟩ before rest written
    cases before with
    | nil => exact first (List.cons.inj written).1
    | cons lead others =>
      obtain ⟨rfl, tail⟩ := List.cons.inj written
      exact behind others rest tail

namespace Passes

variable {middle next : Reading} {first second : List Char}

theorem nil (reading : Reading) : Passes reading [] reading :=
  ⟨fun before rest written => by simp at written, rfl⟩

/-- A character in front of a text. -/
theorem cons (inside : c = '|' → reading.atTop = false)
    (behind : Passes (reading.next c) first next) : Passes reading (c :: first) next :=
  ⟨(Unbroken.cons_iff reading c first).mpr ⟨inside, behind.unbroken⟩, behind.reaches⟩

/-- Two texts are passed over one behind the other. -/
theorem append (front : Passes reading first middle) (behind : Passes middle second next) :
    Passes reading (first ++ second) next := by
  induction first generalizing reading with
  | nil =>
    obtain rfl : reading = middle := front.reaches
    exact behind
  | cons c rest ih =>
    obtain ⟨inside, unbroken⟩ := (Unbroken.cons_iff reading c rest).mp front.unbroken
    exact cons inside (ih ⟨unbroken, front.reaches⟩)

end Passes

/-- A text that is passed over belongs to the stage that is being read. -/
theorem stagesFrom_append {next : Reading} (passes : Passes reading text next)
    (current rest : List Char) :
    stagesFrom reading current (text ++ rest) = stagesFrom next (text.reverse ++ current) rest := by
  induction text generalizing reading current with
  | nil =>
    obtain rfl : reading = next := passes.reaches
    rfl
  | cons c others ih =>
    obtain ⟨inside, unbroken⟩ := (Unbroken.cons_iff reading c others).mp passes.unbroken
    have noStage : (c == '|' && reading.atTop) = false := by
      by_cases bar : c = '|'
      · rw [inside bar, Bool.and_false]
      · rw [beq_eq_false_iff_ne.mpr bar, Bool.false_and]
    rw [List.cons_append, stagesFrom, noStage, if_neg (by simp),
      ih ⟨unbroken, passes.reaches⟩]
    simp

/-! ## The splitter passes over closed texts -/

/-- The splitter leaves a quoted text with its last quote. -/
theorem ClosesQuote.passes {quote : Char} {body : List Char} (closes : ClosesQuote quote body)
    (isQuote : quote = '"' ∨ quote = '\'') (depth : Nat) :
    Passes { quote := some quote, depth } body { depth } := by
  have quoted (escaped : Bool) (c : Char) :
      c = '|' → Reading.atTop { quote := some quote, escaped, depth } = false := fun _ => rfl
  induction closes with
  | ended =>
    have noEscape : quote ≠ '\\' := by rintro rfl; simp at isQuote
    refine .cons (quoted false quote) ?_
    have ends : Reading.next { quote := some quote, depth } quote = { depth } := by
      simp [Reading.next, noEscape]
    rw [ends]
    exact .nil _
  | plain c other noEscape behind ih =>
    refine .cons (quoted false c) ?_
    have stays : Reading.next { quote := some quote, depth } c =
        { quote := some quote, depth } := by
      simp [Reading.next, noEscape, other]
    rw [stays]
    exact ih
  | escaped c behind ih =>
    exact .cons (quoted false '\\') (.cons (quoted true c) ih)

theorem Closed.passes (closed : Closed (stopAt depth) text) : Passes { depth } text { depth } := by
  generalize stopping : stopAt depth = stop at closed
  induction closed generalizing depth with
  | nil => exact .nil _
  | plain c other behind ih =>
    simp only [List.mem_cons, List.not_mem_nil, or_false, not_or] at other
    obtain ⟨double, single, opening, apart⟩ := other
    have stays : Reading.next { depth } c = { depth } := by
      cases depth with
      | zero => simp [Reading.next, double, single, opening]
      | succ =>
        obtain rfl : ')' = _ := stopping
        simp [Reading.next, double, single, opening, apart]
    refine .cons (fun bar => ?_) ?_
    · cases depth with
      | zero => exact absurd (bar.trans stopping) apart
      | succ => rfl
    · rw [stays]
      exact ih stopping
  | @quoted stop quote body rest isQuote closes behind ih =>
    have opens : Reading.next { depth } quote = { quote := some quote, depth } := by
      simp [Reading.next, isQuote]
    refine .cons (fun bar => ?_) ?_
    · subst bar
      simp at isQuote
    · rw [opens]
      exact (closes.passes isQuote depth).append (ih stopping)
  | group inside behind ihInner ihRest =>
    have closes : Passes { depth := depth + 1 } [')'] { depth } :=
      .cons (fun bar => by simp at bar) (.nil _)
    have inner : Passes { depth := depth + 1 } _ { depth := depth + 1 } := ihInner rfl
    refine .cons (fun bar => by simp at bar) ?_
    exact inner.append (closes.append (ihRest stopping))

/-! ## What the splitter passes over is closed -/

/-- A text that closes a number of groups that are open in front of it: closed texts, one up to each
of the parentheses, and one behind them all. -/
inductive Completes : Nat → List Char → Prop
  | top {text : List Char} (closed : Closed '|' text) : Completes 0 text
  | inner {depth : Nat} {part rest : List Char} (inside : Closed ')' part)
      (behind : Completes depth rest) : Completes (depth + 1) (part ++ ')' :: rest)

/-- What can stand in front of the first of these texts can stand in front of them all. -/
theorem Completes.lead {front : List Char} (completes : Completes depth text)
    (fits : ∀ {rest}, Closed (stopAt depth) rest → Closed (stopAt depth) (front ++ rest)) :
    Completes depth (front ++ text) := by
  cases completes with
  | top closed => exact .top (fits closed)
  | inner inside behind =>
    rw [← List.append_assoc]
    exact .inner (fits inside) behind

theorem Completes.opening (completes : Completes (depth + 1) text) :
    Completes depth ('(' :: text) := by
  cases completes with
  | @inner _ part rest inside behind =>
    have group : Completes depth (('(' :: (part ++ [')'])) ++ rest) :=
      behind.lead fun closed => by simpa using Closed.group inside closed
    simpa using group

/-- A text that takes the splitter to a place outside of quotes and parentheses, from what it
remembers. -/
inductive Finishes : Reading → List Char → Prop
  | outside {depth : Nat} {text : List Char} (completes : Completes depth text) :
      Finishes { depth } text
  | inside {quote : Char} {depth : Nat} {body rest : List Char} (closes : ClosesQuote quote body)
      (completes : Completes depth rest) : Finishes { quote := some quote, depth } (body ++ rest)
  | escaped {quote : Char} {depth : Nat} (c : Char) {body rest : List Char}
      (closes : ClosesQuote quote body) (completes : Completes depth rest) :
      Finishes { quote := some quote, escaped := true, depth } (c :: (body ++ rest))

/-- Inside a quoted text one more character goes in front of what follows. -/
theorem Finishes.cons_quoted {quote : Char} {escaped : Bool} {rest : List Char}
    (finishes : Finishes (Reading.next { quote := some quote, escaped, depth } c) rest) :
    Finishes { quote := some quote, escaped, depth } (c :: rest) := by
  cases escaped with
  | true =>
    have ends : Reading.next { quote := some quote, escaped := true, depth } c =
        { quote := some quote, depth } := rfl
    rw [ends] at finishes
    cases finishes with
    | inside closes completes => exact .escaped c closes completes
  | false =>
    by_cases backslash : c = '\\'
    · subst backslash
      have escapes : Reading.next { quote := some quote, depth } '\\' =
          { quote := some quote, escaped := true, depth } := rfl
      rw [escapes] at finishes
      cases finishes with
      | escaped c closes completes => exact .inside (closes.escaped c) completes
    · by_cases ends : c = quote
      · subst ends
        have leaves : Reading.next { quote := some c, depth } c = { depth } := by
          simp [Reading.next, backslash]
        rw [leaves] at finishes
        cases finishes with
        | outside completes => exact .inside .ended completes
      · have stays : Reading.next { quote := some quote, depth } c =
            { quote := some quote, depth } := by
          simp [Reading.next, backslash, ends]
        rw [stays] at finishes
        cases finishes with
        | inside closes completes => exact .inside (closes.plain c ends backslash) completes

/-- Outside of quoted texts, too. A parenthesis opens a group or closes one, a quote starts a quoted
text, and every other character is plain. -/
theorem Finishes.cons_outside {rest : List Char} (inside : c = '|' → depth ≠ 0)
    (finishes : Finishes (Reading.next { depth } c) rest) : Finishes { depth } (c :: rest) := by
  by_cases isQuote : c = '"' ∨ c = '\''
  · have opens : Reading.next { depth } c = { quote := some c, depth } := by
      simp [Reading.next, isQuote]
    rw [opens] at finishes
    cases finishes with
    | @inside _ _ body behind closes completes =>
      have quoted : Completes depth ((c :: body) ++ behind) :=
        completes.lead fun closed => .quoted isQuote closes closed
      exact .outside quoted
  by_cases opening : c = '('
  · subst opening
    have opens : Reading.next { depth } '(' = { depth := depth + 1 } := rfl
    rw [opens] at finishes
    cases finishes with
    | outside completes => exact .outside completes.opening
  by_cases closes : c = ')' ∧ depth ≠ 0
  · obtain ⟨rfl, some⟩ := closes
    obtain ⟨outer, rfl⟩ := Nat.exists_eq_succ_of_ne_zero some
    have leaves : Reading.next { depth := outer + 1 } ')' = { depth := outer } := rfl
    rw [leaves] at finishes
    cases finishes with
    | outside completes => exact .outside (.inner (.nil ')') completes)
  · have stays : Reading.next { depth } c = { depth } := by
      by_cases closing : c = ')'
      · obtain rfl : depth = 0 := by simpa [closing] using closes
        simp [Reading.next, closing]
      · simp [Reading.next, isQuote, opening, closing]
    rw [stays] at finishes
    cases finishes with
    | outside completes =>
      have plain : c ∉ ['"', '\'', '(', stopAt depth] := by
        cases depth with
        | zero | succ => grind [stopAt]
      have longer : Completes depth ([c] ++ rest) :=
        completes.lead fun closed => .plain c plain closed
      exact .outside longer

/-- A backslash is remembered inside of quotes only. -/
def Reading.Valid (reading : Reading) : Prop :=
  reading.quote = none → reading.escaped = false

theorem Reading.Valid.next (valid : reading.Valid) (c : Char) : (reading.next c).Valid := by
  obtain ⟨quote, escaped, depth⟩ := reading
  cases quote with
  | none =>
    obtain rfl : escaped = false := valid rfl
    intro _
    simp only [Reading.next]
    split_ifs <;> rfl
  | some quote =>
    cases escaped with
    | true => exact fun _ => rfl
    | false =>
      simp only [Valid, Reading.next]
      split_ifs <;> simp_all

/-- The splitter is behind the last quote and the last parenthesis only where a text has closed
them. The induction goes over the text from the right. -/
theorem finishes (valid : reading.Valid) (unbroken : Unbroken reading text)
    (ends : (reading.after text).atTop = true) : Finishes reading text := by
  induction text generalizing reading with
  | nil =>
    obtain ⟨quote, escaped, depth⟩ := reading
    obtain ⟨rfl, rfl⟩ : quote = none ∧ depth = 0 := by
      simpa [Reading.after, Reading.atTop] using ends
    obtain rfl : escaped = false := valid rfl
    exact .outside (.top (.nil '|'))
  | cons c rest ih =>
    obtain ⟨inside, behind⟩ := (Unbroken.cons_iff reading c rest).mp unbroken
    have later := ih (valid.next c) behind ends
    obtain ⟨quote, escaped, depth⟩ := reading
    cases quote with
    | none =>
      obtain rfl : escaped = false := valid rfl
      exact .cons_outside (by simpa [Reading.atTop] using inside) later
    | some => exact .cons_quoted later

/-- The closed texts are those over which the splitter passes and behind which it remembers neither
a quote nor a parenthesis. -/
theorem closed_iff (text : List Char) :
    Closed '|' text ↔ Unbroken {} text ∧ (Reading.after {} text).atTop = true := by
  constructor
  · intro closed
    have passes : Passes { depth := 0 } text { depth := 0 } := Closed.passes closed
    refine ⟨passes.unbroken, ?_⟩
    rw [passes.reaches]
    rfl
  · rintro ⟨unbroken, ends⟩
    cases finishes (fun _ => rfl) unbroken ends with
    | outside completes =>
      cases completes with
      | top closed => exact closed

/-! ## The stages -/

theorem stagesFrom_ne_nil (reading : Reading) (current text : List Char) :
    stagesFrom reading current text ≠ [] := by
  induction text generalizing reading current with
  | nil => simp [stagesFrom]
  | cons c text ih =>
    rw [stagesFrom]
    split
    · simp
    · exact ih _ _

/-- The first stage is the filter. -/
theorem split_eq {text : String} {filter : List Char} {stages : List (List Char)}
    (found : stagesFrom {} [] text.toList = filter :: stages) :
    split text = (String.ofList filter, stages.map String.ofList) := by
  rw [split, found]
  rfl

theorem split_passes {text : String} {next : Reading} (passes : Passes {} text.toList next) :
    split text = (trim text, []) := by
  have whole := stagesFrom_append passes [] []
  rw [List.append_nil, List.append_nil, stagesFrom, List.reverse_reverse] at whole
  exact split_eq whole

/-- A text without bars is all filter, whatever its quotes and parentheses. -/
theorem split_of_unbarred {text : String} (unbarred : '|' ∉ text.toList) :
    split text = (trim text, []) := by
  refine split_passes ⟨fun before rest written => absurd ?_ unbarred, rfl⟩
  rw [written]
  exact List.mem_append_right before List.mem_cons_self

/-- A bar behind a closed text ends the filter, and what follows is split on its own. -/
theorem split_append_bar {first : String} (closed : Closed '|' first.toList) (second : String) :
    split (first ++ "|" ++ second) = (trim first, (split second).1 :: (split second).2) := by
  have passes : Passes { depth := 0 } first.toList { depth := 0 } := Closed.passes closed
  obtain ⟨filter, stages, found⟩ :=
    List.exists_cons_of_ne_nil (stagesFrom_ne_nil {} [] second.toList)
  have all : stagesFrom {} [] (first ++ "|" ++ second).toList =
      trimChars first.toList :: filter :: stages := by
    rw [String.toList_append, String.toList_append, List.append_assoc, stagesFrom_append passes,
      ← found]
    simp [stagesFrom, Reading.atTop]
  rw [split_eq all, split_eq found]
  rfl

/-- The characters that the splitter only carries along. -/
def isCarried (c : Char) : Bool :=
  !(['"', '\'', '(', ')', '|'].contains c)

theorem closed_of_carried (carried : ∀ c ∈ text, isCarried c = true) : Closed '|' text := by
  induction text with
  | nil => exact .nil '|'
  | cons c rest ih =>
    obtain ⟨own, others⟩ := List.forall_mem_cons.mp carried
    have plain : c ∉ ['"', '\'', '(', '|'] := by
      simp only [isCarried, Bool.not_eq_true', List.contains_eq_mem, decide_eq_false_iff_not] at own
      exact fun listed => own (by grind)
    exact .plain c plain (ih others)

/-- A bar behind such characters ends the filter. -/
theorem split_at_bar {text : String} {before after : List Char}
    (written : text.toList = before ++ '|' :: after)
    (carried : ∀ c ∈ before, isCarried c = true) : (split text).2 ≠ [] := by
  have parts : text = String.ofList before ++ "|" ++ String.ofList after := by
    rw [← String.toList_inj, written]
    simp
  have closed : Closed '|' (String.ofList before).toList := by
    rw [String.toList_ofList]
    exact closed_of_carried carried
  rw [parts, split_append_bar closed]
  exact List.cons_ne_nil _ _

/-- Every stage of a search is trimmed. -/
theorem exists_of_mem_stagesFrom {current stage : List Char}
    (listed : stage ∈ stagesFrom reading current text) : ∃ part, stage = trimChars part := by
  induction text generalizing reading current with
  | nil => exact ⟨_, List.mem_singleton.mp listed⟩
  | cons c rest ih =>
    rw [stagesFrom] at listed
    split at listed
    · rcases List.mem_cons.mp listed with rfl | behind
      · exact ⟨_, rfl⟩
      · exact ih behind
    · exact ih listed

/-- A stage with a word can be read. -/
theorem exists_addStage (pipeline : Pipeline) {stage : String} (some : words stage ≠ []) :
    ∃ longer, pipeline.addStage stage = .ok longer := by
  unfold addStage
  split
  · contradiction
  · split <;> exact ⟨_, rfl⟩

theorem exists_ofStages (text : String) : ∃ pipeline, ofStages (split text).2 = .ok pipeline := by
  refine exists_foldlM (fun pipeline stage listed => exists_addStage pipeline ?_) {}
  obtain ⟨behind, filled⟩ := List.mem_filter.mp listed
  obtain ⟨filter, stages, found⟩ :=
    List.exists_cons_of_ne_nil (stagesFrom_ne_nil {} [] text.toList)
  rw [split_eq found] at behind
  obtain ⟨chars, own, rfl⟩ := List.mem_map.mp behind
  obtain ⟨part, rfl⟩ := exists_of_mem_stagesFrom (found ▸ List.mem_cons_of_mem filter own)
  have some : trimChars part ≠ [] := by
    intro empty
    simp [empty] at filled
  have runs : runsFrom isBlank [] (trimChars part) ≠ [] :=
    runsFrom_ne_nil (.inr (exists_of_trimChars some))
  simpa [words] using runs

/-- A search can be split at its first bar. The texts that may stand in front of it are those in
which no bar stands outside of quotes and parentheses and which close all of these. Behind such a
text and a bar, the stages are those of what follows, its filter included; and the stages of every
search can be read. -/
theorem split_compositional :
    (∀ text, Closed '|' text ↔ Unbroken {} text ∧ (Reading.after {} text).atTop = true) ∧
    (∀ first second : String, Closed '|' first.toList →
      split (first ++ "|" ++ second) = (trim first, (split second).1 :: (split second).2)) ∧
    (∀ text : String, ∃ pipeline, ofStages (split text).2 = .ok pipeline) :=
  ⟨closed_iff, fun _ second closed => split_append_bar closed second, exists_ofStages⟩

/-- The theorem at a filter with a bar in parentheses, a bar and an escaped quote in quotes, and a
parenthesis that closes nothing. -/
theorem split_compositional_guarded :
    let first := "(a|b) \"c|\\\"\" )"
    let second := " stats count | head 5 "
    Closed '|' first.toList ∧
      split (first ++ "|" ++ second) = (first, ["stats count", "head 5"]) ∧
      ∃ pipeline, ofStages (split second).2 = .ok pipeline := by
  intro first second
  have inner : Closed ')' ['a', '|', 'b'] :=
    .plain 'a' (by decide) (.plain '|' (by decide) (.plain 'b' (by decide) (.nil ')')))
  have body : ClosesQuote '"' ['c', '|', '\\', '"', '"'] :=
    .plain 'c' (by decide) (by decide) (.plain '|' (by decide) (by decide) (.escaped '"' .ended))
  have written : first.toList = '(' :: (['a', '|', 'b'] ++ ')' :: ' ' :: '"' ::
      (['c', '|', '\\', '"', '"'] ++ [' ', ')'])) := by decide
  have closed : Closed '|' first.toList := by
    rw [written]
    exact .group inner (.plain ' ' (by decide) (.quoted (.inl rfl) body
      (.plain ' ' (by decide) (.plain ')' (by decide) (.nil '|')))))
  obtain ⟨_, atBar, reads⟩ := split_compositional
  exact ⟨closed, (atBar first second closed).trans (by decide +kernel), reads second⟩

end Pipeline

end Detection
