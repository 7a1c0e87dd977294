import Detection.Language.Spl
import Detection.Proofs.PipelineStages

/-!
# Pipelines of searches read back

A pipeline that is printed into a search has three kinds of separators: a bar in front of each
function, blanks between its arguments, and a comma and a blank between the fields it groups by.
Read again, the search is cut at its bars, each stage at its blanks, and each word at its commas,
while the word `by` parts the arguments from the fields.

What is printed for a function is a row of words with a blank between each two. The commas are at
the ends of words, behind which an empty piece is dropped when the word is cut. So the words of a
stage are known before anything is read, and each cut is a fact about words alone.
-/
namespace Detection

open Text Pipeline

variable {function : PipeFunction} {item : String} {items : List String}
  {functions : List PipeFunction}

/-! ## Words with blanks between them -/

namespace Text

/-- A text that is one word. -/
structure IsSolid (text : String) : Prop where
  some : text ≠ ""
  visible : ∀ c ∈ text.toList, isBlank c = false

theorem words_join {parts : List String} (solid : ∀ part ∈ parts, IsSolid part) :
    words (join " " parts) = parts := by
  induction parts with
  | nil => rfl
  | cons part others ih =>
    obtain ⟨own, behind⟩ := List.forall_mem_cons.mp solid
    have whole : runsFrom isBlank [] part.toList = [part.toList] :=
      runsFrom_whole [] part.toList own.visible (.inr (by simpa using own.some))
    cases others with
    | nil => simp [join, words, whole]
    | cons next remaining =>
      have rest := ih behind
      have text : (part ++ " " ++ join " " (next :: remaining)).toList =
          part.toList ++ ' ' :: (join " " (next :: remaining)).toList := by simp
      rw [words] at rest ⊢
      rw [join, text, runsFrom_append (by decide), whole, List.map_append, rest]
      simp

/-- Words with blanks between them have no blanks around them. -/
theorem trim_join {parts : List String} (solid : ∀ part ∈ parts, IsSolid part) :
    trimChars (join " " parts).toList = (join " " parts).toList := by
  cases parts with
  | nil => rfl
  | cons first others =>
    obtain ⟨before, last, written⟩ : ∃ before last, first :: others = before ++ [last] :=
      ⟨_, _, (List.dropLast_concat_getLast (List.cons_ne_nil first others)).symm⟩
    have begins : IsSolid first := solid first List.mem_cons_self
    have ends : IsSolid last := solid last (by simp [written])
    have behind : last.toList <:+ (join " " (first :: others)).toList := by
      rw [written]
      exact suffix_join " " last before
    exact trimBy_of_ends (prefix_join " " first others) behind (by simpa using begins.some)
      (by simpa using ends.some) begins.visible ends.visible

end Text

namespace Spl

/-- What can be an argument of a function or a field that it groups by: a word without a comma and
without what the splitter of pipelines looks at. -/
structure IsItem (item : String) : Prop extends IsSolid item where
  plain : ∀ c ∈ item.toList, c ∉ [',', '|', '"', '\'', '(', ')']

theorem IsItem.comma (isItem : IsItem item) : ',' ∉ item.toList :=
  fun inside => isItem.plain ',' inside List.mem_cons_self

/-- A function that is understood, with arguments and fields that can be told apart: no argument is
the word in front of the fields. -/
structure Printable (function : PipeFunction) : Prop where
  known : function.name ∈ ["stats", "table", "fields", "head", "sort", "dedup"]
  args : ∀ item ∈ function.args, IsItem item ∧ item ∉ ["by", "bY", "By", "BY"]
  groupBy : ∀ item ∈ function.groupBy, IsItem item

/-- Items with a comma behind each but the last. -/
def listed : List String → List String
  | [] => []
  | [item] => [item]
  | item :: next :: others => (item ++ ",") :: listed (next :: others)

/-- The words that are printed for the fields that a function groups by. -/
def fieldWords : List String → List String
  | [] => []
  | first :: others => "by" :: listed (first :: others)

/-- The words that are printed for a function, without the bar in front of them. -/
def stageWords (function : PipeFunction) : List String :=
  function.name :: function.args ++ fieldWords function.groupBy

/-- The text that is printed for a function, without the bar in front of it. -/
def stageText (function : PipeFunction) : String :=
  join " " (stageWords function)

theorem join_listed (items : List String) : join " " (listed items) = join ", " items := by
  induction items with
  | nil => rfl
  | cons item others ih =>
    cases others with
    | nil => rfl
    | cons next remaining =>
      have some : listed (next :: remaining) ≠ [] := by cases remaining <;> simp [listed]
      obtain ⟨first, behind, written⟩ := List.exists_cons_of_ne_nil some
      rw [listed, written, join, ← written, ih, join]
      rw [← String.toList_inj]
      simp

theorem functionText_eq (function : PipeFunction) :
    functionText function = "| " ++ stageText function := by
  have fields : (if (fieldWords function.groupBy).isEmpty then ""
      else " " ++ join " " (fieldWords function.groupBy)) =
      if function.groupBy.isEmpty then "" else " by " ++ join ", " function.groupBy := by
    cases function.groupBy with
    | nil => rfl
    | cons first others =>
      have some : listed (first :: others) ≠ [] := by cases others <;> simp [listed]
      obtain ⟨word, behind, written⟩ := List.exists_cons_of_ne_nil some
      rw [fieldWords, written, join, ← written, join_listed, ← String.toList_inj]
      simp
  rw [functionText, stageText, stageWords, join_cons_append, fields]
  simp [String.append_assoc]

/-- A word that the splitter of pipelines carries along. -/
structure IsCarried (word : String) : Prop extends IsSolid word where
  carried : ∀ c ∈ word.toList, Pipeline.isCarried c = true

theorem IsItem.isCarried (isItem : IsItem item) : IsCarried item := by
  refine ⟨isItem.toIsSolid, fun c inside => ?_⟩
  have plain := isItem.plain c inside
  simp only [List.mem_cons, List.not_mem_nil, or_false, not_or] at plain
  simp [Pipeline.isCarried, plain]

theorem IsCarried.comma {word : String} (own : IsCarried word) : IsCarried (word ++ ",") := by
  refine ⟨⟨by simp [own.some], fun c inside => ?_⟩, fun c inside => ?_⟩
  · rw [String.toList_append, List.mem_append] at inside
    rcases inside with first | comma
    · exact own.visible c first
    · obtain rfl : c = ',' := by simpa using comma
      decide
  · rw [String.toList_append, List.mem_append] at inside
    rcases inside with first | comma
    · exact own.carried c first
    · obtain rfl : c = ',' := by simpa using comma
      decide

theorem isCarried_listed (each : ∀ item ∈ items, IsItem item) :
    ∀ word ∈ listed items, IsCarried word := by
  induction items with
  | nil => simp [listed]
  | cons item others ih =>
    obtain ⟨own, behind⟩ := List.forall_mem_cons.mp each
    cases others with
    | nil => simpa [listed] using own.isCarried
    | cons =>
      exact List.forall_mem_cons.mpr ⟨own.isCarried.comma, ih behind⟩

theorem isCarried_stageWords (printable : Printable function) :
    ∀ word ∈ stageWords function, IsCarried word := by
  have fixed : ∀ word ∈ "by" :: knownFunctions, IsCarried word := by
    have checked : ("by" :: knownFunctions).all (fun word => word != "" &&
        word.toList.all fun c => !isBlank c && isCarried c) = true := by decide
    intro word known
    have own := List.all_eq_true.mp checked word known
    simp only [Bool.and_eq_true, bne_iff_ne, List.all_eq_true, Bool.not_eq_true'] at own
    exact ⟨⟨own.1, fun c inside => (own.2 c inside).1⟩, fun c inside => (own.2 c inside).2⟩
  have fields : ∀ word ∈ fieldWords function.groupBy, IsCarried word := by
    have each := isCarried_listed printable.groupBy
    cases groupBy : function.groupBy with
    | nil => simp [fieldWords]
    | cons =>
      rw [groupBy] at each
      exact List.forall_mem_cons.mpr ⟨fixed "by" List.mem_cons_self, each⟩
  intro word own
  rcases List.mem_cons.mp own with rfl | behind
  · exact fixed _ (List.mem_cons_of_mem _ printable.known)
  · rcases List.mem_append.mp behind with argument | field
    · exact (printable.args word argument).1.isCarried
    · exact fields word field

/-! ## Cutting the text at its bars -/

/-- What is printed for a function has no blanks around it. -/
theorem trim_stageText (printable : Printable function) (back : String)
    (blank : ∀ c ∈ back.toList, isBlank c = true) :
    trim (" " ++ stageText function ++ back) = stageText function := by
  have solid := fun word own => (isCarried_stageWords printable word own).toIsSolid
  have front : ∀ c ∈ [' '], isBlank c = true := by simp [isBlank, isSpace, isGap]
  rw [trim, String.toList_append, String.toList_append, ← String.toList_inj, String.toList_ofList]
  exact (trimBy_between _ front blank).trans (trim_join solid)

/-- What is printed for a function is closed. -/
theorem closed_stageText (printable : Printable function) (back : String)
    (blank : ∀ c ∈ back.toList, c = ' ') :
    Closed '|' (" " ++ stageText function ++ back).toList := by
  refine closed_of_carried fun c inside => ?_
  have own : c = ' ' ∨ ∃ word ∈ stageWords function, c ∈ word.toList := by
    rw [String.toList_append, String.toList_append, List.mem_append, List.mem_append] at inside
    rcases inside with (front | middle) | behind
    · exact .inl (by simpa using front)
    · exact (mem_join middle).imp_left fun front => by simpa using front
    · exact .inl (blank c behind)
  rcases own with rfl | ⟨word, printed, inside⟩
  · decide
  · exact (isCarried_stageWords printable word printed).carried c inside

/-- The printed functions are the stages behind a closed text. -/
theorem split_functionsText (printable : ∀ function ∈ functions, Printable function)
    {lead : String} (closed : Closed '|' lead.toList) :
    split (lead ++ functionsText functions) = (trim lead, functions.map stageText) := by
  induction functions generalizing lead with
  | nil =>
    have passes : Pipeline.Passes { depth := 0 } lead.toList { depth := 0 } :=
      Closed.passes closed
    have nothing : lead ++ functionsText [] = lead := String.append_empty
    rw [nothing]
    exact split_passes passes
  | cons function others ih =>
    obtain ⟨own, behind⟩ := List.forall_mem_cons.mp printable
    -- the blank between two functions goes to the stage in front of it
    obtain ⟨back, blank, written⟩ : ∃ back : String, (∀ c ∈ back.toList, c = ' ') ∧
        lead ++ functionsText (function :: others) =
          lead ++ "|" ++ (" " ++ stageText function ++ back ++ functionsText others) := by
      cases others with
      | nil =>
        refine ⟨"", by simp, ?_⟩
        rw [← String.toList_inj]
        simp [functionsText, join, functionText_eq]
      | cons =>
        refine ⟨" ", by simp, ?_⟩
        rw [← String.toList_inj]
        simp [functionsText, join, functionText_eq]
    rw [written, split_append_bar closed,
      ih behind (closed_stageText own back blank),
      trim_stageText own back fun c inside => blank c inside ▸ by decide]
    rfl

/-! ## Reading the stages -/

theorem splitAt_item (isItem : IsItem item) : splitAt ',' item = [item] := by
  have cut : splitAt ',' (join (String.singleton ',') [item]) = [item] :=
    splitAt_join (List.cons_ne_nil item []) (by simpa using isItem.comma)
  exact cut

theorem splitAt_comma (isItem : IsItem item) : splitAt ',' (item ++ ",") = [item, ""] := by
  have cut : splitAt ',' (join (String.singleton ',') [item, ""]) = [item, ""] :=
    splitAt_join (List.cons_ne_nil item [""]) (by simpa using isItem.comma)
  have written : join (String.singleton ',') [item, ""] = item ++ "," := by
    rw [← String.toList_inj]
    simp [join]
  rwa [written] at cut

/-- The items of words are those of each word. -/
theorem listItems_cons (word : String) (others : List String) :
    listItems (word :: others) =
      ((splitAt ',' word).map trim).filter (· != "") ++ listItems others := by
  simp [listItems]

theorem trim_item (isItem : IsItem item) : trim item = item := by
  rw [trim, trimChars, trimBy_of_forall isItem.visible, String.ofList_toList]

theorem listItems_items (each : ∀ item ∈ items, IsItem item) :
    listItems items = items := by
  induction items with
  | nil => rfl
  | cons item others ih =>
    obtain ⟨own, behind⟩ := List.forall_mem_cons.mp each
    rw [listItems_cons, splitAt_item own, ih behind]
    simp [trim_item own, own.some]

theorem listItems_listed (each : ∀ item ∈ items, IsItem item) :
    listItems (listed items) = items := by
  induction items with
  | nil => rfl
  | cons item others ih =>
    obtain ⟨own, behind⟩ := List.forall_mem_cons.mp each
    cases others with
    | nil => exact listItems_items each
    | cons next remaining =>
      rw [listed, listItems_cons, splitAt_comma own, ih behind]
      have nothing : trim "" = "" := by decide
      simp [trim_item own, own.some, nothing]

/-- What compares equal to the word in front of the fields is that word in some letter case. -/
theorem equalFold_by {word : String} (same : equalFold word "by" = true) :
    word ∈ ["by", "bY", "By", "BY"] := by
  have keys : word.toList.map foldKey = ['b', 'y'] := beq_iff_eq.mp same
  obtain ⟨first, rest, written, firstKey, restKeys⟩ := List.map_eq_cons_iff.mp keys
  obtain ⟨second, none, rfl, secondKey, noKeys⟩ := List.map_eq_cons_iff.mp restKeys
  obtain rfl : none = [] := List.map_eq_nil_iff.mp noKeys
  obtain ⟨firstAscii, firstLower⟩ := toLower_of_foldKey (by decide) (by decide) firstKey
  obtain ⟨secondAscii, secondLower⟩ := toLower_of_foldKey (by decide) (by decide) secondKey
  have b : ∀ c : Char, c.toNat < 128 → c.toLower = 'b' → c = 'b' ∨ c = 'B' :=
    forall_ascii (by decide)
  have y : ∀ c : Char, c.toNat < 128 → c.toLower = 'y' → c = 'y' ∨ c = 'Y' :=
    forall_ascii (by decide)
  have whole : word = String.ofList [first, second] := by rw [← written, String.ofList_toList]
  subst whole
  rcases b first firstAscii firstLower with rfl | rfl <;>
    rcases y second secondAscii secondLower with rfl | rfl <;> decide

/-- The words behind the name are parted in front of the first `by`. -/
theorem takeWhile_stageWords (printable : Printable function) :
    (function.args ++ fieldWords function.groupBy).takeWhile (fun word => !equalFold word "by") =
      function.args := by
  have others : ∀ word ∈ function.args, (!equalFold word "by") = true := by
    intro word own
    rw [Bool.not_eq_true', ← Bool.not_eq_true]
    exact fun same => (printable.args word own).2 (equalFold_by same)
  rw [List.takeWhile_append_of_pos others]
  have stops : (fieldWords function.groupBy).takeWhile (fun word => !equalFold word "by") = [] := by
    cases function.groupBy with
    | nil => rfl
    | cons first others => exact List.takeWhile_cons_of_neg (by decide)
  rw [stops, List.append_nil]

/-- A stage is read as the function that it was printed for. -/
theorem addStage_stageText (pipeline : Pipeline) (printable : Printable function) :
    pipeline.addStage (stageText function) = .ok { pipeline with
      functions := pipeline.functions ++ [{ function with raw := stageText function }] } := by
  have solid := fun word own => (isCarried_stageWords printable word own).toIsSolid
  have known : knownFunctions.contains (lower function.name) = true ∧
      lower function.name = function.name := by
    have checked : knownFunctions.all (fun name =>
        knownFunctions.contains (lower name) && lower name == name) = true := by decide
    simpa using List.all_eq_true.mp checked function.name printable.known
  have fields : listItems
      ((function.args ++ fieldWords function.groupBy).drop (function.args.length + 1)) =
        function.groupBy := by
    have behind : (fieldWords function.groupBy).drop 1 = listed function.groupBy := by
      cases function.groupBy <;> rfl
    rw [List.drop_length_add_append, behind]
    exact listItems_listed printable.groupBy
  have args : listItems function.args = function.args :=
    listItems_items fun item own => (printable.args item own).1
  rw [addStage, stageText, words_join solid]
  simp only [stageWords, List.cons_append, takeWhile_stageWords printable, args, fields]
  rw [if_pos known.1, known.2]

/-- The stages of printed functions are read as these functions, one behind the other. -/
theorem foldlM_addStage (printable : ∀ function ∈ functions, Printable function)
    (pipeline : Pipeline) :
    (functions.map stageText).foldlM addStage pipeline = .ok { pipeline with
      functions := pipeline.functions ++
        functions.map fun function => { function with raw := stageText function } } := by
  induction functions generalizing pipeline with
  | nil => simp [pure, Except.pure]
  | cons function others ih =>
    obtain ⟨own, behind⟩ := List.forall_mem_cons.mp printable
    rw [List.map_cons, List.foldlM_cons, addStage_stageText pipeline own]
    refine (ih behind _).trans ?_
    simp

theorem stageText_ne_empty (printable : Printable function) : stageText function ≠ "" := by
  intro empty
  have leads := prefix_join " " function.name (function.args ++ fieldWords function.groupBy)
  have nothing :
      (join " " (function.name :: (function.args ++ fieldWords function.groupBy))).toList = [] :=
    String.toList_eq_nil_iff.mpr empty
  rw [nothing, List.prefix_nil, String.toList_eq_nil_iff] at leads
  exact (isCarried_stageWords printable function.name List.mem_cons_self).some leads

/-- The stages of the text that is printed for functions are read as these functions, each with its
own text. -/
theorem ofStages_functionsText (printable : ∀ function ∈ functions, Printable function) :
    ofStages (split (functionsText functions)).2 = .ok {
      functions := functions.map fun function => { function with raw := stageText function } } := by
  have stages : split ("" ++ functionsText functions) =
      (trim "", functions.map stageText) := split_functionsText printable (.nil '|')
  rw [String.empty_append] at stages
  have filled : (functions.map stageText).filter (· != "") = functions.map stageText := by
    simpa using fun function own => stageText_ne_empty (printable function own)
  rw [stages, ofStages, filled, foldlM_addStage printable]
  rfl

/-- The functions of a pipeline that are understood are read back from the text that is printed for
them: as many, in the same order, with the same names, arguments and fields, and nothing else. -/
theorem functionsText_reads_back (functions : List PipeFunction)
    (printable : ∀ function ∈ functions, Printable function) :
    ∃ pipeline, Pipeline.ofStages (Pipeline.split (functionsText functions)).2 = .ok pipeline ∧
      pipeline.functions.map (fun function => (function.name, function.args, function.groupBy)) =
        functions.map (fun function => (function.name, function.args, function.groupBy)) ∧
      pipeline.notSupported = [] :=
  ⟨_, ofStages_functionsText printable, by simp, rfl⟩

/-- The theorem at functions with and without arguments and fields. One of the fields is the word
that stands in front of fields. -/
theorem functionsText_reads_back_mixed :
    let functions : List PipeFunction := [
      { name := "stats", args := ["count", "sum"], groupBy := ["host", "by"] },
      { name := "dedup", groupBy := ["user"] }, { name := "head", args := ["10"] },
      { name := "table" }]
    functionsText functions = "| stats count sum by host, by | dedup by user | head 10 | table" ∧
      (∀ function ∈ functions, Printable function) ∧
      ∃ pipeline, Pipeline.ofStages (Pipeline.split (functionsText functions)).2 = .ok pipeline ∧
        pipeline.functions.map (fun function => (function.name, function.args, function.groupBy)) =
          functions.map (fun function => (function.name, function.args, function.groupBy)) ∧
        pipeline.notSupported = [] := by
  intro functions
  have items : ∀ item ∈ ["count", "sum", "10", "host", "by", "user"], IsItem item := by
    have checked : ["count", "sum", "10", "host", "by", "user"].all (fun item => item != "" &&
        item.toList.all fun c =>
          !isBlank c && !([',', '|', '"', '\'', '(', ')'].contains c)) = true := by decide
    intro item own
    have solid := List.all_eq_true.mp checked item own
    simp only [Bool.and_eq_true, bne_iff_ne, List.all_eq_true, Bool.not_eq_true',
      List.contains_eq_mem, decide_eq_false_iff_not] at solid
    exact ⟨⟨solid.1, fun c inside => (solid.2 c inside).1⟩, fun c inside => (solid.2 c inside).2⟩
  have printable : ∀ function ∈ functions, Printable function := by
    intro function own
    simp only [functions, List.mem_cons, List.not_mem_nil, or_false] at own
    rcases own with rfl | rfl | rfl | rfl
    all_goals exact ⟨by decide, by simp [items], by simp [items]⟩
  exact ⟨by decide +kernel, printable, functionsText_reads_back functions printable⟩

end Spl

end Detection
