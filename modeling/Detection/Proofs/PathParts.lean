import Detection.Text.Path

/-!
# Paths by their parts

A clean path is written from its parts, and they can be read off it again. So the path of a file
below a directory tells by which names it is reached.

The parts of a clean path are those that cleaning leaves as they are. Each step of cleaning keeps
to that: a part that goes back removes a name, and the parts in front of a name were left as they
are before the name came.
-/
namespace Detection.Text

variable {rooted : Bool} {taken : List String} {path name : String}

/-- A name that a directory can have for an entry. -/
structure IsEntryName (name : String) : Prop where
  some : name ≠ ""
  stays : name ≠ "."
  back : name ≠ ".."
  whole : '/' ∉ name.toList

/-- What a part does to the parts in front of it, the last of which comes first. -/
def takePart (rooted : Bool) (taken : List String) (part : String) : List String :=
  if part == "" || part == "." then taken
  else if part == ".." then
    match taken with
    | [] => if rooted then [] else [part]
    | last :: others => if last == ".." then part :: taken else others
  else part :: taken

/-- The parts are taken one after the other. -/
theorem cleanParts_eq (rooted : Bool) (taken parts : List String) :
    cleanParts rooted taken parts = parts.foldl (takePart rooted) taken := by
  fun_induction cleanParts rooted taken parts <;> simp_all [takePart]

/-- A name is added to the parts. -/
theorem takePart_name (rooted : Bool) (taken : List String) (own : IsEntryName name) :
    takePart rooted taken name = name :: taken := by
  simp [takePart, own.some, own.stays, own.back]

/-- The parts of a clean path, the last one first: taking them once more changes nothing. -/
structure Settled (rooted : Bool) (taken : List String) : Prop where
  again : taken.reverse.foldl (takePart rooted) [] = taken
  each : ∀ part ∈ taken, part ≠ "" ∧ part ≠ "." ∧ '/' ∉ part.toList

/-- A part that is kept. -/
theorem Settled.cons (settled : Settled rooted taken) {part : String}
    (kept : takePart rooted taken part = part :: taken)
    (own : part ≠ "" ∧ part ≠ "." ∧ '/' ∉ part.toList) : Settled rooted (part :: taken) where
  again := by rw [List.reverse_cons, List.foldl_append, settled.again, ← kept]; rfl
  each := List.forall_mem_cons.mpr ⟨own, settled.each⟩

/-- A name that is taken away again. -/
theorem Settled.tail {last : String} {others : List String}
    (settled : Settled rooted (last :: others)) (name : last ≠ "..") : Settled rooted others where
  again := by
    have again := settled.again
    obtain ⟨some, stays, whole⟩ := settled.each last List.mem_cons_self
    rw [List.reverse_cons, List.foldl_append, List.foldl_cons, List.foldl_nil,
      takePart_name rooted _ ⟨some, stays, name, whole⟩] at again
    exact (List.cons.inj again).2
  each part own := settled.each part (List.mem_cons_of_mem _ own)

/-- Each step of cleaning leaves the parts of a clean path. -/
theorem Settled.takePart (settled : Settled rooted taken) {part : String}
    (whole : '/' ∉ part.toList) : Settled rooted (takePart rooted taken part) := by
  by_cases none : part = "" ∨ part = "."
  · have same : Text.takePart rooted taken part = taken := by simp [Text.takePart, none]
    rwa [same]
  · obtain ⟨some, stays⟩ := not_or.mp none
    by_cases back : part = ".."
    · subst back
      cases taken with
      | nil =>
        cases rooted with
        | true => exact settled
        | false => exact settled.cons rfl (by decide)
      | cons last others =>
        by_cases also : last = ".."
        · have kept : Text.takePart rooted (last :: others) ".." = ".." :: last :: others := by
            simp [Text.takePart, also]
          rw [kept]
          exact settled.cons kept (by decide)
        · have dropped : Text.takePart rooted (last :: others) ".." = others := by
            simp [Text.takePart, also]
          rw [dropped]
          exact settled.tail also
    · have kept := takePart_name rooted taken ⟨some, stays, back, whole⟩
      rw [kept]
      exact settled.cons kept ⟨some, stays, whole⟩

def isRooted (path : String) : Bool :=
  path.toList.head? == some '/'

/-- Whether a path starts at the root is seen from its front. -/
theorem isRooted_of_prefix {front : String} (some : front ≠ "")
    (leads : front.toList <+: path.toList) : isRooted path = isRooted front := by
  obtain ⟨rest, written⟩ := leads
  obtain ⟨c, letters, own⟩ :=
    List.exists_cons_of_ne_nil (mt String.toList_eq_nil_iff.mp some)
  rw [isRooted, isRooted, ← written, own]
  rfl

theorem isRooted_of_whole (whole : '/' ∉ path.toList) : isRooted path = false := by
  simpa [isRooted] using fun start => whole (List.mem_of_head? start)

/-- The parts of the clean form of a path. -/
def partsOf (path : String) : List String :=
  (cleanParts (isRooted path) [] (splitAt '/' path)).reverse

theorem settled_partsOf (path : String) : Settled (isRooted path) (partsOf path).reverse := by
  have run (taken parts : List String) (settled : Settled (isRooted path) taken)
      (whole : ∀ part ∈ parts, '/' ∉ part.toList) :
      Settled (isRooted path) (parts.foldl (takePart (isRooted path)) taken) := by
    induction parts generalizing taken with
    | nil => exact settled
    | cons part rest ih =>
      obtain ⟨own, behind⟩ := List.forall_mem_cons.mp whole
      exact ih _ (settled.takePart own) behind
  rw [partsOf, List.reverse_reverse, cleanParts_eq]
  exact run [] _ ⟨rfl, by simp⟩ fun _ => not_mem_of_mem_splitAt

/-- Cleaning keeps the parts, if there are any. -/
theorem partsOf_cleanPath (some : partsOf path ≠ []) :
    isRooted (cleanPath path) = isRooted path ∧ partsOf (cleanPath path) = partsOf path := by
  have opened : cleanPath path =
      if isRooted path then "/" ++ join "/" (partsOf path)
      else if (partsOf path).isEmpty then "." else join "/" (partsOf path) := rfl
  rw [if_neg (by simpa using some : ¬ (partsOf path).isEmpty = true)] at opened
  obtain ⟨again, each⟩ := settled_partsOf path
  rw [List.reverse_reverse] at again
  simp only [List.mem_reverse] at each
  have split (parts : List String) (some : parts ≠ []) (each : ∀ part ∈ parts, '/' ∉ part.toList) :
      splitAt '/' (join "/" parts) = parts := splitAt_join some each
  obtain ⟨first, others, parts⟩ := List.exists_cons_of_ne_nil some
  cases start : isRooted path with
  | true =>
    rw [start, if_pos rfl] at opened
    have written : cleanPath path = join "/" ("" :: partsOf path) := by
      simp [opened, parts, join]
    have rooted : isRooted (cleanPath path) = true := by simp [opened, isRooted]
    refine ⟨rooted, ?_⟩
    rw [partsOf, rooted, written, split _ (by simp)
      (List.forall_mem_cons.mpr ⟨by decide, fun part own => (each part own).2.2⟩), cleanParts_eq]
    exact List.reverse_eq_iff.mpr (start ▸ again)
  | false =>
    rw [start, if_neg Bool.false_ne_true] at opened
    have relative : isRooted (cleanPath path) = false := by
      obtain ⟨visible, _, whole⟩ := each first (by simp [parts])
      rw [opened, parts, isRooted_of_prefix visible (prefix_join "/" first others)]
      exact isRooted_of_whole whole
    refine ⟨relative, ?_⟩
    rw [partsOf, relative, opened, split _ some fun part own => (each part own).2.2, cleanParts_eq]
    exact List.reverse_eq_iff.mpr (start ▸ again)

/-- The path of an entry of a directory has the parts of the directory and the name. -/
theorem partsOf_joinPath (root : String) (own : IsEntryName name) :
    isRooted (joinPath root name) = isRooted root ∧
      partsOf (joinPath root name) = partsOf root ++ [name] := by
  have lone : splitAt '/' name = [name] := by
    rw [splitAt, splitFrom_whole [] fun c inside => ?_]
    · simp
    · simpa using fun same : c = '/' => own.whole (same ▸ inside)
  have added (path : String) (start : isRooted path = isRooted root)
      (parts : partsOf path = partsOf root ++ [name]) :
      isRooted (cleanPath path) = isRooted root ∧
        partsOf (cleanPath path) = partsOf root ++ [name] := by
    have kept := partsOf_cleanPath (by simp [parts] : partsOf path ≠ [])
    rwa [start, parts] at kept
  rw [joinPath]
  split
  · next empty =>
    obtain rfl : root = "" := by simpa using empty
    have start : isRooted name = isRooted "" := isRooted_of_whole own.whole
    refine added name start ?_
    rw [partsOf, lone, cleanParts_eq, List.foldl_cons, takePart_name _ _ own]
    rfl
  · next some =>
    have start : isRooted (root ++ "/" ++ name) = isRooted root :=
      isRooted_of_prefix (by simpa using some) (by simp)
    have cut : splitAt '/' (root ++ "/" ++ name) = splitAt '/' root ++ splitAt '/' name :=
      splitAt_append '/' root name
    refine added _ start ?_
    rw [partsOf, start, cut, lone, cleanParts_eq, List.foldl_append, List.foldl_cons,
      takePart_name _ _ own, List.foldl_nil, ← cleanParts_eq, List.reverse_cons]
    rfl

end Detection.Text
