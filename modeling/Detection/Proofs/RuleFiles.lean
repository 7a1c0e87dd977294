import Detection.FileTree
import Detection.Proofs.ByteOrder
import Detection.Proofs.PathParts

/-!
# The rule files of a directory

The files below a directory are visited entry by entry and ordered afterwards. What is found are the
files that are reached without a hidden name and have one of the endings. Each of them is found
once, since the names that lead to a file can be read off its path.
-/
namespace Detection

open Text

variable {tree : FileTree} {names : List String} {file : RuleFile} {root : String}

namespace FileTree

/-- A tree has a file with a text under some names. -/
inductive Holds : FileTree → List String → String → Prop
  | here (text : String) : Holds (.file text) [] text
  | inside {entries : List (String × FileTree)} {entry : String × FileTree}
      (listed : entry ∈ entries) {names : List String} {text : String}
      (holds : Holds entry.2 names text) : Holds (.directory entries) (entry.1 :: names) text

/-- A tree as it is on a disk: the entries of a directory have names, and each name once. -/
inductive Proper : FileTree → Prop
  | file (text : String) : Proper (.file text)
  | directory (entries : List (String × FileTree))
      (named : ∀ entry ∈ entries, IsEntryName entry.1)
      (apart : entries.Pairwise fun entry other => entry.1 ≠ other.1)
      (each : ∀ entry ∈ entries, Proper entry.2) : Proper (.directory entries)

/-- The names under which a file is held can be joined to a path. -/
theorem Holds.named (proper : tree.Proper) {text : String} (holds : tree.Holds names text) :
    ∀ name ∈ names, IsEntryName name := by
  induction holds with
  | here text => simp
  | inside listed _ ih =>
    cases proper with
    | directory entries named _ each =>
      exact List.forall_mem_cons.mpr ⟨named _ listed, ih (each _ listed)⟩

/-- A name under which an entry is not shown. -/
def isHidden (name : String) : Bool :=
  name.toList.head? == some '.'

/-- The entries are visited one after the other. -/
theorem ruleFilesOf_eq (endings : List String) (path : String)
    (entries : List (String × FileTree)) :
    ruleFilesOf endings path entries = (entries.filter fun entry => !isHidden entry.1).flatMap
      fun entry => entry.2.ruleFiles endings (joinPath path entry.1) := by
  induction entries with
  | nil => rfl
  | cons entry others ih =>
    obtain ⟨name, tree⟩ := entry
    cases hidden : isHidden name <;> rw [isHidden] at hidden <;>
      simp [ruleFilesOf, isHidden, hidden, ih]

/-- What is found in a tree. -/
theorem mem_ruleFiles (proper : tree.Proper) (endings : List String) (path : String) :
    file ∈ tree.ruleFiles endings path ↔ ∃ names, tree.Holds names file.text ∧
      file.path = names.foldl joinPath path ∧ (∀ name ∈ names, isHidden name = false) ∧
      hasEnding file.path endings = true := by
  induction proper generalizing path with
  | file text =>
    rw [ruleFiles]
    constructor
    · intro member
      split at member
      · next ends =>
        obtain rfl := List.mem_singleton.mp member
        exact ⟨[], .here text, rfl, by simp, ends⟩
      · cases member
    · rintro ⟨names, holds, path, _, ends⟩
      obtain ⟨own, text⟩ := file
      cases holds with
      | here text =>
        obtain rfl : own = _ := path
        simp [show hasEnding own endings = true from ends]
  | directory entries named apart each ih =>
    rw [ruleFiles, ruleFilesOf_eq, List.mem_flatMap]
    constructor
    · rintro ⟨entry, listed, member⟩
      obtain ⟨listed, shown⟩ := List.mem_filter.mp listed
      obtain ⟨names, holds, path, visible, ends⟩ := (ih entry listed _).mp member
      exact ⟨entry.1 :: names, .inside listed holds, path,
        List.forall_mem_cons.mpr ⟨by simpa using shown, visible⟩, ends⟩
    · rintro ⟨_, holds, path, visible, ends⟩
      cases holds with
      | @inside _ entry listed names _ holds =>
        obtain ⟨shown, visible⟩ := List.forall_mem_cons.mp visible
        refine ⟨entry, List.mem_filter.mpr ⟨listed, by simp [shown]⟩, ?_⟩
        exact (ih entry listed _).mpr ⟨names, holds, path, visible, ends⟩

/-- The path of a file has the parts of the directory and the names that lead to the file. -/
theorem partsOf_foldl_joinPath (root : String) (each : ∀ name ∈ names, IsEntryName name) :
    partsOf (names.foldl joinPath root) = partsOf root ++ names := by
  induction names generalizing root with
  | nil => simp
  | cons name others ih =>
    obtain ⟨own, behind⟩ := List.forall_mem_cons.mp each
    rw [List.foldl_cons, ih _ behind, (partsOf_joinPath root own).2, List.append_assoc]
    rfl

/-- No two files are found under one path. -/
theorem pairwise_ruleFiles (proper : tree.Proper) (endings : List String) (path : String) :
    (tree.ruleFiles endings path).Pairwise fun file other => file.path ≠ other.path := by
  induction proper generalizing path with
  | file text =>
    rw [ruleFiles]
    split <;> simp
  | directory entries named apart each ih =>
    rw [ruleFiles, ruleFilesOf_eq, List.pairwise_flatMap]
    refine ⟨fun entry listed => ih entry (List.mem_filter.mp listed).1 _, ?_⟩
    refine (apart.filter _).imp_of_mem fun {entry other} listed also different => ?_
    -- Below two entries of one directory the paths differ in the part behind the directory's.
    have parts {entry : String × FileTree} (listed : entry ∈ entries) {file : RuleFile}
        (member : file ∈ entry.2.ruleFiles endings (joinPath path entry.1)) :
        ∃ names, partsOf file.path = partsOf path ++ entry.1 :: names := by
      obtain ⟨names, holds, own, _⟩ := (mem_ruleFiles (each entry listed) endings _).mp member
      refine ⟨names, ?_⟩
      rw [own, partsOf_foldl_joinPath _ (holds.named (each entry listed)),
        (partsOf_joinPath path (named entry listed)).2, List.append_assoc]
      rfl
    intro file member second found same
    obtain ⟨names, own⟩ := parts (List.mem_filter.mp listed).1 member
    obtain ⟨others, second⟩ := parts (List.mem_filter.mp also).1 found
    rw [same, second] at own
    exact different (List.cons.inj (List.append_cancel_left own)).1.symm

end FileTree

/-- Endings are compared with the lower-case form of a path. -/
theorem hasEnding_iff {path : String} {endings : List String} :
    hasEnding path endings = true ↔
      endings = [] ∨ ∃ ending ∈ endings, ending.toList <:+ (lower path).toList := by
  simp [hasEnding, endsWith]

/-- The rule files of a directory are the files that are reached from it without a hidden name and
whose path has one of the endings in lower case, or any ending if none is asked for. They come with
their texts in the order of the bytes of their paths, and no path comes twice. -/
theorem ruleFiles_found {disk : Disk} {entries : List (String × FileTree)}
    (found : disk root = .ok (.directory entries))
    (proper : (FileTree.directory entries).Proper) (endings : List String) :
    ∃ files, disk.ruleFiles root endings = .ok files ∧
      (∀ file, file ∈ files ↔
        ∃ names, (FileTree.directory entries).Holds names file.text ∧
          file.path = names.foldl joinPath root ∧
          (∀ name ∈ names, name.toList.head? ≠ some '.') ∧
          (endings = [] ∨ ∃ ending ∈ endings, ending.toList <:+ (lower file.path).toList)) ∧
      files.Pairwise fun file other => bytes file.path < bytes other.path := by
  refine ⟨_, by rw [Disk.ruleFiles, found], fun file => ?_, ?_⟩
  · rw [List.mem_mergeSort, FileTree.mem_ruleFiles proper]
    simp only [hasEnding_iff, FileTree.isHidden, beq_eq_false_iff_ne]
  · have apart := FileTree.pairwise_ruleFiles proper endings root
    rw [← (List.mergeSort_perm _ _).pairwise_iff fun different => Ne.symm different] at apart
    refine (apart.and (pairwise_mergeSort_text RuleFile.path _)).imp fun both => ?_
    exact (bytes_lt_iff _ _).mpr (Std.lt_of_le_of_ne both.2 both.1)

/-- The theorem at a directory with a hidden directory and a nested one. The walk visits what is in
`a` in front of `a.yml`, but the paths are in the other order. -/
theorem ruleFiles_found_nested :
    let entries : List (String × FileTree) := [(".git", .directory [("b.yml", .file "0")]),
      ("a", .directory [("Z.YML", .file "1"), ("n.txt", .file "2")]), ("a.yml", .file "3")]
    let disk : Disk := fun _ => .ok (.directory entries)
    disk "rules" = .ok (.directory entries) ∧ (FileTree.directory entries).Proper ∧
      ∃ files, disk.ruleFiles "rules" [".yml"] = .ok files ∧
        files = [⟨"rules/a.yml", "3"⟩, ⟨"rules/a/Z.YML", "1"⟩] ∧
        (∀ file, file ∈ files ↔
          ∃ names, (FileTree.directory entries).Holds names file.text ∧
            file.path = names.foldl joinPath "rules" ∧
            (∀ name ∈ names, name.toList.head? ≠ some '.') ∧
            ([".yml"] = [] ∨ ∃ ending ∈ [".yml"], ending.toList <:+ (lower file.path).toList)) ∧
        files.Pairwise fun file other => bytes file.path < bytes other.path := by
  intro entries disk
  have named (name : String) (own : name ∈ [".git", "a", "a.yml", "b.yml", "Z.YML", "n.txt"]) :
      IsEntryName name := by
    simp only [List.mem_cons, List.not_mem_nil, or_false] at own
    rcases own with rfl | rfl | rfl | rfl | rfl | rfl <;> constructor <;> decide
  have found : disk "rules" = .ok (.directory entries) := rfl
  have proper : (FileTree.directory entries).Proper := by
    refine .directory _ (by simp [entries, named]) (by simp [entries]) ?_
    exact List.forall_mem_cons.mpr ⟨.directory _ (by simp [named]) (by simp)
      (by simp [FileTree.Proper.file]), List.forall_mem_cons.mpr ⟨.directory _ (by simp [named])
      (by simp) (by simp [FileTree.Proper.file]), List.forall_mem_singleton.mpr (.file "3")⟩⟩
  have visited : (FileTree.directory entries).ruleFiles [".yml"] "rules" =
      [⟨"rules/a/Z.YML", "1"⟩, ⟨"rules/a.yml", "3"⟩] := by decide +kernel
  obtain ⟨files, read, rest⟩ := ruleFiles_found found proper [".yml"]
  refine ⟨found, proper, files, read, ?_, rest⟩
  rw [Disk.ruleFiles, found] at read
  simpa [visited, List.mergeSort, List.MergeSort.Internal.splitInTwo] using read.symm

end Detection
