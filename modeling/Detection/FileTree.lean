import Detection.Catalogue.Record

/-!
# Trees of files

What a program sees of a disk. A path that leads nowhere is reported with the
attempt that was made on it.
-/
namespace Detection

open Text

/-- A file, or a directory with its entries by name. -/
inductive FileTree
  | file (text : String)
  | directory (entries : List (String × FileTree))
  deriving Repr, Inhabited

/-- Why a path leads nowhere. -/
inductive PathFault
  | missing
  | notDirectory
  | isDirectory
  deriving DecidableEq, Repr

def PathFault.message : PathFault → String
  | missing => "no such file or directory"
  | notDirectory => "not a directory"
  | isDirectory => "is a directory"

/-- A failed attempt on a path. -/
structure PathError where
  attempt : String
  path : String
  fault : PathFault
  deriving Repr, DecidableEq

def PathError.message (error : PathError) : String :=
  error.attempt ++ " " ++ error.path ++ ": " ++ error.fault.message

/-- What is found under each path. -/
abbrev Disk := String → Except PathFault FileTree

namespace FileTree

/-- Go along the parts of a path, from a tree and the trees above it. -/
def follow (above : List FileTree) (tree : FileTree) : List String → Except PathFault FileTree
  | [] => .ok tree
  | part :: rest =>
    match tree with
    | file _ => .error .notDirectory
    | directory entries =>
      if part == "" || part == "." then follow above tree rest
      else if part == ".." then
        match above with
        | [] => follow [] tree rest
        | parent :: others => follow others parent rest
      else match entries.lookup part with
        | some inner => follow (tree :: above) inner rest
        | none => .error .missing

def put (tree : FileTree) (inner : FileTree) : List String → FileTree
  | [] => inner
  | name :: rest =>
    match tree with
    | file text => file text
    | directory entries =>
      let old := (entries.lookup name).getD (directory [])
      directory (putEntry name (put old inner rest) entries)

mutual

/-- The files of a tree, with their paths relative to it. -/
def files (path : List String) : FileTree → List (String × String)
  | file text => [(join "/" path.reverse, text)]
  | directory entries => filesOf path entries

/-- The files in some entries of a directory. -/
def filesOf (path : List String) : List (String × FileTree) → List (String × String)
  | [] => []
  | (name, tree) :: others => tree.files (name :: path) ++ filesOf path others

end

mutual

/-- The directories of a tree, with their paths relative to it. -/
def directories (path : List String) : FileTree → List String
  | file _ => []
  | directory entries => join "/" path.reverse :: directoriesOf path entries

/-- The directories in some entries of a directory. -/
def directoriesOf (path : List String) : List (String × FileTree) → List String
  | [] => []
  | (name, tree) :: others => tree.directories (name :: path) ++ directoriesOf path others

end

end FileTree

/-- The files under a path as a catalogue, empty if the path leads nowhere. -/
def FileSet.onDisk (disk : Disk) (path : String) : FileSet :=
  let absence := PathFault.missing.message
  match disk path with
  | .ok tree => { files := tree.files [], directories := tree.directories [], absence }
  | .error _ => { files := [], absence }

/-- The text of the file under a path. -/
def Disk.readFile (disk : Disk) (path : String) : Except PathError String :=
  match disk path with
  | .ok (.file text) => .ok text
  | .ok (.directory _) => .error ⟨"read", path, .isDirectory⟩
  | .error fault => .error ⟨"open", path, fault⟩

/-- A file with a rule. -/
structure RuleFile where
  path : String
  text : String
  deriving Repr, DecidableEq, Inhabited

/-- Whether a path has one of some endings, in any letter case; without endings
every path has. -/
def hasEnding (path : String) (endings : List String) : Bool :=
  endings.isEmpty || endings.any fun ending => endsWith ending.toList (lower path).toList

mutual

/-- The rule files of a tree under a path. -/
def FileTree.ruleFiles (endings : List String) (path : String) : FileTree → List RuleFile
  | .file text => if hasEnding path endings then [⟨path, text⟩] else []
  | .directory entries => ruleFilesOf endings path entries

/-- The rule files in some entries of a directory. Hidden entries are skipped. -/
def FileTree.ruleFilesOf (endings : List String) (path : String) :
    List (String × FileTree) → List RuleFile
  | [] => []
  | (name, tree) :: others =>
    (if name.toList.head? == some '.' then []
      else tree.ruleFiles endings (joinPath path name)) ++ ruleFilesOf endings path others

end

/-- The rule files under a path, in the order of their paths. -/
def Disk.ruleFiles (disk : Disk) (root : String) (endings : List String) :
    Except PathError (List RuleFile) :=
  match disk root with
  | .ok tree =>
    .ok ((tree.ruleFiles endings root).mergeSort fun first second =>
      decide (first.path ≤ second.path))
  | .error fault => .error ⟨"lstat", root, fault⟩

/-- The endings of the rule files of a language, none if all files count. -/
def ruleEndings : String → List String
  | "sigma" => [".yml", ".yaml"]
  | "logscale_alert" => [".json"]
  | _ => []

end Detection
