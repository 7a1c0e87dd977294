import Detection.CommandLine

/-!
# The program

Reads what the command line asks for, runs it and prints the outcome.
-/
namespace Detection

/-- Read what is under a path. -/
partial def readTree (path : String) : IO (Except PathFault FileTree) := do
  let place := (← IO.currentDir) / path
  if ← place.isDir then
    let entries ← (← place.readDir).toList.filterMapM fun entry => do
      match ← readTree (path ++ "/" ++ entry.fileName) with
      | .ok tree => return some (entry.fileName, tree)
      | .error _ => return none
    return .ok (.directory entries)
  else if ← place.pathExists then return .ok (.file (← IO.FS.readFile place))
  else return .error .missing

/-- Read the disk as far as some paths lead. -/
def readDisk (paths : List String) : IO Disk := do
  let found ← paths.mapM fun path => do return (path, ← readTree path)
  return fun path => (found.lookup path).getD (.error .missing)

end Detection

def main (arguments : List String) : IO UInt32 := do
  let disk ← Detection.readDisk (Detection.CommandLine.paths arguments)
  let input ←
    if Detection.CommandLine.readsInput arguments then (← IO.getStdin).readToEnd else pure ""
  let outcome := Detection.CommandLine.run arguments disk input
  IO.print outcome.output
  match outcome.error with
  | none => return 0
  | some error =>
    IO.eprintln ("Error: " ++ error.message)
    return 1
