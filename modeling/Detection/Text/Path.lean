import Detection.Text.Pieces

/-!
# Paths

A path is clean if it has no empty part, no part that stays where it is, and no
part that goes back, except for those at the beginning of a relative path.
-/
namespace Detection.Text

/-- The parts of a path that go down or that go back beyond its start, with the
last part first. -/
def cleanParts (rooted : Bool) (taken : List String) : List String → List String
  | [] => taken
  | part :: rest =>
    if part == "" || part == "." then cleanParts rooted taken rest
    else if part == ".." then
      match taken with
      | [] => cleanParts rooted (if rooted then [] else [part]) rest
      | last :: others =>
        cleanParts rooted (if last == ".." then part :: taken else others) rest
    else cleanParts rooted (part :: taken) rest

/-- The shortest path that leads to the same place. -/
def cleanPath (path : String) : String :=
  let rooted := path.toList.head? == some '/'
  let parts := (cleanParts rooted [] (splitAt '/' path)).reverse
  if rooted then "/" ++ join "/" parts
  else if parts.isEmpty then "."
  else join "/" parts

/-- The path of a name in a directory. -/
def joinPath (directory name : String) : String :=
  if directory == "" then cleanPath name else cleanPath (directory ++ "/" ++ name)

/-- The ending of a name from its last point on, empty if there is none. -/
def extensionOf (name : String) : String :=
  let tail := name.toList.reverse.takeWhile (· != '.')
  if tail.length == name.length then "" else String.ofList ('.' :: tail.reverse)

end Detection.Text
