/-!
# Defects

A defect is an input that no reader of this library produces, such as a list
that holds a missing value where a renderer needs a text. Work on it is given up
at once. Some defects have a message and some have none.
-/
namespace Detection

/-- Why work was given up. -/
inductive Defect
  /-- A missing value where a text is needed, with the part that needed it. -/
  | unknownValue (part : String)
  /-- A list where a single literal is needed. -/
  | listLiteral
  /-- An escape rule without symbols, with the class that it describes. -/
  | emptyClass (pattern rest : String)
  /-- Something that has to be there is missing. -/
  | missing
  deriving DecidableEq, Repr

/-- The message of a defect, if it has one. -/
def Defect.message? : Defect → Option String
  | .unknownValue part => some s!"{part}: unknown value <nil>"
  | .listLiteral => some "render: Literal called with a list value"
  | .emptyClass pattern rest =>
    some ("regexp: Compile(`" ++ pattern ++ "`): error parsing regexp: missing closing ]: `" ++
      rest ++ "`")
  | .missing => none

end Detection
