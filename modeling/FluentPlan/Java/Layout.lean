import FluentPlan.Text.Line

/-!
The layout of code that spans lines: shifting it and commenting it out.
-/

namespace FluentPlan.Java

open Text

/-- Shifts every line after the first that is not empty. -/
def shift (shiftBy code : List Char) : List Char :=
  match lines code with
  | [] => []
  | l :: ls => unlines (l :: ls.map fun l => if l = [] then [] else shiftBy ++ l)

/-- What is left of a line behind its indentation, or all of it where it is not indented so. -/
def dropIndent (indent line : List Char) : List Char :=
  if indent.isPrefixOf line then line.drop indent.length else line

/-- Comments out every line, right behind the indentation of the code. The first line stands behind
that indentation already. -/
def commentOut (indent code : List Char) : List Char :=
  match lines code with
  | [] => []
  | l :: ls =>
    unlines (('/' :: '/' :: l) :: ls.map fun l => indent ++ '/' :: '/' :: dropIndent indent l)

end FluentPlan.Java
