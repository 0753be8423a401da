import FluentPlan.Text.Lower
import FluentPlan.Text.Word

/-!
Names in generated code: class names without their package, and names for helper methods.
-/

namespace FluentPlan.Java

open Text

/-- Words that cannot name a method. -/
def reservedWords : List String :=
  ["abstract", "assert", "boolean", "break", "byte", "case", "catch", "char", "class", "const",
    "continue", "default", "do", "double", "else", "enum", "extends", "false", "final", "finally",
    "float", "for", "goto", "if", "implements", "import", "instanceof", "int", "interface", "long",
    "native", "new", "null", "package", "private", "protected", "public", "return", "short",
    "static", "strictfp", "super", "switch", "synchronized", "this", "throw", "throws", "transient",
    "true", "try", "var", "void", "volatile", "while"]

/-- What stands behind the last point of a name. -/
def simpleName (qualified : String) : String :=
  String.ofList (qualified.toList.reverse.takeWhile (· ≠ '.')).reverse

/-- A method name from a label: its word characters, the first in lower case, behind a word of their
own if they begin with a digit or if there are none. -/
def methodName (label : String) : String :=
  let word := label.toList.filter isWord
  let word := match word with
    | [] => "fragment".toList
    | c :: _ => if isDigit c then "fragment".toList ++ word else word
  match word with
  | [] => ""
  | c :: r => String.ofList (lower c ++ r)

/-- The first of `base2`, `base3`, … from `base ++ index` on that is not taken. One more try than
there are names finds it. -/
def numberedName (base : String) (taken : List String) : (fuel index : Nat) → String
  | 0, index => base ++ toString index
  | fuel + 1, index =>
    let name := base ++ toString index
    if taken.contains name then numberedName base taken fuel (index + 1) else name

/-- A name that is not taken and not reserved: `base` itself, or `base` with a number. -/
def uniqueName (base : String) (taken : List String) : String :=
  if !taken.contains base && !reservedWords.contains base then base
  else numberedName base taken taken.length 2

end FluentPlan.Java
