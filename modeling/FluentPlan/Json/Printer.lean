import FluentPlan.Json.Value
import FluentPlan.Text.Line
import FluentPlan.Text.Quoted

/-!
Writing JSON documents over several lines, two spaces deeper at each level. Only quotes, backslashes
and controls are escaped.
-/

namespace FluentPlan.Json

/-- A character inside quotes. -/
def escapeChar (c : Char) : List Char :=
  if c = '"' then ['\\', '"']
  else if c = '\\' then ['\\', '\\']
  else if c = '\n' then ['\\', 'n']
  else if c = '\r' then ['\\', 'r']
  else if c = '\t' then ['\\', 't']
  else if c = '\x08' then ['\\', 'b']
  else if c = '\x0c' then ['\\', 'f']
  else if c.toNat < 0x20 then '\\' :: 'u' :: Text.hexDigits 4 c.toNat
  else [c]

def quote (s : String) : List Char := '"' :: s.toList.flatMap escapeChar ++ ['"']

/-- A line break and the indentation of a level. -/
def newline (level : Nat) : List Char := '\n' :: List.replicate (2 * level) ' '

mutual

/-- The text of a value whose first line stands at `level`. -/
def print (level : Nat) : Json → List Char
  | .null => "null".toList
  | .bool b => (if b then "true" else "false").toList
  | .number n => n.toList
  | .text s => quote s
  | .list [] => ['[', ']']
  | .list (v :: vs) => '[' :: printItems (level + 1) (v :: vs) ++ newline level ++ [']']
  | .object [] => ['\x7b', '\x7d']
  | .object (e :: es) => '\x7b' :: printEntries (level + 1) (e :: es) ++ newline level ++ ['\x7d']

def printItems (level : Nat) : List Json → List Char
  | [] => []
  | [v] => newline level ++ print level v
  | v :: vs => newline level ++ print level v ++ ',' :: printItems level vs

def printEntries (level : Nat) : List (String × Json) → List Char
  | [] => []
  | [(k, v)] => newline level ++ quote k ++ ':' :: ' ' :: print level v
  | (k, v) :: es =>
    newline level ++ quote k ++ ':' :: ' ' :: print level v ++ ',' :: printEntries level es

end

end FluentPlan.Json
