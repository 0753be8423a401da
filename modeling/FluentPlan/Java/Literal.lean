import FluentPlan.Text.Blank
import FluentPlan.Text.Line

/-!
Text literals of generated code: plain ones on a single line, and text blocks for texts that have
line breaks.
-/

namespace FluentPlan.Java

open Text

def octalDigit (n : Nat) : Char := Nat.digitChar (n % 8)

/-- An octal escape of three digits. Unicode escapes would be read before the literal is. -/
def octalEscape (c : Char) : List Char :=
  ['\\', octalDigit (c.toNat / 64), octalDigit (c.toNat / 8), octalDigit c.toNat]

/-- A character inside a plain literal. -/
def escapeChar (c : Char) : List Char :=
  if c = '\\' then ['\\', '\\']
  else if c = '"' then ['\\', '"']
  else if c = '\n' then ['\\', 'n']
  else if c = '\r' then ['\\', 'r']
  else if c = '\t' then ['\\', 't']
  else if c = '\x08' then ['\\', 'b']
  else if c = '\x0c' then ['\\', 'f']
  else if c.toNat < 0x20 || c = '\x7f' then octalEscape c
  else [c]

def escape (cs : List Char) : List Char := cs.flatMap escapeChar

/-- A plain literal. -/
def plainLiteral (cs : List Char) : List Char := '"' :: escape cs ++ ['"']

/-- A line inside a text block. `quotes` counts the quotes just before; every third of a run is
escaped, so that no three stand together. -/
def escapeBlockLine (quotes : Nat) : List Char → List Char
  | [] => []
  | c :: cs =>
    if c = '"' then
      (if quotes % 3 = 2 then ['\\', '"'] else ['"']) ++ escapeBlockLine (quotes + 1) cs
    else if c = '\\' then '\\' :: '\\' :: escapeBlockLine 0 cs
    else if c = '\t' then '\t' :: escapeBlockLine 0 cs
    else if c.toNat < 0x20 || c = '\x7f' then escapeChar c ++ escapeBlockLine 0 cs
    else c :: escapeBlockLine 0 cs

/-- Protects a blank at the end of a line, which the reader of a text block would drop. -/
def protectEnd (line : List Char) : List Char :=
  match line.reverse with
  | ' ' :: r => r.reverse ++ ['\\', 's']
  | '\t' :: r => r.reverse ++ ['\\', 't']
  | _ => line

def blockLine (line : List Char) : List Char := protectEnd (escapeBlockLine 0 line)

/-- The lines of a text block; the last one continues unless the text ends in a line break. -/
def blockLines (continued : Bool) : List (List Char) → List (List Char)
  | [] => []
  | [l] => [if continued then blockLine l ++ ['\\'] else blockLine l]
  | l :: ls => blockLine l :: blockLines continued ls

/-- A text block whose lines and closing quotes stand at `indent`. -/
def textBlock (cs indent : List Char) : List Char :=
  let ls := lines cs
  let complete := ls.getLastD [] = []
  let ls := if complete then ls.dropLast else ls
  let body := (blockLines (!complete) ls).map fun l => if l = [] then [] else indent ++ l
  ['"', '"', '"', '\n'] ++ unlines body ++ '\n' :: indent ++ ['"', '"', '"']

/-- A text literal: a text block if allowed and the text has line breaks, else a plain one. -/
def literal (cs indent : List Char) (blocks : Bool) : List Char :=
  if blocks && cs.contains '\n' then textBlock cs indent else plainLiteral cs

@[simp] theorem escape_nil : escape [] = [] := rfl

@[simp] theorem escape_cons (c : Char) (cs : List Char) :
    escape (c :: cs) = escapeChar c ++ escape cs := rfl

@[simp] theorem escape_append (cs ds : List Char) : escape (cs ++ ds) = escape cs ++ escape ds := by
  simp [escape]

end FluentPlan.Java
