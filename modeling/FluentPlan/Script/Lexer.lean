import FluentPlan.Failure
import FluentPlan.Text.Blank
import FluentPlan.Text.Letter
import FluentPlan.Text.Line

/-!
Tokens of builder code. What begins at a place is decided by `lexeme`, which looks at the text from
there on and says how much of it belongs together; `scan` runs through a text and keeps count of the
places.
-/

namespace FluentPlan.Script

open Text

/-! ### Character classes -/

def isIdentStart (c : Char) : Bool := isLetter c || c = '_' || c = '$'

def isIdentPart (c : Char) : Bool := isIdentStart c || c.isDigit

/-- Blanks between tokens. -/
def isGap (c : Char) : Bool := c = '\n' || c = ' ' || c = '\t' || c = '\r'

def isOperator (c : Char) : Bool :=
  c = '(' || c = ')' || c = '\x7b' || c = '\x7d' || c = ',' || c = '.' || c = ';' || c = '-'

/-! ### Escapes -/

/-- The character that stands behind a backslash for another one. -/
def simpleEscape? (c : Char) : Option Char :=
  [('n', '\n'), ('r', '\r'), ('t', '\t'), ('b', '\x08'), ('f', '\x0c'), ('s', ' '), ('\\', '\\'),
    ('"', '"'), ('\'', '\'')].lookup c

def isOctal (c : Char) : Bool := '0' ≤ c && c ≤ '7'

def octalValue (cs : List Char) : Nat := cs.foldl (fun n c => 8 * n + (c.toNat - 48)) 0

/-- Resolves escapes: the simple ones, up to three octal digits below 256, and a line break, which
stands for nothing. -/
def unescape : List Char → Except LexProblem (List Char)
  | [] => .ok []
  | ['\\'] => .error .endInEscape
  | '\\' :: a :: b :: c :: r =>
    match simpleEscape? a with
    | some x => (unescape (b :: c :: r)).map (x :: ·)
    | none =>
      if a = '\n' then unescape (b :: c :: r)
      else if !isOctal a then .error (.unknownEscape a)
      else if !isOctal b then (unescape (b :: c :: r)).map (Char.ofNat (octalValue [a]) :: ·)
      else if a ≤ '3' && isOctal c then
        (unescape r).map (Char.ofNat (octalValue [a, b, c]) :: ·)
      else (unescape (c :: r)).map (Char.ofNat (octalValue [a, b]) :: ·)
  | '\\' :: a :: r =>
    match simpleEscape? a with
    | some x => (unescape r).map (x :: ·)
    | none =>
      if a = '\n' then unescape r
      else if !isOctal a then .error (.unknownEscape a)
      else match r with
        | [b] =>
          if isOctal b then .ok [Char.ofNat (octalValue [a, b])]
          else (unescape [b]).map (Char.ofNat (octalValue [a]) :: ·)
        | _ => .ok [Char.ofNat (octalValue [a])]
  | c :: r => (unescape r).map (c :: ·)

/-! ### Quoted texts -/

/-- The raw content of a plain literal up to its closing quote, from behind the opening one. A
backslash takes the next character with it. -/
def plainContent? : List Char → Option (List Char)
  | [] => none
  | '"' :: _ => some []
  | ['\\'] => none
  | '\\' :: c :: r => (plainContent? r).map ('\\' :: c :: ·)
  | c :: r => if c = '\n' then none else (plainContent? r).map (c :: ·)

/-- The raw content of a text block up to its closing quotes, from behind its first line break. -/
def blockContent? : List Char → Option (List Char)
  | [] => none
  | ['\\'] => none
  | '\\' :: c :: r => (blockContent? r).map ('\\' :: c :: ·)
  | c :: r =>
    if (c :: r).take 3 = ['"', '"', '"'] then some [] else (blockContent? r).map (c :: ·)

def isBlankLine (l : List Char) : Bool := l.all isIndent

/-- How far a line is indented. -/
def indentation (l : List Char) : Nat := (l.takeWhile isIndent).length

/-- Removes the indentation that all lines of a text block share, and the blanks at their ends.
Blank lines other than the last, the one with the closing quotes, do not count. -/
def dedent (content : List Char) : List Char :=
  let ls := lines content
  let last := ls.getLastD []
  let counted := (ls.dropLast.filter fun l => !isBlankLine l) ++ [last]
  let common := counted.foldl (fun n l => min n (indentation l)) (indentation last)
  if ls.length = 1 && isBlankLine last then []
  else unlines (ls.map fun l => if isBlankLine l then [] else trimEnd isIndent (l.drop common))

/-! ### Numbers -/

/-- The digits of a whole part, which underscores may part. -/
def isWholePart (c : Char) : Bool := c.isDigit || c = '_'

/-- A fraction at the head of the text: a point and digits. -/
def fractionPart (cs : List Char) : List Char :=
  match cs with
  | '.' :: d :: r => if d.isDigit then '.' :: (d :: r).takeWhile Char.isDigit else []
  | _ => []

/-- An exponent at the head of the text, which must have digits once it has begun. -/
def exponentPart (cs : List Char) : Except LexProblem (List Char) :=
  match cs with
  | e :: r =>
    if e = 'e' || e = 'E' then
      let sign := r.take 1 |>.filter fun c => c = '+' || c = '-'
      let ds := (r.drop sign.length).takeWhile Char.isDigit
      if ds.isEmpty then .error .emptyExponent else .ok (e :: sign ++ ds)
    else .ok []
  | [] => .ok []

def isFloatMark (c : Char) : Bool := c = 'f' || c = 'F' || c = 'd' || c = 'D'

def isLongMark (c : Char) : Bool := c = 'l' || c = 'L'

/-- The number at the head of the text, and whether it is one with a fraction, an exponent or a mark
that makes it a float. -/
def numberPart (cs : List Char) : Except LexProblem (List Char × Bool) := do
  let whole := cs.takeWhile isWholePart
  let r := cs.drop whole.length
  let frac := fractionPart r
  let r := r.drop frac.length
  let exp ← exponentPart r
  let r := r.drop exp.length
  let floating := !frac.isEmpty || !exp.isEmpty
  let body := whole ++ frac ++ exp
  match r with
  | m :: _ =>
    if isFloatMark m then return (body ++ [m], true)
    else if isLongMark m && !floating then return (body ++ [m], false)
    else return (body, floating)
  | [] => return (body, floating)

/-! ### Lexemes -/

/-- What begins at a place. Its length is one more than `more`. -/
inductive Lexeme where
  | gap (more : Nat)
  | token (kind : TokenKind) (value : List Char) (more : Nat)
deriving Repr

namespace Lexeme

def more : Lexeme → Nat
  | gap n => n
  | token _ _ n => n

end Lexeme

/-- How many characters stand before the end of a block comment, its mark included, from behind the
opening mark. -/
def commentLength? : List Char → Option Nat
  | '*' :: '/' :: _ => some 2
  | _ :: r => (commentLength? r).map (· + 1)
  | [] => none

/-- The text block that begins with three quotes; `cs` is what stands behind them. -/
def blockLexeme (cs : List Char) : Except LexProblem Lexeme :=
  let head := cs.takeWhile (· ≠ '\n')
  match cs.drop head.length with
  | [] => .error .blockOnOneLine
  | _ :: r =>
    if !isBlankLine head then .error .blockOnOneLine
    else match blockContent? r with
      | none => .error .openBlock
      | some content => do
        let value ← unescape (dedent content)
        return .token .text value (head.length + content.length + 6)

/-- The plain literal that begins with a quote; `cs` is what stands behind it. -/
def plainLexeme (cs : List Char) : Except LexProblem Lexeme :=
  match plainContent? cs with
  | none => .error .openText
  | some content => do
    let value ← unescape content
    return .token .text value (content.length + 1)

/-- What begins with the character `c`, before the text `cs`. -/
def lexeme (c : Char) (cs : List Char) : Except LexProblem Lexeme :=
  if isGap c then .ok (.gap 0)
  else if c = '/' && cs.take 1 = ['/'] then .ok (.gap (cs.takeWhile (· ≠ '\n')).length)
  else if c = '/' && cs.take 1 = ['*'] then
    match commentLength? (cs.drop 1) with
    | none => .error .openComment
    | some n => .ok (.gap (n + 1))
  else if c = '"' && cs.take 2 = ['"', '"'] then blockLexeme (cs.drop 2)
  else if c = '"' then plainLexeme cs
  else if c.isDigit then do
    let (body, floating) ← numberPart (c :: cs)
    return .token (if floating then .float else .int) (body.filter (· ≠ '_')) (body.length - 1)
  else if isIdentStart c then
    let r := cs.takeWhile isIdentPart
    .ok (.token .ident (c :: r) r.length)
  else if isOperator c then .ok (.token .op [c] 0)
  else .error (.unexpected c)

/-- The tokens of a text that begins at `pos`, with the mark of its end. -/
def scan (pos : Position) (cs : List Char) : Except Failure (List Token) :=
  match cs with
  | [] => .ok [⟨.eof, "", pos⟩]
  | c :: r =>
    match lexeme c r with
    | .error p => .error (.report (.lexical p pos))
    | .ok (.gap n) => scan (pos.advance (c :: r.take n)) (r.drop n)
    | .ok (.token kind value n) =>
      (scan (pos.advance (c :: r.take n)) (r.drop n)).map (⟨kind, String.ofList value, pos⟩ :: ·)
termination_by cs.length
decreasing_by all_goals (simp only [List.length_drop, List.length_cons]; omega)

/-- Reads every carriage return before a line break as part of it. -/
def joinBreaks : List Char → List Char
  | '\r' :: '\n' :: r => '\n' :: joinBreaks r
  | c :: r => c :: joinBreaks r
  | [] => []

/-- The tokens of a source text. -/
def tokenize (source : String) : Except Failure (List Token) :=
  scan .start (joinBreaks source.toList)

end FluentPlan.Script
