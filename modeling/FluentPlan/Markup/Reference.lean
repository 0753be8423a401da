import FluentPlan.Markup.Name

/-!
Characters of markup, references to them, and the parts of a document that are read over: comments
and instructions.
-/

namespace FluentPlan.Markup

/-- Whether a code point may occur in markup. -/
def isCodePoint (n : Nat) : Bool :=
  n = 0x9 || n = 0xA || n = 0xD || (0x20 ≤ n && n ≤ 0xD7FF) || (0xE000 ≤ n && n ≤ 0xFFFD) ||
    (0x10000 ≤ n && n ≤ 0x10FFFF)

def isMarkupChar (c : Char) : Bool := isCodePoint c.toNat

def isSpace (c : Char) : Bool := c = ' ' || c = '\t' || c = '\n' || c = '\r'

def skipSpace (cs : List Char) : List Char := cs.dropWhile isSpace

/-- Writes every line end as one line feed. -/
def normalizeLines : List Char → List Char
  | '\r' :: '\n' :: r => '\n' :: normalizeLines r
  | '\r' :: r => '\n' :: normalizeLines r
  | c :: r => c :: normalizeLines r
  | [] => []

/-- What is left behind a word at the head of a text. -/
def word? : (word : List Char) → List Char → Option (List Char)
  | [], cs => some cs
  | _ :: _, [] => none
  | w :: ws, c :: cs => if w = c then word? ws cs else none

/-! ### References -/

inductive Reference where
  | char (c : Char)
  | entity (name : String)

/-- The value of a digit in a base of at most sixteen. -/
def digitValue? (base : Nat) (c : Char) : Option Nat :=
  let d := if c.isDigit then some (c.toNat - 48)
    else if 'a' ≤ c ∧ c ≤ 'f' then some (c.toNat - 87)
    else if 'A' ≤ c ∧ c ≤ 'F' then some (c.toNat - 55)
    else none
  d.filter (· < base)

/-- The character that one or more digits spell, up to a semicolon. -/
def charOfDigits? (base : Nat) (cs : List Char) : Option (Char × List Char) :=
  let digits := cs.takeWhile fun c => (digitValue? base c).isSome
  let n := digits.foldl (fun n c => n * base + (digitValue? base c).getD 0) 0
  match digits, cs.dropWhile fun c => (digitValue? base c).isSome with
  | _ :: _, ';' :: r => if isCodePoint n then some (Char.ofNat n, r) else none
  | _, _ => none

/-- A reference, from behind its ampersand. -/
def reference? : List Char → Option (Reference × List Char)
  | '#' :: 'x' :: r => (charOfDigits? 16 r).map fun (c, r) => (.char c, r)
  | '#' :: r => (charOfDigits? 10 r).map fun (c, r) => (.char c, r)
  | cs =>
    match name? cs with
    | some (n, ';' :: r) => some (.entity n, r)
    | _ => none

/-- The entities that every document has. -/
def ownEntities : List (String × Char) :=
  [("lt", '<'), ("gt", '>'), ("amp", '&'), ("quot", '"'), ("apos", '\'')]

/-! ### Comments and instructions -/

/-- What is left behind a comment, from behind its opening. -/
def skipComment? : List Char → Option (List Char)
  | '-' :: '-' :: '>' :: r => some r
  | '-' :: '-' :: _ => none
  | c :: r => if isMarkupChar c then skipComment? r else none
  | [] => none

def skipData? : List Char → Option (List Char)
  | '?' :: '>' :: r => some r
  | c :: r => if isMarkupChar c then skipData? r else none
  | [] => none

/-- The name that only a declaration at the very beginning may have, in any case. -/
def isReservedTarget (name : String) : Bool := name.toList.map Char.toLower = ['x', 'm', 'l']

/-- What is left behind an instruction, from behind its opening. -/
def skipInstruction? (cs : List Char) : Option (List Char) :=
  match name? cs with
  | none => none
  | some (target, r) =>
    if isReservedTarget target then none
    else match r with
      | '?' :: '>' :: r => some r
      | c :: r => if isSpace c then skipData? r else none
      | [] => none

/-- The text of a section of plain characters, from behind its opening. -/
def plainSection? : List Char → Option (List Char × List Char)
  | ']' :: ']' :: '>' :: r => some ([], r)
  | c :: r =>
    if isMarkupChar c then (plainSection? r).map fun (t, r) => (c :: t, r) else none
  | [] => none

end FluentPlan.Markup
