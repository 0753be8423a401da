import FluentPlan.Json.Value

/-!
Reading JSON documents. A fault is located by the number of characters left where it shows, which
gives its line and column once the whole text is at hand. When an object closes its keys are checked
for repetition, so of two faults the one that shows first in reading order is reported.
-/

namespace FluentPlan.Json

/-- What ends the reading of a document. -/
inductive Fault where
  | malformed (problem : Problem) (left : Nat)
  | repeated (key : String)
deriving Repr

/-- What an object does with a key that it has already. -/
inductive Repeats where
  | refuse
  | keepLast
deriving DecidableEq, Repr

/-- A fault that shows where `cs` is left. -/
def fail {α : Type} (p : Problem) (cs : List Char) : Except Fault α :=
  .error (.malformed p cs.length)

def isSpace (c : Char) : Bool := c = ' ' || c = '\t' || c = '\n' || c = '\r'

def skipSpace (cs : List Char) : List Char := cs.dropWhile isSpace

/-! ### Texts -/

def hexValue? (c : Char) : Option Nat :=
  if c.isDigit then some (c.toNat - 48)
  else if 'a' ≤ c ∧ c ≤ 'f' then some (c.toNat - 87)
  else if 'A' ≤ c ∧ c ≤ 'F' then some (c.toNat - 55)
  else none

/-- The number of four hexadecimal digits. More text must follow them. -/
def codeUnit? : List Char → Option (Nat × List Char)
  | a :: b :: c :: d :: e :: r => do
    let a ← hexValue? a
    let b ← hexValue? b
    let c ← hexValue? c
    let d ← hexValue? d
    return (((a * 16 + b) * 16 + c) * 16 + d, e :: r)
  | _ => none

def isHighSurrogate (n : Nat) : Bool := 0xD800 ≤ n && n ≤ 0xDBFF

def isLowSurrogate (n : Nat) : Bool := 0xDC00 ≤ n && n ≤ 0xDFFF

/-- The character of a code unit, or the replacement character for half of a surrogate pair. -/
def charOfUnit (n : Nat) : Char :=
  if 0xD800 ≤ n && n ≤ 0xDFFF then Char.ofNat 0xFFFD else Char.ofNat n

/-- The character that an escape with a code point stands for, from behind the `u`. -/
def codePoint (cs : List Char) : Except Fault (Char × List Char) :=
  let bad {α : Type} (r : List Char) : Except Fault α :=
    .error (.malformed .codePoint (r.length + 1))
  match codeUnit? cs with
  | none => bad cs
  | some (high, '\\' :: 'u' :: r) =>
    if isHighSurrogate high then
      match codeUnit? r with
      | none => bad r
      | some (low, r') =>
        if isLowSurrogate low then
          .ok (Char.ofNat (0x10000 + (high - 0xD800) * 0x400 + (low - 0xDC00)), r')
        else .ok (charOfUnit high, '\\' :: 'u' :: r)
    else .ok (charOfUnit high, '\\' :: 'u' :: r)
  | some (unit, r) => .ok (charOfUnit unit, r)

/-- The character that a letter stands for behind a backslash. -/
def escapes : List (Char × Char) :=
  [('"', '"'), ('\\', '\\'), ('/', '/'), ('b', '\x08'), ('f', '\x0c'), ('n', '\n'), ('r', '\r'),
    ('t', '\t')]

/-- The rest of a text up to its closing quote. `start` is the number of characters left at the
opening quote. -/
def textBody (start : Nat) : (fuel : Nat) → List Char → Except Fault (List Char × List Char)
  | 0, _ => .error (.malformed .openText start)
  | _ + 1, [] => .error (.malformed .openText start)
  | _ + 1, '"' :: r => .ok ([], r)
  | _ + 1, ['\\'] => .error (.malformed .openText start)
  | fuel + 1, '\\' :: 'u' :: r => do
    let (c, r) ← codePoint r
    let (cs, r) ← textBody start fuel r
    return (c :: cs, r)
  | fuel + 1, '\\' :: e :: r =>
    match escapes.lookup e with
    | none => fail .escape ('\\' :: e :: r)
    | some c => do
      let (cs, r) ← textBody start fuel r
      return (c :: cs, r)
  | fuel + 1, c :: r =>
    if c.toNat < 0x20 then fail .control (c :: r)
    else do
      let (cs, r) ← textBody start fuel r
      return (c :: cs, r)

/-- A text, from behind its opening quote. -/
def readText (cs : List Char) : Except Fault (String × List Char) := do
  let (body, r) ← textBody (cs.length + 1) (cs.length + 1) cs
  return (String.ofList body, r)

/-! ### Numbers and words -/

/-- Splits off a point with digits behind it. -/
def fraction : List Char → List Char × List Char
  | '.' :: r =>
    let ds := r.takeWhile Char.isDigit
    if ds.isEmpty then ([], '.' :: r) else ('.' :: ds, r.dropWhile Char.isDigit)
  | r => ([], r)

/-- Splits off an exponent. -/
def exponent (cs : List Char) : List Char × List Char :=
  let digits (lead : List Char) (r : List Char) : List Char × List Char :=
    let ds := r.takeWhile Char.isDigit
    if ds.isEmpty then ([], cs) else (lead ++ ds, r.dropWhile Char.isDigit)
  match cs with
  | e :: s :: r =>
    if e = 'e' || e = 'E' then
      if s = '+' || s = '-' then digits [e, s] r else digits [e] (s :: r)
    else ([], cs)
  | _ => ([], cs)

/-- The whole part of a number without its sign: zero alone, or digits that begin with another. -/
def whole? (cs : List Char) : Option (List Char × List Char) :=
  match cs with
  | '0' :: r => some (['0'], r)
  | c :: _ =>
    if c.isDigit then some (cs.takeWhile Char.isDigit, cs.dropWhile Char.isDigit) else none
  | [] => none

/-- The text of a number at the head of `cs`. -/
def number? (cs : List Char) : Option (List Char × List Char) :=
  let (sign, body) := match cs with
    | '-' :: r => (['-'], r)
    | r => ([], r)
  match whole? body with
  | none => none
  | some (w, r) =>
    let (f, r) := fraction r
    let (e, r) := exponent r
    some (sign ++ w ++ f ++ e, r)

/-- What is left behind a word at the head of `cs`. -/
def word? : (word : List Char) → (cs : List Char) → Option (List Char)
  | [], cs => some cs
  | _ :: _, [] => none
  | w :: ws, c :: cs => if w = c then word? ws cs else none

/-- The words that are values. -/
def words : List (String × Json) :=
  [("null", .null), ("true", .bool true), ("false", .bool false), ("NaN", .number "NaN"),
    ("Infinity", .number "Infinity"), ("-Infinity", .number "-Infinity")]

/-- A word or a number. -/
def scalar (cs : List Char) : Except Fault (Json × List Char) :=
  match words.findSome? fun (w, v) => (word? w.toList cs).map fun r => (v, r) with
  | some found => .ok found
  | none =>
    match number? cs with
    | some (n, r) => .ok (.number (String.ofList n), r)
    | none => fail .value cs

/-! ### Documents -/

/-- Adds an entry; an entry with the same key keeps its place and takes the new value. -/
def put (key : String) (v : Json) : List (String × Json) → List (String × Json)
  | [] => [(key, v)]
  | (k, w) :: r => if k = key then (k, v) :: r else (k, w) :: put key v r

/-- The entries of an object that closes. -/
def close (repeats : Repeats) : (seen : List (String × Json)) → List (String × Json) →
    Except Fault Json
  | seen, [] => .ok (.object seen)
  | seen, (k, v) :: r =>
    if repeats = .refuse && (seen.lookup k).isSome then .error (.repeated k)
    else close repeats (put k v seen) r

mutual

/-- A value at the head of the text. -/
def value (repeats : Repeats) : (fuel : Nat) → List Char → Except Fault (Json × List Char)
  | 0, cs => fail .value cs
  | fuel + 1, cs =>
    match cs with
    | '"' :: r => do
      let (s, r) ← readText r
      return (.text s, r)
    | '[' :: r =>
      match skipSpace r with
      | ']' :: r => .ok (.list [], r)
      | r => do
        let (vs, r) ← items repeats fuel r
        return (.list vs, r)
    | '{' :: r =>
      match skipSpace r with
      | '}' :: r => .ok (.object [], r)
      | r => do
        let (es, r) ← entries repeats fuel r
        let v ← close repeats [] es
        return (v, r)
    | cs => scalar cs

/-- The items of a list up to its closing bracket. -/
def items (repeats : Repeats) : (fuel : Nat) → List Char → Except Fault (List Json × List Char)
  | 0, cs => fail .value cs
  | fuel + 1, cs => do
    let (v, r) ← value repeats fuel cs
    match skipSpace r with
    | ']' :: r => return ([v], r)
    | ',' :: r =>
      let (vs, r) ← items repeats fuel (skipSpace r)
      return (v :: vs, r)
    | r => fail .comma r

/-- The entries of an object up to its closing brace. -/
def entries (repeats : Repeats) : (fuel : Nat) → List Char →
    Except Fault (List (String × Json) × List Char)
  | 0, cs => fail .value cs
  | fuel + 1, cs =>
    match cs with
    | '"' :: r => do
      let (k, r) ← readText r
      match skipSpace r with
      | ':' :: r =>
        let (v, r) ← value repeats fuel (skipSpace r)
        match skipSpace r with
        | '}' :: r => return ([(k, v)], r)
        | ',' :: r =>
          let (es, r) ← entries repeats fuel (skipSpace r)
          return ((k, v) :: es, r)
        | r => fail .comma r
      | r => fail .colon r
    | cs => fail .key cs

end

/-- The document of a text. Every step into a value, an item or an entry takes a character, so twice
the length is fuel enough. -/
def read (repeats : Repeats) (text : List Char) : Except Fault Json :=
  match text with
  | '\uFEFF' :: _ => fail .byteOrderMark text
  | _ => do
    let (v, r) ← value repeats (2 * text.length + 1) (skipSpace text)
    match skipSpace r with
    | [] => return v
    | r => fail .extra r

/-- Line and column, from one, of the place where `left` characters of a text are left. -/
def place (text : List Char) (left : Nat) : Nat × Nat :=
  let before := text.take (text.length - left)
  (before.count '\n' + 1, (before.reverse.takeWhile (· ≠ '\n')).length + 1)

end FluentPlan.Json
