import FluentPlan.Toml.Value

/-!
Reading TOML documents, statement by statement. Every fault is alike: the text is no document.
-/

namespace FluentPlan.Toml

def isIndent (c : Char) : Bool := c = ' ' || c = '\t'

def isGap (c : Char) : Bool := isIndent c || c = '\n'

def isControl (c : Char) : Bool := c.toNat < 0x20 || c = '\x7f'

/-- A control character that no text on one line holds. -/
def isIllegal (c : Char) : Bool := isControl c && c ≠ '\t'

def skipIndent (cs : List Char) : List Char := cs.dropWhile isIndent

/-- What is left behind a word at the head of a text. -/
def word? : (word : List Char) → List Char → Option (List Char)
  | [], cs => some cs
  | _ :: _, [] => none
  | w :: ws, c :: cs => if w = c then word? ws cs else none

/-- Writes a line end of two characters as one. -/
def joinLineEnds : List Char → List Char
  | '\r' :: '\n' :: r => '\n' :: joinLineEnds r
  | c :: r => c :: joinLineEnds r
  | [] => []

/-- Skips a comment, if there is one, up to the end of its line. -/
def skipComment? : List Char → Option (List Char)
  | '#' :: r =>
    if (r.takeWhile (· ≠ '\n')).any isIllegal then none else some (r.dropWhile (· ≠ '\n'))
  | cs => some cs

/-- Skips blanks, line breaks and comments. -/
def skipGaps? : (fuel : Nat) → List Char → Option (List Char)
  | 0, _ => none
  | fuel + 1, cs =>
    match cs.dropWhile isGap with
    | '#' :: r => (skipComment? ('#' :: r)).bind (skipGaps? fuel)
    | r => some r

/-! ### Texts -/

def isHexDigit (c : Char) : Bool := c.isDigit || ('a' ≤ c && c ≤ 'f') || ('A' ≤ c && c ≤ 'F')

def hexValue (c : Char) : Nat :=
  if c.isDigit then c.toNat - 48 else if 'a' ≤ c then c.toNat - 87 else c.toNat - 55

/-- The character with a code point of so many digits. -/
def codePoint? (count : Nat) (cs : List Char) : Option (Char × List Char) :=
  let ds := cs.take count
  let n := ds.foldl (fun n c => 16 * n + hexValue c) 0
  if ds.length = count && ds.all isHexDigit && (n < 0xD800 || (0xDFFF < n && n < 0x110000)) then
    some (Char.ofNat n, cs.drop count)
  else none

def escapes : List (Char × Char) :=
  [('b', '\x08'), ('t', '\t'), ('n', '\n'), ('f', '\x0c'), ('r', '\r'), ('"', '"'), ('\\', '\\')]

/-- What an escape stands for, from behind its backslash. In a text of several lines a backslash at
the end of a line takes the blanks and line breaks that follow. -/
def escape? (multiline : Bool) (cs : List Char) : Option (List Char × List Char) :=
  match cs with
  | [] => none
  | c :: r =>
    if multiline && isGap c then
      match skipIndent cs with
      | [] => some ([], [])
      | '\n' :: r => some ([], r.dropWhile isGap)
      | _ => none
    else if c = 'u' then (codePoint? 4 r).map fun (c, r) => ([c], r)
    else if c = 'U' then (codePoint? 8 r).map fun (c, r) => ([c], r)
    else (escapes.lookup c).map fun d => ([d], r)

/-- A text with escapes, from behind its opening. -/
def basic? (multiline : Bool) : (fuel : Nat) → List Char → Option (List Char × List Char)
  | 0, _ => none
  | _ + 1, [] => none
  | fuel + 1, '\\' :: r => do
    let (e, r) ← escape? multiline r
    let (t, r) ← basic? multiline fuel r
    return (e ++ t, r)
  | fuel + 1, c :: r =>
    if c = '"' then
      if !multiline then some ([], r)
      else match r with
        | '"' :: '"' :: r => some ([], r)
        | r => (basic? multiline fuel r).map fun (t, r) => (c :: t, r)
    else if isIllegal c && !(multiline && c = '\n') then none
    else (basic? multiline fuel r).map fun (t, r) => (c :: t, r)

/-- A text without escapes on one line, from behind its opening. -/
def plain? (cs : List Char) : Option (List Char × List Char) :=
  let body := cs.takeWhile (· ≠ '\'')
  match cs.dropWhile (· ≠ '\'') with
  | _ :: r => if body.any isIllegal then none else some (body, r)
  | [] => none

/-- A text without escapes over lines, from behind its opening. -/
def plainBlock? : List Char → Option (List Char × List Char)
  | '\'' :: '\'' :: '\'' :: r => some ([], r)
  | c :: r =>
    if isIllegal c && c ≠ '\n' then none else (plainBlock? r).map fun (t, r) => (c :: t, r)
  | [] => none

/-- Up to two quotes right behind the end of a text over lines belong to it. -/
def extraQuotes (quote : Char) (t : List Char) : List Char → List Char × List Char
  | a :: b :: r =>
    if a = quote then
      if b = quote then (t ++ [a, b], r) else (t ++ [a], b :: r)
    else (t, a :: b :: r)
  | [a] => if a = quote then (t ++ [a], []) else (t, [a])
  | [] => (t, [])

/-- A line break right behind the opening does not belong to a text over lines. -/
def dropLineBreak : List Char → List Char
  | '\n' :: r => r
  | cs => cs

/-- A text over lines, from behind its opening. -/
def block? (quote : Char) (cs : List Char) : Option (List Char × List Char) :=
  let cs := dropLineBreak cs
  (if quote = '"' then basic? true (cs.length + 1) cs else plainBlock? cs).map
    fun (t, r) => extraQuotes quote t r

/-! ### Keys -/

def isBare (c : Char) : Bool := c.isAlphanum || c = '-' || c = '_'

def keyPart? (cs : List Char) : Option (String × List Char) :=
  match cs with
  | [] => none
  | c :: r =>
    if isBare c then some (String.ofList (cs.takeWhile isBare), cs.dropWhile isBare)
    else if c = '\'' then (plain? r).map fun (t, r) => (String.ofList t, r)
    else if c = '"' then (basic? false (r.length + 1) r).map fun (t, r) => (String.ofList t, r)
    else none

/-- A dotted key and what is left behind it and behind blanks. -/
def key? : (fuel : Nat) → List Char → Option (Key × List Char)
  | 0, _ => none
  | fuel + 1, cs => do
    let (part, r) ← keyPart? cs
    match skipIndent r with
    | '.' :: r => do
      let (parts, r) ← key? fuel (skipIndent r)
      return (part :: parts, r)
    | r => some ([part], r)

/-! ### Times and numbers -/

/-- Two digits within bounds. -/
def twoDigits? (low high : Nat) : List Char → Option (Nat × List Char)
  | a :: b :: r =>
    let n := (a.toNat - 48) * 10 + (b.toNat - 48)
    if a.isDigit && b.isDigit && low ≤ n && n ≤ high then some (n, r) else none
  | _ => none

def fourDigits? : List Char → Option (Nat × List Char)
  | a :: b :: c :: d :: r =>
    if [a, b, c, d].all Char.isDigit then
      some ([a, b, c, d].foldl (fun n c => 10 * n + (c.toNat - 48)) 0, r)
    else none
  | _ => none

/-- What is left behind a time of the day. -/
def time? (cs : List Char) : Option (List Char) := do
  let (_, r) ← twoDigits? 0 23 cs
  let r ← word? [':'] r
  let (_, r) ← twoDigits? 0 59 r
  let r ← word? [':'] r
  let (_, r) ← twoDigits? 0 59 r
  match r with
  | '.' :: d :: r' => if d.isDigit then some (r'.dropWhile Char.isDigit) else some r
  | r => some r

/-- Skips the distance to the time at the zero meridian, if it is there. -/
def skipOffset (cs : List Char) : List Char :=
  match cs with
  | c :: r =>
    if c = 'Z' || c = 'z' then r
    else if c = '+' || c = '-' then
      let offset := do
        let (_, r) ← twoDigits? 0 23 r
        let r ← word? [':'] r
        let (_, r) ← twoDigits? 0 59 r
        return r
      offset.getD cs
    else cs
  | [] => []

def isLeap (year : Nat) : Bool := year % 4 = 0 && (year % 100 ≠ 0 || year % 400 = 0)

def monthLength (year month : Nat) : Nat :=
  if month = 2 then if isLeap year then 29 else 28
  else if [4, 6, 9, 11].contains month then 30
  else 31

/-- A date, whether there is such a day or not: the date and what is left. -/
def date? (cs : List Char) : Option ((Nat × Nat × Nat) × List Char) := do
  let (y, r) ← fourDigits? cs
  let r ← word? ['-'] r
  let (m, r) ← twoDigits? 1 12 r
  let r ← word? ['-'] r
  let (d, r) ← twoDigits? 1 31 r
  return ((y, m, d), r)

def isDay (date : Nat × Nat × Nat) : Bool :=
  let (y, m, d) := date
  1 ≤ y && d ≤ monthLength y m

/-- Skips the time behind a date, if it is there. -/
def skipDayTime (cs : List Char) : List Char :=
  match cs with
  | c :: r =>
    if c = 'T' || c = 't' || c = ' ' then
      match time? r with
      | some r => skipOffset r
      | none => cs
    else cs
  | [] => []

/-- What is left behind digits of a class, with single underscores between them. -/
def digits? (p : Char → Bool) : List Char → Option (List Char)
  | c :: r => if p c then some (more r) else none
  | [] => none
where
  more : List Char → List Char
    | '_' :: c :: r => if p c then more r else '_' :: c :: r
    | c :: r => if p c then more r else c :: r
    | [] => []

/-- Skips a fraction, if it is there. -/
def skipFraction (cs : List Char) : List Char :=
  match cs with
  | '.' :: r => (digits? Char.isDigit r).getD cs
  | _ => cs

/-- Skips an exponent, if it is there. -/
def skipExponent (cs : List Char) : List Char :=
  match cs with
  | e :: s :: r =>
    if e = 'e' || e = 'E' then
      (digits? Char.isDigit (if s = '+' || s = '-' then r else s :: r)).getD cs
    else cs
  | _ => cs

/-- The digits of numbers in other bases, by the letter that announces them. -/
def bases : List (Char × (Char → Bool)) :=
  [('x', isHexDigit), ('b', fun c => c = '0' || c = '1'), ('o', fun c => '0' ≤ c && c ≤ '7')]

def decimal? (cs : List Char) : Option (List Char) :=
  let body := match cs with
    | c :: r => if c = '+' || c = '-' then r else cs
    | [] => []
  match body with
  | '0' :: r => some (skipExponent (skipFraction r))
  | _ => (digits? Char.isDigit body).map fun r => skipExponent (skipFraction r)

/-- What is left behind a number. -/
def number? (cs : List Char) : Option (List Char) :=
  match cs with
  | '0' :: b :: r =>
    match (bases.lookup b).bind fun p => digits? p r with
    | some r => some r
    | none => decimal? cs
  | _ => decimal? cs

/-- The words for numbers that are not finite. -/
def specialWords : List String := ["inf", "nan", "-inf", "+inf", "-nan", "+nan"]

/-- What is left behind a time, a number or a word. -/
def scalar? (cs : List Char) : Option (Toml × List Char) :=
  match word? "true".toList cs, word? "false".toList cs with
  | some r, _ => some (.bool true, r)
  | _, some r => some (.bool false, r)
  | none, none =>
    match date? cs with
    | some (date, r) => if isDay date then some (.other, skipDayTime r) else none
    | none =>
      ((time? cs <|> number? cs) <|> specialWords.findSome? fun w => word? w.toList cs).map
        fun r => (.other, r)

/-! ### Values -/

mutual

def value? : (fuel : Nat) → List Char → Option (Toml × List Char)
  | 0, _ => none
  | fuel + 1, cs =>
    match cs with
    | '"' :: '"' :: '"' :: r => (block? '"' r).map fun (t, r) => (.text (String.ofList t), r)
    | '"' :: r => (basic? false (r.length + 1) r).map fun (t, r) => (.text (String.ofList t), r)
    | '\'' :: '\'' :: '\'' :: r => (block? '\'' r).map fun (t, r) => (.text (String.ofList t), r)
    | '\'' :: r => (plain? r).map fun (t, r) => (.text (String.ofList t), r)
    | '[' :: r => do
      let (items, r) ← items? fuel r
      return (.list items, r)
    | '\x7b' :: r =>
      match skipIndent r with
      | '\x7d' :: r => some (.table [], r)
      | r => do
        let (entries, r) ← entries? fuel [] [] r
        return (.table entries, r)
    | cs => scalar? cs

/-- The items of a list, up to its closing bracket. -/
def items? : (fuel : Nat) → List Char → Option (List Toml × List Char)
  | 0, _ => none
  | fuel + 1, cs => do
    let r ← skipGaps? (cs.length + 1) cs
    match r with
    | ']' :: r => some ([], r)
    | r =>
      let (v, r) ← value? fuel r
      let r ← skipGaps? (r.length + 1) r
      match r with
      | ']' :: r => some ([v], r)
      | ',' :: r =>
        let (vs, r) ← items? fuel r
        return (v :: vs, r)
      | _ => none

/-- The entries of an inline table behind those in `before`, up to its closing brace. -/
def entries? : (fuel : Nat) → (closed : List Key) → (before : Entries) → List Char →
    Option (Entries × List Char)
  | 0, _, _, _ => none
  | fuel + 1, closed, before, cs => do
    let (path, r) ← key? (cs.length + 1) cs
    let r ← word? ['='] r
    let (v, r) ← value? fuel (skipIndent r)
    if closed.any (·.isPrefixOf path) then none
    let entries ← insertAt false path v before
    match skipIndent r with
    | '\x7d' :: r => some (entries, r)
    | ',' :: r =>
      entries? fuel (if v.isContainer then path :: closed else closed) entries (skipIndent r)
    | _ => none

end

/-! ### Documents -/

/-- A statement: an entry, or the header of a table. -/
def statement? (d : Draft) (cs : List Char) : Option (Draft × List Char) :=
  match cs with
  | '[' :: '[' :: r => do
    let (path, r) ← key? (r.length + 1) (skipIndent r)
    let d ← d.openItem path
    let r ← word? [']', ']'] r
    return (d, r)
  | '[' :: r => do
    let (path, r) ← key? (r.length + 1) (skipIndent r)
    let d ← d.openTable path
    let r ← word? [']'] r
    return (d, r)
  | '#' :: r => some (d, '#' :: r)
  | cs => do
    let (path, r) ← key? (cs.length + 1) cs
    let r ← word? ['='] r
    let (v, r) ← value? (2 * r.length + 2) (skipIndent r)
    let d ← d.insert path v
    return (d, r)

/-- Statements, each with a line of its own. -/
def statements? : (fuel : Nat) → Draft → List Char → Option Entries
  | 0, _, _ => none
  | fuel + 1, d, cs =>
    match skipIndent cs with
    | [] => some d.entries
    | '\n' :: r => statements? fuel d r
    | body => do
      let (d, r) ← statement? d body
      let r ← skipComment? (skipIndent r)
      match r with
      | [] => some d.entries
      | '\n' :: r => statements? fuel d r
      | _ => none

/-- The entries of a document. -/
def ofText? (text : String) : Option Entries :=
  let cs := joinLineEnds text.toList
  statements? (cs.length + 1) .empty cs

end FluentPlan.Toml
