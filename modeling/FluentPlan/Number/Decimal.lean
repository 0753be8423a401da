import FluentPlan.Number.Double
import FluentPlan.Text.Blank
import FluentPlan.Text.Digit

/-!
Reading a double from a text: an optional sign, then digits of any script with an optional point and
exponent, or one of the words `inf`, `infinity` and `nan`. A single underscore may stand between two
digits.
-/

namespace FluentPlan.Number

open Text

/-- Blanks that may surround a number: those of every script, without the four separators among the
controls. -/
def isNumberBlank (c : Char) : Bool := isBlank c && !(0x1C ≤ c.toNat && c.toNat ≤ 0x1F)

/-- A decimal digit of any script as one of `0` to `9`; any other character unchanged. -/
def plainDigit (c : Char) : Char :=
  match decimalValue? c with
  | some d => Nat.digitChar d
  | none => c

/-- Removes underscores, each of which must have a digit on both sides. -/
def dropUnderscores? (prev : Char) : List Char → Option (List Char)
  | [] => if prev = '_' then none else some []
  | c :: cs =>
    if c = '_' then if prev.isDigit then dropUnderscores? c cs else none
    else if prev = '_' && !c.isDigit then none
    else (dropUnderscores? c cs).map (c :: ·)

namespace Double

/-- The number written by digits with an optional point and exponent. -/
def ofUnsigned? (cs : List Char) : Option Double :=
  let whole := cs.takeWhile Char.isDigit
  let rest := cs.dropWhile Char.isDigit
  let (fraction, rest) := match rest with
    | '.' :: r => (r.takeWhile Char.isDigit, r.dropWhile Char.isDigit)
    | r => ([], r)
  let ds := whole ++ fraction
  let mantissa := ds.foldl (fun n c => 10 * n + (c.toNat - 48)) 0
  let shift := -Int.ofNat fraction.length
  let value (ds : List Char) : Int := ds.foldl (fun n c => 10 * n + (Int.ofNat c.toNat - 48)) 0
  let exponent (cs : List Char) : Option Int :=
    if cs.isEmpty || !cs.all Char.isDigit then none else some (value cs)
  if ds.isEmpty then none
  else match rest with
    | [] => some (ofDecimal mantissa shift)
    | e :: '+' :: r =>
      if e.toLower = 'e' then (exponent r).map fun x => ofDecimal mantissa (shift + x) else none
    | e :: '-' :: r =>
      if e.toLower = 'e' then (exponent r).map fun x => ofDecimal mantissa (shift - x) else none
    | e :: r =>
      if e.toLower = 'e' then (exponent r).map fun x => ofDecimal mantissa (shift + x) else none

/-- The number of a word or of digits. -/
def ofMagnitude? (cs : List Char) : Option Double :=
  let word := String.ofList (cs.map Char.toLower)
  if word = "inf" || word = "infinity" then some (.infinite false)
  else if word = "nan" then some .nan
  else ofUnsigned? cs

/-- The number a text spells, if it spells one. -/
def ofText? (s : String) : Option Double :=
  match dropUnderscores? ' ' ((trim isNumberBlank s.toList).map plainDigit) with
  | some ('-' :: cs) => (ofMagnitude? cs).map negate
  | some ('+' :: cs) => ofMagnitude? cs
  | some cs => ofMagnitude? cs
  | none => none

end Double

end FluentPlan.Number
