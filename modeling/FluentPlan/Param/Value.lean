import FluentPlan.Number.Shortest
import FluentPlan.Text.Quoted

/-!
Typed values of parameters. A text that refers to a variable is kept as it is, whatever the type of
its parameter.
-/

namespace FluentPlan

/-- A member of an enumeration: the class it belongs to, its name, and its raw property text. -/
structure Member where
  type : String
  name : String
  raw : String
deriving DecidableEq, Repr, Inhabited

/-- An enumeration: its class, and names and raw property texts of its members in order. -/
structure EnumType where
  name : String
  members : List (String × String)
deriving DecidableEq, Repr, Inhabited

namespace EnumType

def toMember (t : EnumType) (m : String × String) : Member := ⟨t.name, m.1, m.2⟩

def ofName? (t : EnumType) (name : String) : Option Member :=
  (t.members.find? (·.1 = name)).map t.toMember

def ofRaw? (t : EnumType) (raw : String) : Option Member :=
  (t.members.find? (·.2 = raw)).map t.toMember

end EnumType

inductive Value where
  /-- A text that refers to a variable. -/
  | dynamic (text : String)
  | bool (value : Bool)
  | integer (value : Int)
  | double (value : Number.Double)
  | text (value : String)
  /-- A time span in milliseconds. -/
  | duration (millis : Int)
  | member (value : Member)
  | texts (items : List String)
deriving DecidableEq, Repr, Inhabited

/-- Whether a text refers to a variable: `${`, at least one character, and a closing brace. -/
def isDynamicText : List Char → Bool
  | '$' :: '\x7b' :: r => r.drop 1 |>.contains '\x7d'
  | _ :: r => isDynamicText r
  | [] => false

def isDynamic (s : String) : Bool := isDynamicText s.toList

namespace Duration

/-- Days beyond these bounds, in either direction, are no time span. -/
def maxDays : Int := 999999999

def millisPerDay : Int := 24 * 60 * 60 * 1000

def inRange (millis : Int) : Bool :=
  -maxDays ≤ millis / millisPerDay && millis / millisPerDay ≤ maxDays

def twoDigits (n : Int) : String :=
  let s := toString n
  if s.length < 2 then "0" ++ s else s

/-- Days, hours, minutes and seconds. -/
def text (millis : Int) : String :=
  let days := millis / millisPerDay
  let rest := millis % millisPerDay
  let clock := toString (rest / 3600000) ++ ":" ++ twoDigits (rest / 60000 % 60) ++ ":" ++
    twoDigits (rest / 1000 % 60)
  let frac := rest % 1000
  let clock := if frac = 0 then clock else
    clock ++ "." ++ String.ofList (List.replicate (3 - (toString frac).length) '0') ++
      toString frac ++ "000"
  if days = 0 then clock
  else if days = 1 || days = -1 then toString days ++ " day, " ++ clock
  else toString days ++ " days, " ++ clock

end Duration

namespace Value

def isDynamic : Value → Bool
  | dynamic _ => true
  | _ => false

/-- Whether a value counts as true: it does unless it is false, zero or without content. -/
def isTruthy : Value → Bool
  | dynamic _ | member _ => true
  | bool b => b
  | integer n => n ≠ 0
  | double (.finite _ m _) => m ≠ 0
  | double _ => true
  | text s => !s.isEmpty
  | duration ms => ms ≠ 0
  | texts items => !items.isEmpty

/-- The plain text of a value, for parameters that ask for no type. -/
def plainText : Value → String
  | dynamic t => "DynamicExpression(text=" ++ Text.quoted t ++ ")"
  | bool b => if b then "True" else "False"
  | integer n => toString n
  | double x => x.text
  | text s => s
  | duration ms => Duration.text ms
  | member m => m.type ++ "." ++ m.name
  | texts [s] => "(" ++ Text.quoted s ++ ",)"
  | texts items => "(" ++ String.intercalate ", " (items.map Text.quoted) ++ ")"

/-- The number a value counts as, in lowest terms: an odd factor and a power of two. -/
def number? : Value → Option (Int × Int)
  | bool b => some (if b then (1, 0) else (0, 0))
  | integer n =>
    let (m, e) := Number.Double.reduce (n.natAbs.log2 + 1) n.natAbs 0
    some (if n < 0 then -Int.ofNat m else Int.ofNat m, e)
  | double (.finite neg m e) =>
    let (m, e) := Number.Double.reduce 64 m e
    some (if neg then -Int.ofNat m else Int.ofNat m, e)
  | _ => none

/-- Whether two values are equal. Numbers are compared as numbers, so zero equals its negative. -/
def same (a b : Value) : Bool :=
  match a.number?, b.number? with
  | some x, some y => x = y
  | none, none => match a with
    | double .nan => false
    | _ => a = b
  | _, _ => false

end Value

end FluentPlan
