import FluentPlan.Charset
import FluentPlan.Failure
import FluentPlan.Number.Decimal
import FluentPlan.Number.Integer
import FluentPlan.Param.Basic
import FluentPlan.Text.Line

/-!
Values of parameters from the properties of an element. A missing or empty property stands for the
default, and a text that refers to a variable is kept whatever the kind.
-/

namespace FluentPlan

open Text

/-- Why a raw text has no value. -/
inductive Misread where
  | problem (problem : ValueProblem)
  | fault (fault : Fault)
deriving Repr

namespace Misread

/-- The failure to read a property. -/
def ofProperty (raw : String) (prop : Option String) : Misread → Failure
  | problem p => .report (.value raw prop p)
  | fault f => .fault f

/-- The failure to read an argument. -/
def ofArgument (line : Nat) (prop : String) : Misread → Failure
  | problem p => .report (.build (.badValue line prop p))
  | fault f => .fault f

end Misread

namespace ParamKind

-- the ranges of 32 and 64 bit integers

def intMin : Int := -2147483648
def intMax : Int := 2147483647
def longMin : Int := -9223372036854775808
def longMax : Int := 9223372036854775807

/-- A whole number within bounds. -/
def readInteger (low high : Int) (raw : String) : Except Misread Value :=
  match Number.integerOfText? raw with
  | none => .error (.problem .notAnInteger)
  | some n => if n < low || high < n then .error (.problem .outOfRange) else .ok (.integer n)

def readDouble (raw : String) : Except Misread Value :=
  match Number.Double.ofText? raw with
  | none => .error (.problem (.notANumber raw))
  | some x => if x.isFinite then .ok (.double x) else .error (.problem .notFinite)

/-- A duration of so many milliseconds, if there is one. -/
def span (millis : Int) : Except Misread Value :=
  if Duration.inRange millis then .ok (.duration millis) else .error (.fault .durationRange)

def readDuration (unit : TimeUnit) (raw : String) : Except Misread Value :=
  match Number.integerOfText? raw with
  | none => .error (.problem (.notWhole unit.name))
  | some n => span (n * unit.millis)

/-- The pieces of a text between commas. -/
def commaParts (raw : String) : List String := (splitAt ',' raw.toList).map String.ofList

def readCharset (raw : String) : Except Misread Value :=
  let cs := trim isBlank raw.toList
  let name := String.ofList cs
  if cs.contains '\x00' then .error (.problem .brokenCharset)
  else if (Charset.ofName? name).isSome then .ok (.text name)
  else .error (.problem .unknownCharset)

/-- The value that a raw text spells for a kind. -/
def read (kind : ParamKind) (raw : String) : Except Misread Value :=
  match kind with
  | bool =>
    if raw = "true" then .ok (.bool true)
    else if raw = "false" then .ok (.bool false)
    else .error (.problem .notABool)
  | int => readInteger intMin intMax raw
  | long => readInteger longMin longMax raw
  | double | float => readDouble raw
  | duration unit | holdDuration unit _ => readDuration unit raw
  | textArray | textList => .ok (.texts (commaParts raw))
  | enum type _ =>
    match type.ofRaw? raw with
    | some m => .ok (.member m)
    | none => .error (.problem (.unknownMember type.name))
  | charset => readCharset raw
  | plain | text | displayName | classRef | url | children => .ok (.text raw)

end ParamKind

namespace Param

/-- The value of a raw property, which may be missing. -/
def parse (p : Param) (raw : Option String) : Except Failure (Option Value) :=
  match raw with
  | none => .ok p.default
  | some r =>
    if r.isEmpty then .ok p.default
    else if isDynamic r then .ok (some (.dynamic r))
    else match p.kind.read r with
      | .ok v => .ok (some v)
      | .error m => .error (m.ofProperty r p.prop)

def domainKey : String := "HTTPSampler.domain"
def protocolKey : String := "HTTPSampler.protocol"
def portKey : String := "HTTPSampler.port"

/-- Protocols with the ports that they have by themselves. -/
def ownPorts : List (String × String) := [("http", "80"), ("https", "443")]

/-- A path behind the address of its host. Without a domain the path stands alone. -/
def joinUrl (path : Option String) (domain protocol portText : String) : Option String :=
  if domain.isEmpty then path
  else
    let protocol := if protocol.isEmpty then "http" else protocol
    let host := protocol ++ "://" ++ domain
    let host :=
      if portText.isEmpty || ownPorts.lookup protocol = some portText then host
      else host ++ ":" ++ portText
    let path := path.getD ""
    if path.isEmpty || path.startsWith "/" then some (host ++ path) else some (host ++ "/" ++ path)

/-- The raw text of a parameter. Keys are looked up behind `lead`. -/
def extract (p : Param) (e : Element) (lead : String) : Option String :=
  match p.kind with
  | .displayName => e.name
  | .textList => none
  | .url =>
    let get (key : String) : String := (e.properties.get? (lead ++ key)).getD ""
    joinUrl (e.properties.get? (lead ++ p.propText)) (get domainKey) (get protocolKey) (get portKey)
  | _ => p.prop.bind fun key => e.properties.get? (lead ++ key)

/-- The number of a collection index. Digits without place value have none. -/
def indexValue (digits : List Char) : Except Failure Nat :=
  match Number.readNatural? digits with
  | some n => .ok n
  | none => .error (.fault .indexWithoutValue)

/-- What stands behind a lead. -/
def behind? (lead key : String) : Option (List Char) :=
  if lead.toList.isPrefixOf key.toList then some (key.toList.drop lead.toList.length) else none

/-- The entries stored directly under `base`, with their indices. -/
def indexed (base : String) : List (String × String) → Except Failure (List (Nat × String))
  | [] => .ok []
  | (key, value) :: rest =>
    match behind? base key with
    | some tail =>
      if Number.isDigits tail then do
        let n ← indexValue tail
        let more ← indexed base rest
        return (n, value) :: more
      else indexed base rest
    | none => indexed base rest

/-- Whether an indexed entry goes before another: by index, then by text. -/
def indexedLe (a b : Nat × String) : Bool :=
  a.1 < b.1 || (a.1 = b.1 && decide (a.2 ≤ b.2))

/-- The duration stored under the offset of a parameter, if there is a whole number. -/
def offset? (unit : TimeUnit) (key : String) (props : Properties) (lead : String) :
    Except Failure (Option Int) :=
  let raw := (props.get? (lead ++ key)).getD ""
  match Number.integerOfText? raw with
  | none => .ok none
  | some n =>
    let ms := n * unit.millis
    if Duration.inRange ms then .ok (some ms) else .error (.fault .durationRange)

/-- A duration moved by an offset; any other value as it is. -/
def moveBy (value : Option Value) (offset : Option Int) : Except Failure (Option Value) :=
  match value, offset with
  | some (.duration ms), some d =>
    if Duration.inRange (ms + d) then .ok (some (.duration (ms + d)))
    else .error (.fault .durationRange)
  | v, _ => .ok v

/-- The value of a parameter in an element. Keys are looked up behind `lead`. -/
def valueOf (p : Param) (e : Element) (lead : String) : Except Failure (Option Value) :=
  match p.kind with
  | .textList => do
    let entries ← indexed (lead ++ p.propText ++ "/") e.properties.entries
    return some (.texts ((entries.mergeSort indexedLe).map Prod.snd))
  | .holdDuration unit key => do
    let v ← p.parse (p.extract e lead)
    let d ← offset? unit key e.properties lead
    moveBy v (d.map fun x => -x)
  | _ => p.parse (p.extract e lead)

end Param

end FluentPlan
