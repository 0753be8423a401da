import FluentPlan.Element
import FluentPlan.Param.Value

/-!
Parameters of builder methods: where an argument comes from, what it is when nothing is said, and
whether it may be left out.
-/

namespace FluentPlan

/-- In what unit a property counts time. -/
inductive TimeUnit where
  | milliseconds
  | seconds
deriving DecidableEq, Repr, Inhabited

namespace TimeUnit

def name : TimeUnit → String
  | milliseconds => "milliseconds"
  | seconds => "seconds"

/-- How many milliseconds one of the unit is. -/
def millis : TimeUnit → Int
  | milliseconds => 1
  | seconds => 1000

end TimeUnit

/-- What kind of argument a parameter takes. -/
inductive ParamKind where
  | plain
  | bool
  | int
  | long
  | double
  | float
  | text
  /-- The display name of the element. -/
  | displayName
  | duration (unit : TimeUnit)
  /-- A duration whose property also counts the one stored under `offset`. -/
  | holdDuration (unit : TimeUnit) (offset : String)
  /-- Texts in one property, with commas between them. -/
  | textArray
  /-- Texts in properties of their own, one for each index. -/
  | textList
  | enum (type : EnumType) (javaClass : String)
  | charset
  | classRef
  /-- A path, behind the address of its host where that has properties. -/
  | url
  | children
deriving DecidableEq, Repr, Inhabited

namespace ParamKind

/-- How messages name a kind. -/
def name : ParamKind → String
  | plain => "FormalParameter"
  | bool => "BoolParam"
  | int => "IntParam"
  | long => "LongParam"
  | double => "DoubleParam"
  | float => "FloatParam"
  | text => "StringParam"
  | displayName => "NameParam"
  | duration _ => "DurationParam"
  | holdDuration .. => "HoldDurationParam"
  | textArray => "StringArrayParam"
  | textList => "StringListParam"
  | enum .. => "EnumParam"
  | charset => "EncodingParam"
  | classRef => "ClassParam"
  | url => "UrlParam"
  | children => "ChildrenParam"

/-- The value that a parameter of the kind has by itself. -/
def ownDefault : ParamKind → Option Value
  | bool => some (.bool false)
  | duration _ | holdDuration .. => some (.duration 0)
  | textArray | textList => some (.texts [])
  | _ => none

/-- Whether the kind takes all remaining arguments. -/
def isVariadic : ParamKind → Bool
  | textArray | textList => true
  | _ => false

end ParamKind

/-- A parameter. A `required` one makes its property a condition of the signature; a `mandatory` one
is written even when it has its default. -/
structure Param where
  kind : ParamKind
  prop : Option String
  default : Option Value
  required : Bool
  mandatory : Bool
deriving DecidableEq, Repr, Inhabited

namespace Param

/-- A parameter for a property, with the default of its kind. -/
def ofKind (kind : ParamKind) (prop : String) : Param :=
  ⟨kind, some prop, kind.ownDefault, false, true⟩

/-- The position of child elements. -/
def children : Param := ⟨.children, none, none, false, true⟩

/-- The display name, which may be left out. -/
def name (default : String) : Param := ⟨.displayName, none, some (.text default), false, false⟩

def text (prop : String) : Param := ofKind .text prop

def int (prop : String) : Param := ofKind .int prop

def bool (prop : String) : Param := ofKind .bool prop

/-- A duration that its property counts in seconds. -/
def seconds (prop : String) : Param := ofKind (.duration .seconds) prop

/-- A duration that its property counts in milliseconds. -/
def millis (prop : String) : Param := ofKind (.duration .milliseconds) prop

/-- A member of an enumeration, with the one of a given name as default. -/
def ofEnum (prop : String) (type : EnumType) (default javaClass : String) : Param :=
  { ofKind (.enum type javaClass) prop with default := (type.ofName? default).map .member }

def withDefault (p : Param) (v : Value) : Param := { p with default := some v }

/-- A text with a default. -/
def textOr (prop default : String) : Param := (text prop).withDefault (.text default)

def require (p : Param) : Param := { p with required := true }

def always (p : Param) : Param := { p with mandatory := true }

def isChildren (p : Param) : Bool := p.kind = .children

/-- How messages and collection keys spell the property. -/
def propText (p : Param) : String := p.prop.getD "None"

end Param

end FluentPlan
