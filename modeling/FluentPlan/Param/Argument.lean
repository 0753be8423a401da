import FluentPlan.Param.Write
import FluentPlan.Script.Expr

/-!
Values of parameters from arguments in builder code, and the properties in which they are stored.
-/

namespace FluentPlan

open Script

namespace Param

/-- An argument that a parameter cannot take. -/
def mismatch {α : Type} (p : Param) (arg : Expr) : Except Failure α :=
  .error (.report (.build (.mismatch arg.line arg.describe p.kind.name p.propText)))

/-- The milliseconds of one unit of a duration factory. -/
def factoryMillis? (name : String) : Option Int :=
  [("Duration.ofMillis", 1), ("Duration.ofSeconds", 1000), ("Duration.ofMinutes", 60 * 1000),
    ("Duration.ofHours", 60 * 60 * 1000), ("Duration.ofDays", 24 * 60 * 60 * 1000)].lookup name

def afterLead? (lead name : String) : Option String := (behind? lead name).map String.ofList

/-- The value of a duration argument: the zero constant, or a factory applied to a whole number. -/
def durationArg? : Expr → Option Int
  | .name _ n => if n = "Duration.ZERO" then some 0 else none
  | .call ⟨_, n, [.number _ t]⟩ [] => do
    let unit ← factoryMillis? n
    if isIntegral t then
      let count ← Number.readInteger? (dropMarks ['l', 'L'] t).toList
      return count * unit
    else none
  | _ => none

/-- The name in a charset argument: of a constant, or given as a text. -/
def charsetArg? : Expr → Option (Bool × String)
  | .name _ n => do
    let constant ← afterLead? "StandardCharsets." n
    let stored ← Charset.nameOfConstant? constant
    return (true, stored)
  | .call ⟨_, n, [.text _ s]⟩ _ => if n = "Charset.forName" then some (false, s) else none
  | _ => none

/-- The value of an argument that refers to no variable. -/
def argValue (p : Param) (arg : Expr) : Except Failure (Option Value) :=
  let ofRaw (kind : ParamKind) (raw : String) : Except Failure (Option Value) :=
    match kind.read raw with
    | .ok v => .ok (some v)
    | .error m => .error (m.ofArgument arg.line p.propText)
  match p.kind, arg with
  | .bool, .bool _ b => .ok (some (.bool b))
  | .int, .number _ t | .long, .number _ t =>
    if isIntegral t then ofRaw p.kind (dropMarks ['l', 'L'] t) else p.mismatch arg
  | .double, .number _ t | .float, .number _ t =>
    ofRaw p.kind (dropMarks ['f', 'F', 'd', 'D', 'l', 'L'] t)
  | .text, .text _ s | .displayName, .text _ s | .url, .text _ s => .ok (some (.text s))
  | .text, .null _ | .displayName, .null _ | .url, .null _ => .ok none
  | .duration _, e | .holdDuration _ _, e =>
    match durationArg? e with
    | some ms =>
      if Duration.inRange ms then .ok (some (.duration ms)) else .error (.fault .durationRange)
    | none => p.mismatch arg
  | .enum type javaClass, .name _ n =>
    match (afterLead? (Java.simpleName javaClass ++ ".") n).bind type.ofName? with
    | some m => .ok (some (.member m))
    | none => p.mismatch arg
  | .charset, e =>
    match charsetArg? e with
    | some (true, stored) => .ok (some (.text stored))
    | some (false, raw) => ofRaw .charset raw
    | none => p.mismatch arg
  | .classRef, .name _ n =>
    if ".class".toList.isSuffixOf n.toList then
      .ok (some (.text (String.ofList (n.toList.take (n.toList.length - 6)))))
    else p.mismatch arg
  | _, _ => p.mismatch arg

/-- The value of an argument. -/
def fromArg (p : Param) (arg : Expr) : Except Failure (Option Value) :=
  match arg with
  | .text _ s => if isDynamic s then .ok (some (.dynamic s)) else p.argValue arg
  | _ => p.argValue arg

/-- The value of all remaining arguments, each of them a text. -/
def fromArgs (p : Param) (args : List Expr) : Except Failure (Option Value) :=
  go args []
where
  go : List Expr → List String → Except Failure (Option Value)
    | [], acc => .ok (some (.texts acc.reverse))
    | .text _ s :: r, acc => go r (s :: acc)
    | a :: _, _ => p.mismatch a

/-- The property text of a value that refers to no variable. -/
def formatValue (kind : ParamKind) (v : Value) : String :=
  match kind, v with
  | .bool, v => if v.isTruthy then "true" else "false"
  | .double, v | .float, v => doubleCode v
  | .duration unit, .duration ms | .holdDuration unit _, .duration ms =>
    toString (ms / unit.millis)
  | .textArray, .texts items | .textList, .texts items => String.intercalate "," items
  | .enum _ _, .member m => m.raw
  | _, v => v.plainText

/-- Stores a value under the property, behind `lead`. -/
def storeRaw (p : Param) (value : Option Value) (props : Properties) (lead : String) : Properties :=
  match p.prop, value with
  | some key, some (.dynamic t) => props.put (lead ++ key) t
  | some key, some v => props.put (lead ++ key) (formatValue p.kind v)
  | _, _ => props

/-- Stores texts under their indices from `index` on. -/
def storeItems (base : String) (index : Nat) : List String → Properties → Properties
  | [], props => props
  | s :: r, props => storeItems base (index + 1) r (props.put (base ++ toString index) s)

/-- Stores a value in the properties, behind `lead`, so that it is found there again. -/
def store (p : Param) (value : Option Value) (props : Properties) (lead : String) :
    Except Failure Properties :=
  match p.kind with
  | .textList =>
    match value with
    | none => .ok props
    | some (.texts items) => .ok (storeItems (lead ++ p.propText ++ "/") 0 items props)
    | some v => if v.isTruthy then .error (.fault .notAList) else .ok props
  | .holdDuration unit key => do
    let d ← offset? unit key props lead
    let v ← moveBy value d
    return p.storeRaw v props lead
  | _ => .ok (p.storeRaw value props lead)

end Param

end FluentPlan
