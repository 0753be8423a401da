import FluentPlan.Java.Literal
import FluentPlan.Java.Name
import FluentPlan.Param.Read

/-!
Values of parameters as arguments in generated code: which of them are defaults and need not be
written, their text, and the classes that the text refers to.
-/

namespace FluentPlan

open Java Number

namespace Param

/-- The canonical name of the charset that a value names. -/
def canonical? (v : Value) : Option String := (Charset.ofName? v.plainText).map Charset.canonical

/-- The number a default counts as where a double is compared with it. -/
def asDouble : Value → Value
  | .integer n => .double (Double.ofInt n)
  | v => v

/-- Whether a value is the default, or why that cannot be told. -/
def isDefault? (p : Param) (value : Option Value) : Except Failure Bool :=
  match value with
  | some (.dynamic _) => .ok false
  | none => .ok true
  | some v =>
    match p.kind with
    | .charset =>
      match p.default with
      | none => .ok false
      | some d =>
        match canonical? v, canonical? d with
        | some a, some b => .ok (a = b)
        | _, _ => .error (.fault .unknownCharset)
    | .textArray | .textList =>
      if !v.isTruthy then .ok true
      else match p.default with
        | some d => .ok (v.same d)
        | none => .error (.fault .notAList)
    | .children => .ok (!v.isTruthy)
    | .double | .float =>
      match p.default with
      | some d => .ok (v.same (asDouble d))
      | none => .ok false
    | _ =>
      match p.default with
      | some d => .ok (v.same d)
      | none => .ok false

/-- Whether a value is the default. Where that cannot be told it counts as none. -/
def isDefault (p : Param) (value : Option Value) : Bool :=
  match p.isDefault? value with
  | .ok b => b
  | .error _ => false

/-- The text of a duration. -/
def durationCode (millis : Int) : String :=
  if millis = 0 then "Duration.ZERO"
  else if millis % 1000 = 0 then "Duration.ofSeconds(" ++ toString (millis / 1000) ++ ")"
  else "Duration.ofMillis(" ++ toString millis ++ ")"

/-- The text of a charset. -/
def charsetCode (name : String) : List Char :=
  match (Charset.ofName? name).bind Charset.constant? with
  | some c => ("StandardCharsets." ++ c).toList
  | none => "Charset.forName(".toList ++ plainLiteral name.toList ++ [')']

/-- A class name with points for its nesting marks. -/
def classCode (name : String) : String :=
  String.ofList (name.toList.map fun c => if c = '$' then '.' else c) ++ ".class"

/-- A number with a fraction. -/
def doubleCode : Value → String
  | .double x => x.text
  | .integer n => (Double.ofInt n).text
  | .bool b => (Double.ofInt (if b then 1 else 0)).text
  | v => v.plainText

/-- A whole number. -/
def longCode : Value → String
  | .integer n =>
    if ParamKind.intMin ≤ n && n ≤ ParamKind.intMax then toString n else toString n ++ "L"
  | v => v.plainText

/-- The text of a value that refers to no variable. -/
def renderValue (kind : ParamKind) (v : Value) (indent : List Char) (blocks : Bool) : List Char :=
  match kind, v with
  | .bool, v => (if v.isTruthy then "true" else "false").toList
  | .int, v => v.plainText.toList
  | .long, v => (longCode v).toList
  | .double, v => (doubleCode v).toList
  | .float, v => (doubleCode v ++ "f").toList
  | .duration _, .duration ms => (durationCode ms).toList
  | .holdDuration _ _, .duration ms => (durationCode ms).toList
  | .textArray, .texts items | .textList, .texts items =>
    Text.joinWith [',', ' '] (items.map fun s => plainLiteral s.toList)
  | .enum _ javaClass, .member m => (simpleName javaClass ++ "." ++ m.name).toList
  | .charset, v => charsetCode v.plainText
  | .classRef, v => (classCode v.plainText).toList
  | _, v => literal v.plainText.toList indent blocks

/-- The text of a value as an argument. -/
def render (p : Param) (value : Option Value) (indent : List Char) (blocks : Bool) : List Char :=
  match value with
  | none => "null".toList
  | some (.dynamic t) => literal t.toList indent blocks
  | some v => renderValue p.kind v indent blocks

/-- The text of a value, which child elements do not have. -/
def render? (p : Param) (value : Option Value) (indent : List Char) (blocks : Bool) :
    Except Failure (List Char) :=
  match p.kind, value with
  | .children, none | .children, some (.dynamic _) => .ok (p.render value indent blocks)
  | .children, some _ => .error (.fault .childrenAsArgument)
  | _, _ => .ok (p.render value indent blocks)

/-- The classes that the text of a value refers to. -/
def imports (p : Param) (value : Option Value) : List String :=
  match p.kind, value with
  | .duration _, some (.duration _) | .holdDuration _ _, some (.duration _) =>
    ["java.time.Duration"]
  | .enum _ javaClass, some (.member _) => [javaClass]
  | .charset, some (.text name) =>
    match (Charset.ofName? name).bind Charset.constant? with
    | some _ => ["java.nio.charset.StandardCharsets"]
    | none => ["java.nio.charset.Charset"]
  | _, _ => []

end Param

end FluentPlan
