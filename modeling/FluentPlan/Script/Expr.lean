import FluentPlan.Script.Token

/-!
Expressions of builder code: literals, dotted names, and calls with the calls chained to them.
-/

namespace FluentPlan.Script

/-- A name applied to arguments. -/
structure Invocation (α : Type) where
  pos : Position
  name : String
  args : List α
deriving Repr, BEq, Inhabited

inductive Expr where
  | text (pos : Position) (value : String)
  | number (pos : Position) (text : String)
  | bool (pos : Position) (value : Bool)
  | null (pos : Position)
  | name (pos : Position) (name : String)
  | call (head : Invocation Expr) (chain : List (Invocation Expr))
deriving Repr, BEq

instance : Inhabited Expr := ⟨.null .start⟩

namespace Expr

def pos : Expr → Position
  | text p _ | number p _ | bool p _ | null p | name p _ => p
  | call head _ => head.pos

def line (e : Expr) : Nat := e.pos.line

/-- How messages name an expression. -/
def describe : Expr → String
  | text .. => "string literal"
  | number _ t => "number " ++ t
  | bool .. => "boolean literal"
  | null _ => "null"
  | name _ n => "'" ++ n ++ "'"
  | call head _ => "call to '" ++ head.name ++ "'"

end Expr

/-- The text of a number without the given marks at its end. -/
def dropMarks (marks : List Char) (text : String) : String :=
  String.ofList ((text.toList.reverse.dropWhile marks.contains).reverse)

/-- Whether the text of a number is a whole one: digits, perhaps with signs and long marks. -/
def isIntegral (text : String) : Bool :=
  let body := (dropMarks ['l', 'L'] text).toList.dropWhile (· = '-')
  !body.isEmpty && body.all Char.isDigit

/-- A helper method: its body stands for calls of its name. -/
structure Definition where
  name : String
  returnType : String
  body : Expr
  line : Nat
deriving Repr, BEq, Inhabited

/-- Helper methods with distinct names, and the expression that uses them. -/
structure Program where
  definitions : List Definition
  expr : Expr
deriving Repr, BEq, Inhabited

namespace Program

def definition? (p : Program) (name : String) : Option Definition :=
  p.definitions.find? (·.name = name)

end Program

end FluentPlan.Script
