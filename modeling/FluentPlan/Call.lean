import FluentPlan.Param.Write

/-!
Builder calls: what the generated code says, before it is text. A call has arguments, child calls at
one place among the arguments, and calls chained to it.
-/

namespace FluentPlan

/-- An argument: a typed value, or the place where the child calls stand. -/
inductive Arg where
  | scalar (param : Param) (value : Option Value)
  | children
deriving DecidableEq, Repr

namespace Arg

/-- The argument that a parameter takes. -/
def ofParam (p : Param) (v : Option Value) : Arg := if p.isChildren then children else scalar p v

/-- Whether an argument appears in code: always if mandatory, else unless it is the default. -/
def isRendered : Arg → Bool
  | scalar p v => p.mandatory || !p.isDefault v
  | children => false

/-- Whether it can be told that an argument appears in code. -/
def check : Arg → Except Failure Unit
  | scalar p v => if p.mandatory then .ok () else (p.isDefault? v).map fun _ => ()
  | children => .ok ()

/-- The classes that an argument refers to. -/
def imports (a : Arg) : List String :=
  match a with
  | scalar p v => if a.isRendered then p.imports v else []
  | children => []

/-- Whether the value of an argument refers to a variable. -/
def isDynamic : Arg → Bool
  | scalar _ (some v) => v.isDynamic
  | _ => false

end Arg

/-- What a call stands for: a builder, a helper method in place of its body, or nothing at all. -/
inductive CallRole where
  | builder
  | reference
  | empty
deriving DecidableEq, Repr, Inhabited

/-- A call without the calls nested in it. -/
structure CallHead where
  method : String
  args : List Arg := []
  role : CallRole := .builder
  category : String := ""
  commented : Bool := false
  label : Option String := none
  returnType : String := ""
  imports : List String := []
  staticImports : List String := []
  dependencies : List String := []
deriving Repr, Inhabited

structure Call where
  head : CallHead
  children : List Call
  chain : List Call
deriving Repr, Inhabited

namespace Call

/-- The call of an element without any effect. -/
def empty (category : String) : Call :=
  ⟨{ method := "", role := .empty, category := category }, [], []⟩

/-- A call chained to a builder. -/
def chained (method : String) (args : List Arg) : Call :=
  ⟨{ method := method, args := args }, [], []⟩

/-- The chained call that takes child calls. -/
def chainedChildren (children : List Call) : Call :=
  ⟨{ method := "children", args := [.children] }, children, []⟩

/-- The call of a helper method that stands for `body`. -/
def reference (name : String) (body : Call) : Call :=
  ⟨{ method := name, role := .reference, category := body.head.category,
     commented := body.head.commented, label := body.head.label,
     returnType := body.head.returnType }, [], []⟩

def isEmpty (c : Call) : Bool := c.head.role = .empty

def isReference (c : Call) : Bool := c.head.role = .reference

mutual

/-- A call and all calls nested in it: each before its children, and these before its chain. -/
def walk : Call → List Call
  | ⟨head, children, chain⟩ => ⟨head, children, chain⟩ :: walkAll children ++ walkAll chain

def walkAll : List Call → List Call
  | [] => []
  | c :: cs => walk c ++ walkAll cs

end

/-- How many calls a call is made of. -/
def size (c : Call) : Nat := c.walk.length

/-- Whether a call groups others, as arguments or through its chain. -/
def hasChildren (c : Call) : Bool := !c.children.isEmpty || c.chain.any fun l => !l.children.isEmpty

@[simp] theorem walkAll_nil : walkAll [] = [] := by simp [walkAll]

@[simp] theorem walkAll_cons (c : Call) (cs : List Call) :
    walkAll (c :: cs) = c.walk ++ walkAll cs := by simp [walkAll]

@[simp] theorem walkAll_append (cs ds : List Call) :
    walkAll (cs ++ ds) = walkAll cs ++ walkAll ds := by
  induction cs with
  | nil => simp
  | cons c cs ih => simp [ih]

@[simp] theorem walk_empty (category : String) : (empty category).walk = [empty category] := by
  simp [walk, empty]

@[simp] theorem walk_reference (name : String) (body : Call) :
    (reference name body).walk = [reference name body] := by
  simp [walk, reference]

theorem mem_walk_self (c : Call) : c ∈ c.walk := by
  cases c
  simp [walk]

end Call

/-- A helper method and the call it returns. -/
structure Helper where
  name : String
  body : Call
deriving Repr, Inhabited

end FluentPlan
