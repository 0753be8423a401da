import FluentPlan.Call.Order
import FluentPlan.Options

/-!
The calls that reconstruct an element. Resolution comes first for the whole plan: it asks the
registry for a signature for every element that is not dropped. Assembly then reads the parameters,
adds the calls of the modifiers, and orders the calls of the children.
-/

namespace FluentPlan

/-- Whether an element is left out, with all below it. -/
def Options.drops (o : Options) (e : Element) : Bool := !e.enabled && !o.commentDisabled

namespace Element

/-- The path of a child. -/
def childPath (path : String) (e : Element) : String := path ++ "/" ++ e.label

mutual

/-- Finds a signature for an element and for all below it that are not dropped. -/
def resolve (r : Registry) (o : Options) (path : String) : Element → Logged Unit
  | ⟨kind, name, enabled, properties, children⟩ => do
    let _ ← (r.resolve ⟨kind, name, enabled, properties, children⟩).mapFailure (·.withPath path)
    resolveAll r o path children

def resolveAll (r : Registry) (o : Options) (path : String) : List Element → Logged Unit
  | [] => pure ()
  | e :: es => do
    if o.drops e then pure () else resolve r o (childPath path e) e
    resolveAll r o path es

end

/-! ### Parameters and modifiers -/

/-- The index that a key has below a collection, if it has one. -/
def indexIn? (base key : String) : Except Failure (Option Nat) :=
  match Param.behind? base key with
  | none => .ok none
  | some tail =>
    let head := tail.takeWhile (· ≠ '/')
    if Number.isDigits head then (Param.indexValue head).map some else .ok none

/-- The indices of the entries of a collection, in increasing order. -/
def indices (props : Properties) (each lead : String) : Except Failure (List Nat) := do
  let found ← props.keys.mapM (indexIn? (lead ++ each ++ "/"))
  return ((found.filterMap id).eraseDups).mergeSort fun a b => a ≤ b

/-- The values of parameters. -/
def valuesOf (e : Element) (lead : String) (ps : List Param) :
    Except Failure (List (Param × Option Value)) :=
  ps.mapM fun p => do
    let v ← p.valueOf e lead
    return (p, v)

def argsOf (values : List (Param × Option Value)) : List Arg :=
  values.map fun (p, v) => .ofParam p v

/-- Whether all values are defaults. -/
def allDefault : List (Param × Option Value) → Except Failure Bool
  | [] => .ok true
  | (p, v) :: rest => do
    if ← p.isDefault? v then allDefault rest else return false

/-- What stands before the properties of one entry of a collection. -/
def entryLead (each : String) (index : Nat) : String := each ++ "/" ++ toString index ++ "/"

/-- The calls of a modifier: one for each entry of its collection, or one unless its values are all
defaults. -/
def modifierCalls (e : Element) (m : Modifier) : Except Failure (List Call) :=
  if m.guard.any fun g => !g.accepts e.properties then .ok []
  else
    match m.each with
    | some each => do
      let found ← indices e.properties each ""
      found.mapM fun i => do
        let values ← valuesOf e (entryLead each i) m.params
        return .chained m.method (argsOf values)
    | none => do
      let values ← valuesOf e "" m.params
      if ← allDefault values then return []
      let args := argsOf values
      if m.flag && !args.any Arg.isDynamic then return [.chained m.method []]
      return [.chained m.method args]

/-- A library with the version that the options give to those without one. -/
def coordinate (o : Options) (dependency : String) : String :=
  if dependency.toList.count ':' = 1 && !o.version.isEmpty then dependency ++ ":" ++ o.version
  else dependency

/-- A name with something in it. -/
def nonempty (s : Option String) : Option String := s.filter fun t => !t.isEmpty

/-- The call of an element by a signature, without those of its children. -/
def ownHead (o : Options) (s : Signature) (e : Element) (args : List Arg) : CallHead where
  method := s.method
  args := args
  category := s.category
  commented := !e.enabled
  label := nonempty e.name <|> s.defaultName
  returnType := s.returnType
  imports := s.imports
  staticImports := (nonempty s.staticImport).toList
  dependencies := ((nonempty s.dependency).map (coordinate o)).toList

/-- The values of a signature's parameters, except for the place of the children. -/
def scalarValues (s : Signature) (e : Element) : Except Failure (List (Param × Option Value)) :=
  valuesOf e "" s.scalarParams

/-- The arguments of a signature: values at the scalar parameters, and the place of the children. -/
def placeArgs : List Param → List (Param × Option Value) → List Arg
  | [], _ => []
  | p :: ps, vs =>
    if p.isChildren then .children :: placeArgs ps vs
    else match vs with
      | [] => []
      | (q, v) :: rest => .scalar q v :: placeArgs ps rest

/-- The call of an element and the calls chained to it, without those of its children; nothing if
the element has no effect. -/
def ownCall (o : Options) (s : Signature) (e : Element) :
    Except Failure (Option (CallHead × List Call)) := do
  let values ← scalarValues s e
  if s.emptyWhenDefault then
    if ← allDefault values then return none
  let chain ← s.modifiers.mapM (modifierCalls e)
  return some (ownHead o s e (placeArgs s.params values), chain.flatten)

/-! ### Children -/

/-- Puts child calls into a call: at their place among the arguments, or into a chained call. -/
def attach (s : Signature) (head : CallHead) (chain children : List Call) : Call :=
  if s.childrenMode = "chain" || (s.childrenMode = "auto" && !chain.isEmpty) ||
      !head.args.contains .children then
    ⟨head, [], chain ++ [.chainedChildren children]⟩
  else ⟨head, children, chain⟩

mutual

/-- The call that reconstructs an element. -/
def assemble (r : Registry) (o : Options) (path : String) : Element → Logged Call
  | ⟨kind, name, enabled, properties, children⟩ =>
    let e : Element := ⟨kind, name, enabled, properties, children⟩
    Logged.mapFailure (·.withPath path) do
      let s ← Logged.ofExcept (r.resolve? e)
      match ← Logged.ofExcept (ownCall o s e) with
      | none =>
        Logged.debug .assembler (path ++ " renders as an empty call")
        return .empty s.category
      | some (head, chain) =>
        let calls ← assembleAll r o s path children
        if calls.isEmpty then return ⟨head, [], chain⟩
        Logged.debug .conversion ("assembling calls -> reordering children " ++ path)
        return attach s head chain (Call.order o.categories calls)

/-- The calls of the children of an element with signature `s`. -/
def assembleAll (r : Registry) (o : Options) (s : Signature) (path : String) :
    List Element → Logged (List Call)
  | [] => pure []
  | e :: es =>
    if o.drops e then do
      Logged.warn .assembler ("dropping disabled element " ++ childPath path e)
      assembleAll r o s path es
    else if !s.acceptsChildren then
      Logged.fail (.problem (.unsupported e.kind (.childOf s.method)) (some (childPath path e)))
    else do
      let c ← assemble r o (childPath path e) e
      let cs ← assembleAll r o s path es
      return c :: cs

end

end Element

end FluentPlan
