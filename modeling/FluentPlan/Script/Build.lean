import FluentPlan.Catalog.Builtin
import FluentPlan.Script.Parser

/-!
Elements from builder code. Each call is tried against the signatures of its method in the order of
their registration; the first one that takes the arguments and the chained calls, and that the
element then meets, is meant. What the code leaves out is stored as its default.
-/

namespace FluentPlan.Build

open Script

/-- An argument with the element that it stands for as a child. -/
structure Operand where
  expr : Expr
  element : Unit → Logged Element

/-- Whether an argument is a child: a call of a name without a point. -/
def Operand.isChild (a : Operand) : Bool :=
  match a.expr with
  | .call head _ => !head.name.toList.contains '.'
  | _ => false

/-- The name under which a chained call takes children. -/
def childrenMethod : String := "children"

def problem (p : BuildProblem) : Failure := .report (.build p)

def failed {α : Type} (p : BuildProblem) : Except Failure α := .error (problem p)

/-! ### Arguments -/

/-- Divides arguments into those of the call itself and, behind them, the children. -/
def divide : List Operand → Except Failure (List Expr × List Operand)
  | [] => .ok ([], [])
  | a :: as =>
    if a.isChild then
      match as.find? fun b => !b.isChild with
      | some b => failed (.argumentAfterChild b.expr.line)
      | none => .ok ([], a :: as)
    else do
      let (leading, children) ← divide as
      return (a.expr :: leading, children)

/-- Whether so many arguments can go to these parameters. A last one that takes all the rest also
takes none. -/
def fits (ps : List Param) (count : Nat) : Bool :=
  match ps.getLast? with
  | some p => if p.kind.isVariadic then ps.length - 1 ≤ count else count = ps.length
  | none => count = 0

/-- The values of parameters for arguments in their order. Parameters that `taken` leaves out have
their defaults. -/
def bindValues (taken : Param → Bool) : List Param → List Expr →
    Except Failure (List (Param × Option Value))
  | [], _ => .ok []
  | p :: ps, args =>
    if !taken p then do
      let rest ← bindValues taken ps args
      return (p, p.default) :: rest
    else if p.kind.isVariadic then do
      let v ← p.fromArgs args
      return (p, v) :: ps.map fun q => (q, q.default)
    else match args with
      | [] => do
        let rest ← bindValues taken ps []
        return (p, p.default) :: rest
      | a :: as => do
        let v ← p.fromArg a
        let rest ← bindValues taken ps as
        return (p, v) :: rest

/-- The values of parameters for the arguments of a call. -/
def bindAll (ps : List Param) (line : Nat) (name : String) (args : List Expr) :
    Except Failure (List (Param × Option Value)) :=
  if fits ps args.length then bindValues (fun _ => true) ps args
  else failed (.arity line name args.length)

/-- The problem of a builder call, if a failure is one. -/
def buildProblem? : Failure → Option BuildProblem
  | .problem (.build p) _ => some p
  | _ => none

/-- The values of a signature's parameters: all have arguments, or the mandatory ones only. Where
both ways fail the first reason counts. -/
def bindScalars (ps : List Param) (line : Nat) (name : String) (args : List Expr) :
    Except Failure (List (Param × Option Value)) :=
  let mandatory := ps.filter (·.mandatory)
  let short := mandatory.length ≠ ps.length && fits mandatory args.length
  let brief := bindValues (·.mandatory) ps args
  if fits ps args.length then
    match bindValues (fun _ => true) ps args with
    | .ok values => .ok values
    | .error f =>
      if (buildProblem? f).isSome && short then
        match brief with
        | .ok values => .ok values
        | .error g => .error (if (buildProblem? g).isSome then f else g)
      else .error f
  else if short then brief
  else failed (.arity line name args.length)

/-! ### Chained calls -/

/-- The modifier that a chained call applies. -/
def findModifier (s : Signature) (line : Nat) (name : String) : Except Failure Modifier :=
  match s.modifiers.find? (·.method = name) with
  | some m => .ok m
  | none => failed (.noModifier line s.method name)

/-- Whether a signature has all the chained calls. -/
def checkChain (s : Signature) : List (Invocation Operand) → Except Failure Unit
  | [] => .ok ()
  | c :: cs => do
    if c.name ≠ childrenMethod then
      let _ ← findModifier s c.pos.line c.name
    else if !s.acceptsChildren then
      failed (.takesNoChildren c.pos.line s.method)
    checkChain s cs

/-- Stores values behind a lead. -/
def storeAll (lead : String) : List (Param × Option Value) → Properties → Except Failure Properties
  | [], props => .ok props
  | (p, v) :: rest, props => do
    let props ← p.store v props lead
    storeAll lead rest props

/-- The properties under construction, and how often each collection was extended. -/
structure Draft where
  props : Properties
  counts : List (String × Nat)

def Draft.count (d : Draft) (method : String) : Nat := (d.counts.lookup method).getD 0

/-- Stores a value of a modifier, at its entry if it has a collection. -/
def applyArgs (m : Modifier) (c : Invocation Operand) (d : Draft) : Except Failure Draft := do
  let values ← bindAll m.params c.pos.line c.name (c.args.map (·.expr))
  match m.each with
  | none => return { d with props := ← storeAll "" values d.props }
  | some each =>
    let i := d.count m.method
    let props ← storeAll (each ++ "/" ++ toString i ++ "/") values d.props
    return ⟨props, (m.method, i + 1) :: d.counts⟩

/-- Applies a modifier: a flag without arguments flips its parameter. -/
def applyModifier (m : Modifier) (c : Invocation Operand) (d : Draft) : Except Failure Draft := do
  let d ← match m.flag && c.args.isEmpty, m.params with
    | true, p :: _ => do
      let flipped := !(p.default.any Value.isTruthy)
      pure { d with props := ← p.store (some (.bool flipped)) d.props "" }
    | _, _ => applyArgs m c d
  return match m.guard with
    | some g => { d with props := g.apply d.props }
    | none => d

/-- Stores the defaults of the modifiers that are not called. One with a guard or a collection has
none to store. -/
def storeUncalled (called : List String) : List Modifier → Properties → Except Failure Properties
  | [], props => .ok props
  | m :: ms, props => do
    if called.contains m.method || m.each.any (fun c => !c.isEmpty) || m.guard.isSome then
      storeUncalled called ms props
    else
      let props ← storeAll "" (m.params.map fun p => (p, p.default)) props
      storeUncalled called ms props

/-! ### Elements -/

/-- The elements of arguments in their order. -/
def elements : List Operand → Logged (List Element)
  | [] => pure []
  | a :: as => do
    let e ← a.element ()
    let es ← elements as
    return e :: es

/-- Whether children may stand among the arguments of a signature. -/
def checkLeading (s : Signature) : List Operand → Except Failure Unit
  | [] => .ok ()
  | a :: _ =>
    if !s.acceptsChildren then failed (.takesNoChildren a.expr.line s.method)
    else if !s.params.any Param.isChildren then failed (.childrenOnlyChained a.expr.line s.method)
    else .ok ()

/-- Applies chained calls: the draft afterwards, and the children that they add. -/
def applyChain (s : Signature) : List (Invocation Operand) → Draft → Logged (Draft × List Element)
  | [], d => pure (d, [])
  | c :: cs, d =>
    if c.name = childrenMethod then do
      let es ← elements c.args
      let (d, more) ← applyChain s cs d
      return (d, es ++ more)
    else do
      let m ← Logged.ofExcept (findModifier s c.pos.line c.name)
      let d ← Logged.ofExcept (applyModifier m c d)
      applyChain s cs d

/-- The name that the values of parameters give. -/
def nameOf (default : Option String) (values : List (Param × Option Value)) : Option String :=
  values.foldl (fun name (p, v) =>
    if p.kind = .displayName then (v.map Value.plainText <|> name) else name) default

/-- The element that a signature makes of a call. -/
def construct (s : Signature) (values : List (Param × Option Value)) (children : List Operand)
    (chain : List (Invocation Operand)) : Logged Element := do
  let stored := values.filter fun (p, _) => p.kind ≠ .displayName
  let props ← Logged.ofExcept (storeAll "" stored .empty)
  Logged.ofExcept (checkLeading s children)
  let first ← elements children
  let (d, more) ← applyChain s chain ⟨props, []⟩
  let called := (chain.map (·.name)).filter (· ≠ childrenMethod)
  let props ← Logged.ofExcept (storeUncalled called s.modifiers d.props)
  let props := match s.guard with
    | some g => g.apply props
    | none => props
  return ⟨s.kind, nameOf s.defaultName values, true, props, first ++ more⟩

/-- Why the properties of an element do not meet a signature. -/
def unmetProblem (line : Nat) (name key : String) (props : Properties) : BuildProblem :=
  match props.get? key with
  | none => .leavesUnset line name key
  | some v => .setsTo line name key v

/-- The element of a call by the first signature that fits, and that signature; `failures` are the
reasons against those before. -/
def tryForms (pos : Position) (name : String) (leading : List Expr) (children : List Operand)
    (chain : List (Invocation Operand)) : (failures : List BuildProblem) → List Signature →
    Logged (Signature × Element)
  | [p], [] => .fail (problem p)
  | failures, [] => .fail (problem (.noForm pos.line name failures))
  | failures, s :: ss =>
    let values := do
      let values ← bindScalars s.scalarParams pos.line name leading
      checkChain s chain
      return values
    match values with
    | .error f =>
      match buildProblem? f with
      | some p => tryForms pos name leading children chain (failures ++ [p]) ss
      | none => .fail f
    | .ok values => do
      let e ← construct s values children chain
      match s.unmet? e.properties with
      | some key =>
        tryForms pos name leading children chain
          (failures ++ [unmetProblem pos.line name key e.properties]) ss
      | none =>
        Logged.debug .builder
          ("line " ++ toString pos.line ++ ": " ++ name ++ " bound to " ++ s.kind)
        return (s, e)

/-- The element of a call, and the signature of a registry that made it. -/
def makeCall (r : Registry) (head : Invocation Operand) (chain : List (Invocation Operand)) :
    Logged (Signature × Element) :=
  match r.forMethod head.name with
  | [] => .fail (problem (.unknownMethod head.pos.line head.name))
  | forms => do
    let (leading, children) ← Logged.ofExcept (divide head.args)
    tryForms head.pos head.name leading children chain [] forms

/-- The element of a call by the signatures of a registry. -/
def ofCall (r : Registry) (head : Invocation Operand) (chain : List (Invocation Operand)) :
    Logged Element := do
  let (_, e) ← makeCall r head chain
  return e

/-! ### Programs -/

/-- What evaluation knows: the signatures, the helper methods, those whose bodies are being
evaluated, and how to evaluate a body. -/
structure Scope where
  registry : Registry
  program : Program
  stack : List String
  expand : Definition → Logged Element

/-- The element of a call, which may be the call of a helper method. -/
def Scope.call (s : Scope) (head : Invocation Operand) (chain : List (Invocation Operand)) :
    Logged Element :=
  match s.program.definition? head.name with
  | some d =>
    if !head.args.isEmpty || !chain.isEmpty then
      .fail (problem (.takesNothing head.pos.line head.name))
    else if s.stack.contains head.name then
      .fail (problem (.recursive head.pos.line (s.stack ++ [head.name])))
    else s.expand d
  | none => ofCall s.registry head chain

mutual

/-- The element of an expression. -/
def evaluate (s : Scope) : Expr → Logged Element
  | .call ⟨pos, name, args⟩ chain => s.call ⟨pos, name, operands s args⟩ (invocations s chain)
  | .text pos v => .fail (problem (.notACall pos.line (Expr.text pos v).describe))
  | .number pos t => .fail (problem (.notACall pos.line (Expr.number pos t).describe))
  | .bool pos b => .fail (problem (.notACall pos.line (Expr.bool pos b).describe))
  | .null pos => .fail (problem (.notACall pos.line (Expr.null pos).describe))
  | .name pos n => .fail (problem (.notACall pos.line (Expr.name pos n).describe))

def operands (s : Scope) : List Expr → List Operand
  | [] => []
  | e :: es => ⟨e, fun _ => evaluate s e⟩ :: operands s es

def invocations (s : Scope) : List (Invocation Expr) → List (Invocation Operand)
  | [] => []
  | ⟨pos, name, args⟩ :: rest => ⟨pos, name, operands s args⟩ :: invocations s rest

end

/-- Evaluates an expression inside the bodies of the helper methods on `stack`. No name comes twice
on the stack, so bodies are nested no deeper than there are helper methods. -/
def evaluateIn (r : Registry) (p : Program) : (depth : Nat) → (stack : List String) → Expr →
    Logged Element
  | 0, stack, e =>
    evaluate ⟨r, p, stack, fun d =>
      .fail (problem (.recursive d.line (stack ++ [d.name])))⟩ e
  | depth + 1, stack, e =>
    evaluate ⟨r, p, stack, fun d => evaluateIn r p depth (stack ++ [d.name]) d.body⟩ e

/-- The element of a program. -/
def ofProgram (r : Registry) (p : Program) : Logged Element :=
  evaluateIn r p p.definitions.length [] p.expr

end FluentPlan.Build

namespace FluentPlan.Element

/-- The element that a source text builds with the signatures of a registry; an empty one stands for
the default one. -/
def ofSource (r : Registry) (source : String) : Logged Element := do
  let p ← Logged.ofExcept (Script.parse source)
  Build.ofProgram (if r.size = 0 then .standard else r) p

end FluentPlan.Element
