import FluentPlan.Catalog.Guard
import FluentPlan.Param.Argument
import FluentPlan.Text.Sorted

/-!
Signatures: how a builder method reconstructs elements of one kind.
-/

namespace FluentPlan

/-- The class whose static methods are the builders. -/
def dslClass : String := "us.abstracta.jmeter.javadsl.JmeterDsl"

/-- The library that holds the builders, without its version. -/
def dslDependency : String := "us.abstracta.jmeter:jmeter-java-dsl"

/-- A call chained to a builder. A `flag` one says by its presence that its one parameter is not the
default. One with `each` is called once for every entry of that collection, and reads its
parameters below the entry. -/
structure Modifier where
  method : String
  params : List Param
  guard : Option Guard
  flag : Bool
  each : Option String
deriving DecidableEq, Repr, Inhabited

namespace Modifier

/-- A modifier with one or more arguments. -/
def ofParams (method : String) (params : List Param) : Modifier :=
  ⟨method, params, none, false, none⟩

/-- A modifier whose presence flips a boolean. -/
def ofFlag (method : String) (param : Param) : Modifier := ⟨method, [param], none, true, none⟩

def guarded (m : Modifier) (g : Guard) : Modifier := { m with guard := some g }

def forEach (m : Modifier) (collection : String) : Modifier := { m with each := some collection }

end Modifier

/-- How to reconstruct elements of one kind by a builder method. -/
structure Signature where
  kind : String
  method : String
  returnType : String
  category : String
  params : List Param := []
  modifiers : List Modifier := []
  childrenMode : String := "none"
  guard : Option Guard := none
  defaultName : Option String := none
  staticImport : Option String := some dslClass
  imports : List String := []
  dependency : Option String := some dslDependency
  emptyWhenDefault : Bool := false
deriving DecidableEq, Repr, Inhabited

/-- The ways in which a builder takes its children. -/
def childrenModes : List String := ["none", "param", "chain", "auto"]

namespace Signature

/-- The parameters of a signature and of its modifiers. -/
def allParams (s : Signature) : List Param := s.params ++ s.modifiers.flatMap Modifier.params

/-- The properties that an element must have, in increasing order. -/
def requiredKeys (s : Signature) : List String :=
  Text.sortedDistinct (s.allParams.filterMap fun p =>
    if p.required then p.prop.filter fun k => !k.isEmpty else none)

/-- The first required property that is missing, or the one that a guard refuses. -/
def unmet? (s : Signature) (props : Properties) : Option String :=
  match s.requiredKeys.find? fun k => !props.contains k with
  | some k => some k
  | none =>
    match s.guard with
    | some g => if g.accepts props then none else some g.key
    | none => none

/-- The parameters that are not the position of children. -/
def scalarParams (s : Signature) : List Param := s.params.filter fun p => !p.isChildren

def acceptsChildren (s : Signature) : Bool := s.childrenMode ≠ "none"

end Signature

end FluentPlan
