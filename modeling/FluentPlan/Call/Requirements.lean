import FluentPlan.Call
import FluentPlan.Text.Sorted

/-!
What generated code needs around it: imports, static imports, and libraries to compile against.
-/

namespace FluentPlan

/-- Requirements of code, each list sorted and without repetition. -/
structure Requirements where
  imports : List String
  staticImports : List String
  dependencies : List String
deriving DecidableEq, Repr, Inhabited

namespace Call

/-- The calls that leave a trace in code. -/
def written (c : Call) : List Call := c.walk.filter fun d => !d.isEmpty

def importsOf (c : Call) : List String :=
  c.written.flatMap fun d => d.head.imports ++ d.head.args.flatMap Arg.imports

def staticImportsOf (c : Call) : List String := c.written.flatMap (·.head.staticImports)

def dependenciesOf (c : Call) : List String := c.written.flatMap (·.head.dependencies)

end Call

namespace Helper

/-- The return type of a helper method, where it is a qualified name. -/
def returnImport (h : Helper) : List String :=
  if h.body.head.returnType.toList.contains '.' then [h.body.head.returnType] else []

end Helper

/-- The requirements of a call and of the helper methods it refers to. -/
def requirements (root : Call) (helpers : List Helper) : Requirements :=
  let calls := root :: helpers.map (·.body)
  ⟨Text.sortedDistinct (calls.flatMap Call.importsOf ++ helpers.flatMap Helper.returnImport),
    Text.sortedDistinct (calls.flatMap Call.staticImportsOf),
    Text.sortedDistinct (calls.flatMap Call.dependenciesOf)⟩

end FluentPlan
