import FluentPlan.Call.Assemble
import FluentPlan.Call.Hoist
import FluentPlan.Catalog.Builtin
import FluentPlan.Java.TestClass

/-!
Conversions of plans into code. A conversion goes through phases, runs once, and ends either done
with code or failed with the problem that it keeps.
-/

namespace FluentPlan

inductive Phase where
  | idle
  | resolving
  | assembling
  | emitting
  | done
  | failed
deriving DecidableEq, Repr, Inhabited

namespace Phase

def name : Phase → String
  | idle => "idle"
  | resolving => "resolving signatures"
  | assembling => "assembling calls"
  | emitting => "emitting code"
  | done => "done"
  | failed => "failed"

/-- The line that a step to another phase logs. -/
def line (before after : Phase) (detail : String) : LogLine :=
  ⟨.conversion, false, before.name ++ " -> " ++ after.name ++ " " ++ detail⟩

end Phase

namespace Call

/-- Whether it can be told of all arguments whether they appear in code. -/
def check (root : Call) : Except Failure Unit :=
  root.written.forM fun c => c.head.args.forM Arg.check

/-- The code of a plan. -/
def generate (o : Options) (indent : List Char) (root : Call) : Logged Generated := do
  Logged.ofExcept root.check
  let (root, helpers) ← if o.hoist then root.hoist else pure (root, [])
  return .ofCall ⟨o.indent.toList, o.textBlocks⟩ indent root helpers

end Call

/-- A conversion: what it converts with, how far it is, and the problem it failed with. -/
structure Conversion where
  registry : Registry
  options : Options
  phase : Phase
  failure : Option Failure

namespace Conversion

/-- The registry that options ask for: the default one, or one of their own. -/
def registryFor (o : Options) : Logged Registry :=
  if o.categories = defaultCategories && o.loadPlugins then ⟨.ok .standard, Registry.standardLog⟩
  else
    let own := Registry.build o.categories o.loadPlugins
    ⟨own.outcome, Registry.standardLog ++ own.log⟩

/-- A conversion that has not run. The options must rank all categories of the registry. -/
def create (r : Registry) (o : Options) : Except Failure Conversion :=
  match r.categories.filter fun c => !o.categories.contains c with
  | [] => .ok ⟨r, o, .idle, none⟩
  | missing => .error (.report (.unranked missing))

/-- A conversion with the registry that its options ask for. -/
def ofOptions (o : Options) : Logged Conversion := do
  let r ← registryFor o
  Logged.ofExcept (create r o)

/-- A conversion with a given registry; an empty one stands for the one that the options ask for. -/
def ofRegistry (r : Registry) (o : Options) : Logged Conversion :=
  if r.size = 0 then ofOptions o else Logged.ofExcept (create r o)

/-- A conversion that ends in `phase` without code. A fault is no problem that it could keep. -/
def stop (c : Conversion) (phase : Phase) (f : Failure) (log : List LogLine) :
    Conversion × Logged Generated :=
  match f with
  | .problem .. =>
    ({ c with phase := .failed, failure := some f },
      ⟨.error f, log ++ [phase.line .failed f.format]⟩)
  | .fault _ => ({ c with phase := phase }, ⟨.error f, log⟩)

/-- Runs a conversion: the conversion afterwards, and its code, laid out behind `indent`. -/
def run (c : Conversion) (e : Element) (indent : String) : Conversion × Logged Generated :=
  if c.phase ≠ .idle then (c, .fail (.fault .alreadyRun))
  else
    let after := { c with registry := c.registry.close }
    let resolved := e.resolve c.registry c.options e.label
    let log := Phase.line .idle .resolving "" :: c.registry.closeLog ++ resolved.log
    match resolved.outcome with
    | .error f => after.stop .resolving f log
    | .ok () =>
      let assembled := e.assemble c.registry c.options e.label
      let log := log ++ Phase.line .resolving .assembling "" :: assembled.log
      match assembled.outcome with
      | .error f => after.stop .assembling f log
      | .ok root =>
        let generated := root.generate c.options indent.toList
        let log := log ++ Phase.line .assembling .emitting "" :: generated.log
        match generated.outcome with
        | .error f => after.stop .emitting f log
        | .ok g =>
          ({ after with phase := .done }, ⟨.ok g, log ++ [Phase.line .emitting .done ""]⟩)

end Conversion

/-- Converts a plan. -/
def convert (o : Options) (e : Element) : Logged Generated := do
  let c ← Conversion.ofOptions o
  (c.run e "").2

/-- Converts a plan into a test class. -/
def convertToTestClass (o : Options) (e : Element) : Logged String := do
  let c ← Conversion.ofOptions o
  let g ← (c.run e (o.indent ++ o.indent)).2
  return g.wrap o.className o.indent

end FluentPlan
