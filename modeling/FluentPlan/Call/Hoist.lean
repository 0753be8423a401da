import FluentPlan.Call.Key
import FluentPlan.Java.Name
import FluentPlan.Log

/-!
Hoisting: groups of calls that occur more than once become helper methods. The largest group goes
first, and the occurrences are counted anew after each, so that a group which repeats only inside
another stays where it is.
-/

namespace FluentPlan

namespace Call

/-- Whether a child call can be hoisted. -/
def isCandidate (c : Call) : Bool := !c.isReference && !c.isEmpty && c.hasChildren

/-- The places in a call where a child call can be hoisted, by what stands there. -/
def candidates (c : Call) : List Call := c.walk.flatMap fun d => d.children.filter isCandidate

mutual

/-- Puts `by` in place of every child call with a given key. -/
def replace (key : CallKey) (by' : Call) : Call → Call
  | ⟨head, children, chain⟩ =>
    ⟨head, replaceChildren key by' children, replaceChain key by' chain⟩

def replaceChildren (key : CallKey) (by' : Call) : List Call → List Call
  | [] => []
  | c :: cs =>
    (if c.key = key then by' else replace key by' c) :: replaceChildren key by' cs

def replaceChain (key : CallKey) (by' : Call) : List Call → List Call
  | [] => []
  | c :: cs => replace key by' c :: replaceChain key by' cs

end

/-- What a helper method is named after: the label of its call, or the method where it has none. -/
def labelOrMethod (c : Call) : String :=
  match c.head.label with
  | some l => if l.isEmpty then c.head.method else l
  | none => c.head.method

end Call

namespace Helper

/-- A group of equal calls: one of them and the number of places. -/
structure Group where
  key : CallKey
  call : Call
  count : Nat

/-- Counts a call to the group of its key. -/
def tally (groups : List Group) (c : Call) : List Group :=
  let key := c.key
  let rec go : List Group → List Group
    | [] => [⟨key, c, 1⟩]
    | g :: gs => if g.key = key then { g with count := g.count + 1 } :: gs else g :: go gs
  go groups

/-- The groups of equal calls among the places in calls, in the order of their first place. -/
def groups (roots : List Call) : List Group := (roots.flatMap Call.candidates).foldl tally []

/-- The first of the largest groups with more than one place. -/
def pick : List Group → Option Group
  | [] => none
  | g :: gs =>
    match pick gs with
    | none => if 1 < g.count then some g else none
    | some h => if 1 < g.count && h.call.size ≤ g.call.size then some g else some h

/-- A call, the helper methods it refers to, and the names that no other may take. -/
structure Hoisting where
  root : Call
  helpers : List Helper
  taken : List String
deriving Inhabited

namespace Hoisting

def start (root : Call) : Hoisting := ⟨root, [], root.walk.map (·.head.method)⟩

def roots (s : Hoisting) : List Call := s.root :: s.helpers.map (·.body)

/-- The name of the helper method for a call. -/
def nameFor (s : Hoisting) (c : Call) : String :=
  Java.uniqueName (Java.methodName c.labelOrMethod) s.taken

/-- Makes a helper method of a group. -/
def extract (s : Hoisting) (g : Group) : Hoisting :=
  let name := s.nameFor g.call
  let ref := Call.reference name g.call
  ⟨Call.replace g.key ref s.root,
    s.helpers.map (fun h => ⟨h.name, Call.replace g.key ref h.body⟩) ++ [⟨name, g.call⟩],
    s.taken ++ [name]⟩

def line (s : Hoisting) (g : Group) : String :=
  "hoisted " ++ toString g.count ++ " occurrences of " ++ g.call.head.method ++ " into " ++
    s.nameFor g.call ++ "()"

/-- Hoists until no group repeats. -/
def run : (fuel : Nat) → Hoisting → Logged Hoisting
  | 0, s => pure s
  | fuel + 1, s =>
    match pick (groups s.roots) with
    | none => pure s
    | some g => do
      Logged.debug .hoisting (s.line g)
      run fuel (s.extract g)

end Hoisting

end Helper

namespace Call

/-- Moves repeated groups of calls into helper methods. Every step leaves fewer candidates than it
found, so their number is steps enough. -/
def hoist (root : Call) : Logged (Call × List Helper) := do
  let s ← Helper.Hoisting.run root.candidates.length (Helper.Hoisting.start root)
  return (s.root, s.helpers)

end Call

end FluentPlan
