import FluentPlan.Properties

/-!
Elements of a test plan. An element has a kind, perhaps a name, raw properties and children; a
disabled one stays in the tree but does not run.
-/

namespace FluentPlan

structure Element where
  kind : String
  name : Option String
  enabled : Bool
  properties : Properties
  children : List Element
deriving Inhabited

/-- The property that holds the editor class, by which elements of one kind are told apart. -/
def editorClass : String := "TestElement.gui_class"

namespace Element

/-- The part of a path that stands for an element: its kind, and its name in brackets if it has a
name that is not empty. -/
def labelOf (kind : String) (name : Option String) : String :=
  match name with
  | none => kind
  | some n => if n.isEmpty then kind else kind ++ "[" ++ n ++ "]"

def label (e : Element) : String := labelOf e.kind e.name

/-- The path of an element with a given label below `parent`; the path of a root is its label. -/
def pathUnder (parent label : String) : String :=
  if parent.isEmpty then label else parent ++ "/" ++ label

mutual

/-- The element and all below it with their paths, each before its children. -/
def walk (parent : String) : Element → List (String × Element)
  | ⟨kind, name, enabled, properties, children⟩ =>
    let path := pathUnder parent (labelOf kind name)
    (path, ⟨kind, name, enabled, properties, children⟩) :: walkAll path children

def walkAll (parent : String) : List Element → List (String × Element)
  | [] => []
  | e :: es => walk parent e ++ walkAll parent es

end

/-- The paths of an element and all below it. -/
def paths (e : Element) : List String := (e.walk "").map Prod.fst

@[simp] theorem walkAll_nil (parent : String) : walkAll parent [] = [] := by simp [walkAll]

@[simp] theorem walkAll_append (parent : String) (es fs : List Element) :
    walkAll parent (es ++ fs) = walkAll parent es ++ walkAll parent fs := by
  induction es with
  | nil => simp
  | cons e es ih => simp [walkAll, ih]

end Element

end FluentPlan
