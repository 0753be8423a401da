/-!
Markup documents: elements with attributes, the text before their first child, and children. Names
that belong to a namespace begin with its address in braces.
-/

namespace FluentPlan

structure Markup where
  tag : String
  attributes : List (String × String)
  text : String
  children : List Markup
deriving Repr, Inhabited

namespace Markup

def attribute? (m : Markup) (name : String) : Option String := m.attributes.lookup name

/-- The first child with a given tag. -/
def child? (m : Markup) (tag : String) : Option Markup := m.children.find? (·.tag = tag)

/-- The text of the first child with a given tag, empty where there is none. -/
def childText (m : Markup) (tag : String) : String :=
  match m.child? tag with
  | some c => c.text
  | none => ""

/-- What stands between two tags, in order. -/
inductive Item where
  | text (cs : List Char)
  | element (m : Markup)

/-- The text before the first element. -/
def leadingText : List Item → List Char
  | .text cs :: items => cs ++ leadingText items
  | _ => []

def elementsOf (items : List Item) : List Markup :=
  items.filterMap fun i =>
    match i with
    | .text _ => none
    | .element m => some m

end Markup

end FluentPlan
