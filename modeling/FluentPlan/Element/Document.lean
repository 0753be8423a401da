import FluentPlan.Element
import FluentPlan.Failure
import FluentPlan.Markup.Reader

/-!
Elements from plan documents in markup. An element is followed by a tree that holds its children.
Its properties are nested in the document; here they become flat: the names of the containers and of
the property, with slashes between them, and positions in place of names inside collections.
-/

namespace FluentPlan.Element

/-- The tags of properties that hold a value. -/
def valueTags : List String :=
  ["stringProp", "boolProp", "intProp", "longProp", "doubleProp", "floatProp"]

def groupTag : String := "elementProp"

def collectionTag : String := "collectionProp"

/-- The tag of the trees that hold elements. -/
def treeTag : String := "hashTree"

def rootTag : String := "jmeterTestPlan"

/-- The name and the raw text of a value: in an attribute and the text, or each in a child. -/
def namedValue (m : Markup) : String × String :=
  match m.attribute? "name" with
  | some n => (n, m.text)
  | none => (m.childText "name", m.childText "value")

mutual

/-- Puts the properties among parts of a document behind `lead`. -/
def putNamed (lead : String) : List Markup → Properties → Properties
  | [], props => props
  | ⟨tag, attributes, text, children⟩ :: rest, props =>
    let m : Markup := ⟨tag, attributes, text, children⟩
    let inner := lead ++ (m.attribute? "name").getD "" ++ "/"
    putNamed lead rest <|
      if valueTags.contains tag then props.put (lead ++ (namedValue m).1) (namedValue m).2
      else if tag = groupTag then putNamed inner children props
      else if tag = collectionTag then putIndexed inner 0 children props
      else props

/-- Puts the entries of a collection behind `lead`, each under its position from `index` on. -/
def putIndexed (lead : String) (index : Nat) : List Markup → Properties → Properties
  | [], props => props
  | ⟨tag, attributes, text, children⟩ :: rest, props =>
    let key := lead ++ toString index
    putIndexed lead (index + 1) rest <|
      if valueTags.contains tag then
        props.put key (namedValue ⟨tag, attributes, text, children⟩).2
      else if tag = groupTag then putNamed (key ++ "/") children props
      else if tag = collectionTag then putIndexed (key ++ "/") 0 children props
      else props

end

/-- The element of a tag, without its children. -/
def ofTag (m : Markup) : Element :=
  let editor := (m.attribute? "guiclass").getD ""
  let props : Properties :=
    if editor.isEmpty then .empty else Properties.empty.put editorClass editor
  ⟨m.tag, m.attribute? "testname", m.attribute? "enabled" ≠ some "false",
    putNamed "" m.children props, []⟩

/-- The elements of a tree, behind those in `before`, the last of them first. -/
def ofTree (path : String) : (before : List Element) → List Markup → Except Failure (List Element)
  | before, [] => .ok before.reverse
  | before, ⟨tag, attributes, text, children⟩ :: rest =>
    if tag = treeTag then
      match before with
      | [] =>
        .error (.problem (.schema .treeWithoutElement) (if path.isEmpty then none else some path))
      | e :: before => do
        let below ← ofTree (path ++ "/" ++ e.label) [] children
        ofTree path ({ e with children := e.children ++ below } :: before) rest
    else ofTree path (ofTag ⟨tag, attributes, text, children⟩ :: before) rest

/-- The element of a plan document, which holds exactly one. -/
def ofMarkup (m : Markup) : Except Failure Element :=
  let refuse (p : SchemaProblem) : Except Failure Element := .error (.report (.schema p))
  if m.tag ≠ rootTag then refuse (.wrongRoot m.tag)
  else match m.child? treeTag with
    | none => refuse .noTopTree
    | some tree =>
      match ofTree "" [] tree.children with
      | .error f => .error f
      | .ok [e] => .ok e
      | .ok es => refuse (.planCount es.length)

/-- The element that a text in markup holds. -/
def ofMarkupText (text : String) : Except Failure Element :=
  match Markup.ofText? text with
  | some m => ofMarkup m
  | none => .error (.report (.schema .malformedMarkup))

end FluentPlan.Element
