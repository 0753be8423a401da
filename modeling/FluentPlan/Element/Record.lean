import FluentPlan.Element
import FluentPlan.Failure
import FluentPlan.Json.Printer
import FluentPlan.Json.Reader

/-!
Elements as JSON objects. Writing leaves out an absent name and the mark of an enabled element, and
sorts the properties; reading accepts any order and refuses keys that it does not know.
-/

namespace FluentPlan.Element

/-- The keys that an object of an element may have. -/
def recordKeys : List String := ["discriminator", "name", "enabled", "properties", "children"]

def refuse {α : Type} (p : SchemaProblem) (path : Option String) : Except Failure α :=
  .error (.problem (.schema p) path)

/-- The kind of an element, which is never empty. -/
def readKind (entries : List (String × Json)) (path : Option String) : Except Failure String :=
  match entries.lookup "discriminator" with
  | some (.text s) => if s.isEmpty then refuse .noKind path else .ok s
  | _ => refuse .noKind path

def readName (entries : List (String × Json)) (path : Option String) :
    Except Failure (Option String) :=
  match entries.lookup "name" with
  | none | some .null => .ok none
  | some (.text s) => .ok (some s)
  | some _ => refuse .nameNotText path

def readEnabled (entries : List (String × Json)) (path : String) : Except Failure Bool :=
  match entries.lookup "enabled" with
  | none => .ok true
  | some (.bool b) => .ok b
  | some _ => refuse .enabledNotBool (some path)

/-- Properties, each with a text as its value. -/
def readEntries (path : String) : List (String × Json) → Properties → Except Failure Properties
  | [], props => .ok props
  | (k, .text v) :: rest, props => readEntries path rest (props.put k v)
  | (k, _) :: _, _ => refuse (.propertyNotText k) (some path)

def readProperties (entries : List (String × Json)) (path : String) : Except Failure Properties :=
  match entries.lookup "properties" with
  | none => .ok .empty
  | some (.object es) => readEntries path es .empty
  | some _ => refuse .propertiesNotObject (some path)

/-- Refuses keys that no element has. -/
def checkKeys (entries : List (String × Json)) (path : String) : Except Failure Unit :=
  match (entries.map Prod.fst).filter fun k => !recordKeys.contains k with
  | [] => .ok ()
  | unknown => refuse (.unknownKeys (unknown.mergeSort fun a b => decide (a ≤ b))) (some path)

mutual

/-- The element that a document stands for, below `parent`. -/
def ofJson (parent : String) : Json → Except Failure Element
  | .object entries => do
    let above := if parent.isEmpty then none else some parent
    let kind ← readKind entries above
    let name ← readName entries above
    let path := pathUnder parent (labelOf kind name)
    let enabled ← readEnabled entries path
    let properties ← readProperties entries path
    let children ← readChildren path entries
    checkKeys entries path
    return ⟨kind, name, enabled, properties, children⟩
  | .null | .bool _ | .number _ | .text _ | .list _ =>
    refuse .notAnObject (if parent.isEmpty then none else some parent)

/-- The children among the entries of an element. -/
def readChildren (path : String) : List (String × Json) → Except Failure (List Element)
  | [] => .ok []
  | (k, .list items) :: rest =>
    if k = "children" then ofItems path items else readChildren path rest
  | (k, _) :: rest =>
    if k = "children" then refuse .childrenNotList (some path) else readChildren path rest

def ofItems (path : String) : List Json → Except Failure (List Element)
  | [] => .ok []
  | j :: js => do
    let e ← ofJson path j
    let es ← ofItems path js
    return e :: es

end

mutual

/-- The document of an element. -/
def toJson : Element → Json
  | ⟨kind, name, enabled, properties, children⟩ =>
    .object (("discriminator", .text kind) ::
      (name.toList.map fun n => ("name", .text n)) ++
      (if enabled then [] else [("enabled", .bool false)]) ++
      [("properties", .object (properties.sorted.map fun (k, v) => (k, .text v))),
        ("children", .list (toItems children))])

def toItems : List Element → List Json
  | [] => []
  | e :: es => toJson e :: toItems es

end

/-- The text of an element. -/
def dump (e : Element) : String := String.ofList (e.toJson.print 0 ++ ['\n'])

/-- The element that a text holds. -/
def ofText (text : String) : Except Failure Element :=
  match Json.read .refuse text.toList with
  | .ok j => ofJson "" j
  | .error (.repeated key) => refuse (.repeatedKey key) none
  | .error (.malformed p left) =>
    let (line, col) := Json.place text.toList left
    refuse (.malformedJson line col p) none

end FluentPlan.Element
