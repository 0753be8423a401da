import FluentPlan.Json.Value
import FluentPlan.Options
import FluentPlan.Toml.Reader

/-!
Options from documents. In a TOML document they stand at the top, in a table of their own, or in
that table inside the one for tools.
-/

namespace FluentPlan

namespace Setting

/-- The texts of a list, if it holds nothing else. -/
def ofTexts {α : Type} (text? : α → Option String) (items : List α) : Setting :=
  match items.mapM text? with
  | some l => .texts l
  | none => .other

def ofJson : Json → Setting
  | .text s => .text s
  | .bool b => .bool b
  | .list items => ofTexts (fun j => match j with
    | .text s => some s
    | _ => none) items
  | _ => .other

def ofToml : Toml → Setting
  | .text s => .text s
  | .bool b => .bool b
  | .list items => ofTexts (fun t => match t with
    | .text s => some s
    | _ => none) items
  | _ => .other

end Setting

namespace Options

/-- The table that holds the options. -/
def tableName : String := "jmdsl"

/-- The table that holds the tables of tools. -/
def toolsName : String := "tool"

/-- The options among the entries of a document. -/
def settingsOf (es : Toml.Entries) : Except Failure Toml.Entries :=
  let ofTools := match es.lookup toolsName with
    | some (.table t) => t.lookup tableName
    | _ => none
  match ofTools, es.lookup tableName with
  | some (.table t), _ => .ok t
  | some _, _ => .error (.fault .optionsNotATable)
  | none, some (.table t) => .ok t
  | none, _ => .ok es

/-- The options that a TOML document sets. -/
def ofToml (source text : String) : Except Failure Options :=
  match Toml.ofText? text with
  | none => .error (.report (.options source .malformed))
  | some es => do
    let entries ← settingsOf es
    ofSettings source (entries.map fun (k, v) => (k, .ofToml v))

/-- The options that the entries of a JSON object set. -/
def ofJson (source : String) (entries : List (String × Json)) : Except Failure Options :=
  ofSettings source (entries.map fun (k, v) => (k, .ofJson v))

end Options

end FluentPlan
