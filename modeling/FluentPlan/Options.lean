import FluentPlan.Catalog.Registry

/-!
Options of a conversion, and their reading from the entries of a document.
-/

namespace FluentPlan

structure Options where
  indent : String := "  "
  categories : List String := defaultCategories
  textBlocks : Bool := true
  /-- Whether disabled elements are kept as comments instead of being dropped. -/
  commentDisabled : Bool := true
  hoist : Bool := true
  /-- The version of the library to compile against; an empty one is not written. -/
  version : String := "1.29"
  className : String := "PerformanceTest"
  loadPlugins : Bool := true
deriving DecidableEq, Repr, Inhabited

/-- An entry of an options document. Values that no option takes are not kept apart. -/
inductive Setting where
  | text (value : String)
  | bool (value : Bool)
  | texts (items : List String)
  | other
deriving DecidableEq, Repr, Inhabited

/-- What an option holds, with the way to set it. -/
inductive OptionSlot where
  | text (set : Options → String → Options)
  | bool (set : Options → Bool → Options)
  | texts (set : Options → List String → Options)

namespace Options

/-- The options by the names under which documents set them. -/
def slots : List (String × OptionSlot) :=
  [("indent", .text fun o s => { o with indent := s }),
    ("category_order", .texts fun o l => { o with categories := l }),
    ("text_blocks", .bool fun o b => { o with textBlocks := b }),
    ("comment_disabled", .bool fun o b => { o with commentDisabled := b }),
    ("hoist_definitions", .bool fun o b => { o with hoist := b }),
    ("dsl_version", .text fun o s => { o with version := s }),
    ("class_name", .text fun o s => { o with className := s }),
    ("load_plugins", .bool fun o b => { o with loadPlugins := b })]

/-- The name that a key stands for: hyphens may be written for underscores. -/
def nameOfKey (key : String) : String :=
  String.ofList (key.toList.map fun c => if c = '-' then '_' else c)

/-- Sets one option. -/
def set (o : Options) (key : String) (s : Setting) : Except OptionsProblem Options :=
  match slots.lookup (nameOfKey key), s with
  | none, _ => .error (.unknownKey key)
  | some (.text f), .text v => .ok (f o v)
  | some (.text _), _ => .error (.wrongType key "str")
  | some (.bool f), .bool v => .ok (f o v)
  | some (.bool _), _ => .error (.wrongType key "bool")
  | some (.texts f), .texts l =>
    if l.isEmpty || Text.distinct l ≠ l then .error (.notDistinct key) else .ok (f o l)
  | some (.texts _), _ => .error (.notTexts key)

/-- Sets options one after the other. -/
def setAll (o : Options) : List (String × Setting) → Except OptionsProblem Options
  | [] => .ok o
  | (key, s) :: rest => do
    let o ← o.set key s
    o.setAll rest

/-- Whether the indentation is made of spaces and tabs. -/
def hasProperIndent (o : Options) : Bool := o.indent.toList.all fun c => c = ' ' || c = '\t'

/-- The options of a document; `source` is how messages name it. -/
def ofSettings (source : String) (entries : List (String × Setting)) : Except Failure Options :=
  let named (p : OptionsProblem) : Failure := .report (.options source p)
  match setAll {} entries with
  | .error p => .error (named p)
  | .ok o => if o.hasProperIndent then .ok o else .error (named .badIndent)

end Options

end FluentPlan
