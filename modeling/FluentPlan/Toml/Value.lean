/-!
TOML documents: tables of values under dotted keys. Numbers and times are not told apart. A table
that a header, a dotted key or an inline value has defined is not defined again elsewhere.
-/

namespace FluentPlan

inductive Toml where
  | text (value : String)
  | bool (value : Bool)
  | list (items : List Toml)
  | table (entries : List (String × Toml))
  | other
deriving Repr, Inhabited

namespace Toml

abbrev Key := List String

abbrev Entries := List (String × Toml)

/-- Puts a value under a key that is there. -/
def replaceEntry (key : String) (v : Toml) : Entries → Entries
  | [] => []
  | (k, w) :: r => if k = key then (k, v) :: r else (k, w) :: replaceEntry key v r

/-- Changes the table at the end of a path; tables on the way that are missing are made. With
`lists` a path goes on in the last item of a list. -/
def modify (lists : Bool) (f : Entries → Option Entries) : Key → Entries → Option Entries
  | [], es => f es
  | k :: ks, es =>
    match es.lookup k with
    | none => (modify lists f ks []).map fun t => es ++ [(k, .table t)]
    | some (.table t) => (modify lists f ks t).map fun t => replaceEntry k (.table t) es
    | some (.list items) =>
      match lists, items.getLast? with
      | true, some (.table t) =>
        (modify lists f ks t).map fun t => replaceEntry k (.list (items.dropLast ++ [.table t])) es
      | _, _ => none
    | some _ => none

/-- Adds an entry under a new key. -/
def insertNew (key : String) (v : Toml) (es : Entries) : Option Entries :=
  if (es.lookup key).isSome then none else some (es ++ [(key, v)])

/-- Adds an empty table to the list under a key. -/
def appendTable (key : String) (es : Entries) : Option Entries :=
  match es.lookup key with
  | none => some (es ++ [(key, .list [.table []])])
  | some (.list items) => some (replaceEntry key (.list (items ++ [.table []])) es)
  | some _ => none

/-- Whether a value is closed to later additions once it is written. -/
def isContainer : Toml → Bool
  | list _ | table _ => true
  | _ => false

/-- Adds an entry under a dotted key. -/
def insertAt (lists : Bool) (path : Key) (v : Toml) (es : Entries) : Option Entries :=
  match path.getLast? with
  | some last => modify lists (insertNew last v) path.dropLast es
  | none => none

/-- A document while it is read: what it holds, the path of the last header, the paths that are
closed with all below them, those that no header may name again, and those that join them at the
next header. -/
structure Draft where
  entries : Entries
  header : Key
  closed : List Key
  defined : List Key
  pending : List Key
deriving Inhabited

namespace Draft

def empty : Draft := ⟨[], [], [], [], []⟩

def isClosed (d : Draft) (path : Key) : Bool := d.closed.any (·.isPrefixOf path)

/-- Lets the pending paths join the defined ones. -/
def settle (d : Draft) : Draft := { d with defined := d.defined ++ d.pending, pending := [] }

/-- Begins a table. -/
def openTable (d : Draft) (path : Key) : Option Draft :=
  let d := d.settle
  if d.defined.contains path || d.isClosed path then none
  else (modify true some path d.entries).map fun es =>
    { d with entries := es, header := path, defined := path :: d.defined }

/-- Begins a table at the end of a list. What was said below the list concerns an earlier item. -/
def openItem (d : Draft) (path : Key) : Option Draft :=
  let d := d.settle
  match d.isClosed path, path.getLast? with
  | false, some last =>
    let keep (l : List Key) : List Key := l.filter fun k => !path.isPrefixOf k
    (modify true (appendTable last) path.dropLast d.entries).map fun es =>
      { d with
        entries := es, header := path, closed := keep d.closed, defined := path :: keep d.defined }
  | _, _ => none

/-- The paths of the tables that a dotted key goes through. -/
def between (header path : Key) : List Key :=
  (List.range (path.length - 1)).map fun i => header ++ path.take (i + 1)

/-- Adds an entry below the last header. -/
def insert (d : Draft) (path : Key) (v : Toml) : Option Draft :=
  let full := d.header ++ path
  let through := between d.header path
  if through.any d.defined.contains || d.isClosed full.dropLast then none
  else (insertAt true full v d.entries).map fun es =>
    { d with
      entries := es, pending := d.pending ++ through,
      closed := if v.isContainer then full :: d.closed else d.closed }

end Draft

end Toml

end FluentPlan
