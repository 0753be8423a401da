import FluentPlan.Markup
import FluentPlan.Markup.Declarations

/-!
Reading markup documents: a prolog with at most one document type, one element, and nothing but
comments and instructions behind it. Namespaces are resolved on the way. Every fault is alike: the
text is no document.
-/

namespace FluentPlan.Markup

/-- Namespace addresses by their prefixes; the empty prefix is the default one. -/
abbrev Scope := List (String × String)

def ownSpace : String := "http://www.w3.org/XML/1998/namespace"

def declaringSpace : String := "http://www.w3.org/2000/xmlns/"

/-- The scope outside all elements. -/
def outerScope : Scope := [("xml", ownSpace)]

/-- A name with its namespace address. -/
def expanded (address name : String) : String :=
  if address.isEmpty then name else "\x7b" ++ address ++ "\x7d" ++ name

/-- The name of an element in a scope. -/
def elementName? (scope : Scope) (n : QName) : Option String :=
  match scope.lookup n.space with
  | some address => some (expanded address n.name)
  | none => if n.space.isEmpty then some n.name else none

/-- The name of an attribute in a scope; without a prefix it has no namespace. -/
def attributeName? (scope : Scope) (n : QName) : Option String :=
  if n.space.isEmpty then some n.name
  else (scope.lookup n.space).map fun address => expanded address n.name

/-- The prefix that an attribute declares, if it declares one. -/
def declaredPrefix? (n : QName) : Option String :=
  if n = ⟨"", "xmlns"⟩ then some ""
  else if n.space = "xmlns" then some n.name
  else none

/-- Binds a prefix. The two reserved prefixes keep their meaning, and only the default one can be
unbound. -/
def bindPrefix (scope : Scope) (pre address : String) : Option Scope :=
  if pre = "xmlns" then none
  else if pre = "xml" then if address = ownSpace then some scope else none
  else if address = ownSpace || address = declaringSpace then none
  else if address.isEmpty && !pre.isEmpty then none
  else if address.toList.contains '\x7d' then none
  else some ((pre, address) :: scope)

/-- The scope inside an element, and its other attributes. -/
def enterScope : Scope → List (QName × List Char) → Option (Scope × List (QName × List Char))
  | scope, [] => some (scope, [])
  | scope, (n, v) :: rest =>
    match declaredPrefix? n with
    | some pre => (bindPrefix scope pre (String.ofList v)).bind (enterScope · rest)
    | none => (enterScope scope rest).map fun (s, attrs) => (s, (n, v) :: attrs)

/-! ### Tags -/

/-- Attributes as they are written, up to the end of a start tag. -/
def rawAttributes? : (fuel : Nat) → List Char → Option (List (QName × List Char) × List Char)
  | 0, _ => none
  | fuel + 1, cs =>
    match skipSpace cs with
    | '>' :: r => some ([], '>' :: r)
    | '/' :: '>' :: r => some ([], '/' :: '>' :: r)
    | body => do
      if body.length = cs.length then none
      let (n, r) ← qname? body
      match skipSpace r with
      | '=' :: r =>
        match skipSpace r with
        | q :: r =>
          if q = '"' || q = '\'' then
            match r.dropWhile (· ≠ q) with
            | _ :: rest =>
              let (more, rest) ← rawAttributes? fuel rest
              return ((n, r.takeWhile (· ≠ q)) :: more, rest)
            | [] => none
          else none
        | [] => none
      | _ => none

/-- What reading an element knows: the declarations, the entities that are being read, and how to
read another one. -/
structure Context where
  declarations : Declarations
  active : List String
  expand : Scope → String → Option (List Item)

namespace Context

/-- An attribute with its value. -/
def value? (c : Context) (element : String) (a : QName × List Char) : Option (QName × List Char) :=
  let tokenized := match c.declarations.rule? element a.1.text with
    | some r => r.tokenized
    | none => false
  (attributeValue c.declarations c.active tokenized a.2).map fun v => (a.1, v)

/-- The defaults for the attributes that an element does not have. -/
def defaults (c : Context) (element : String) (given : List QName) : List (QName × List Char) :=
  c.declarations.attributes.filterMap fun r =>
    match r.default, qname? r.key.toList with
    | some v, some (n, _) => if r.element = element && !given.contains n then some (n, v) else none
    | _, _ => none

/-- The scope inside an element and its attributes with their full names, all distinct. -/
def attributes? (c : Context) (scope : Scope) (element : String) (raw : List (QName × List Char)) :
    Option (Scope × List (String × String)) := do
  let given ← raw.mapM (c.value? element)
  let names := given.map Prod.fst
  if names.eraseDups.length ≠ names.length then none
  let (scope, attrs) ← enterScope scope (given ++ c.defaults element names)
  let attrs ← attrs.mapM fun (n, v) => (attributeName? scope n).map fun k => (k, String.ofList v)
  let keys := attrs.map Prod.fst
  if keys.eraseDups.length ≠ keys.length then none
  return (scope, attrs)

end Context

/-- An end tag from behind its opening. -/
def endTag? (n : QName) (cs : List Char) : Option (List Char) := do
  let (m, r) ← qname? cs
  if m ≠ n then none
  match skipSpace r with
  | '>' :: r => some r
  | _ => none

def sectionOpening : List Char := "![CDATA[".toList

def isPlain (c : Char) : Bool := c ≠ '<' && c ≠ '&' && c ≠ ']' && isMarkupChar c

/-! ### Elements and their content -/

mutual

/-- What stands up to the next end tag or to the end of the text. -/
def content? (c : Context) : (fuel : Nat) → Scope → List Char → Option (List Item × List Char)
  | 0, _, _ => none
  | fuel + 1, scope, cs =>
    match cs with
    | [] => some ([], [])
    | '<' :: '/' :: r => some ([], '<' :: '/' :: r)
    | '<' :: '!' :: '-' :: '-' :: r => (skipComment? r).bind (content? c fuel scope)
    | '<' :: '?' :: r => (skipInstruction? r).bind (content? c fuel scope)
    | '<' :: r =>
      match word? sectionOpening r with
      | some r => do
        let (t, r) ← plainSection? r
        let (items, r) ← content? c fuel scope r
        return (.text t :: items, r)
      | none => do
        let (m, r) ← element? c fuel scope r
        let (items, r) ← content? c fuel scope r
        return (.element m :: items, r)
    | '&' :: r => do
      let (ref, r) ← reference? r
      let first ← match ref with
        | .char d => some [.text [d]]
        | .entity n =>
          match ownEntities.lookup n with
          | some d => some [.text [d]]
          | none => c.expand scope n
      let (items, r) ← content? c fuel scope r
      return (first ++ items, r)
    | ']' :: ']' :: '>' :: _ => none
    | ']' :: r => do
      let (items, r) ← content? c fuel scope r
      return (.text [']'] :: items, r)
    | d :: _ =>
      if isPlain d then do
        let (items, r) ← content? c fuel scope (cs.dropWhile isPlain)
        return (.text (cs.takeWhile isPlain) :: items, r)
      else none

/-- An element, from behind the opening of its start tag. -/
def element? (c : Context) : (fuel : Nat) → Scope → List Char → Option (Markup × List Char)
  | 0, _, _ => none
  | fuel + 1, scope, cs => do
    let (n, r) ← qname? cs
    let (raw, r) ← rawAttributes? (r.length + 1) r
    let (scope, attrs) ← c.attributes? scope n.text raw
    let tag ← elementName? scope n
    match r with
    | '/' :: r => some (⟨tag, attrs, "", []⟩, r.drop 1)
    | '>' :: r =>
      let (items, r) ← content? c fuel scope r
      let r ← endTag? n (r.drop 2)
      return (⟨tag, attrs, String.ofList (leadingText items), elementsOf items⟩, r)
    | _ => none

end

/-- Reads the replacement text of an entity as content. Elements begin and end in one text. -/
def expandContent (d : Declarations) : (depth : Nat) → (active : List String) → Scope → String →
    Option (List Item)
  | 0, _, _, _ => none
  | depth + 1, active, scope, name =>
    match d.entities.lookup name with
    | some (some text) =>
      if active.contains name then none
      else
        let inner := name :: active
        match content? ⟨d, inner, expandContent d depth inner⟩ (2 * text.length + 2) scope text with
        | some (items, []) => some items
        | _ => none
    | _ => none

/-! ### Documents -/

/-- Splits off a setting of the declaration at the very beginning: a blank, a name, and a value. -/
def setting? (cs : List Char) : Option (String × List Char × List Char) :=
  match cs with
  | c :: _ =>
    if !isSpace c then none
    else
      let r := skipSpace cs
      let name := r.takeWhile Char.isAlpha
      match skipSpace (r.dropWhile Char.isAlpha) with
      | '=' :: r =>
        match skipSpace r with
        | q :: r =>
          let value := r.takeWhile (· ≠ q)
          let isPart (c : Char) : Bool := c.isAlphanum || c = '.' || c = '-' || c = '_'
          match r.dropWhile (· ≠ q) with
          | _ :: r =>
            if (q = '"' || q = '\'') && value.all isPart then some (String.ofList name, value, r)
            else none
          | [] => none
        | [] => none
      | _ => none
  | [] => none

/-- What is left behind the end of the declaration at the very beginning. -/
def closeDeclaration? (cs : List Char) : Option (List Char) := word? ['?', '>'] (skipSpace cs)

/-- Whether the document stands alone, and what is left behind the setting. -/
def standalone? (cs : List Char) : Option (Bool × List Char) :=
  match closeDeclaration? cs with
  | some r => some (false, r)
  | none =>
    match setting? cs with
    | some ("standalone", v, r) =>
      if v = "yes".toList then (closeDeclaration? r).map fun r => (true, r)
      else if v = "no".toList then (closeDeclaration? r).map fun r => (false, r)
      else none
    | _ => none

/-- The declaration at the very beginning, from behind its name. The encoding that it names is of no
effect. -/
def documentDeclaration? (cs : List Char) : Option (Bool × List Char) :=
  match setting? cs with
  | some ("version", _, r) =>
    match setting? r with
    | some ("encoding", v, r) =>
      if v.head?.any Char.isAlpha then standalone? r else none
    | _ => standalone? r
  | _ => none

/-- Skips comments, instructions and blanks, and reads at most one document type. -/
def prolog? : (fuel : Nat) → (typed : Bool) → Declarations → List Char →
    Option (Declarations × List Char)
  | 0, _, _, _ => none
  | fuel + 1, typed, d, cs =>
    match skipSpace cs with
    | '<' :: '?' :: r => (skipInstruction? r).bind (prolog? fuel typed d)
    | '<' :: '!' :: '-' :: '-' :: r => (skipComment? r).bind (prolog? fuel typed d)
    | '<' :: '!' :: r =>
      match typed, word? "DOCTYPE".toList r with
      | false, some r =>
        match doctype? d r with
        | some (d, r) => prolog? fuel true d r
        | none => none
      | _, _ => none
    | '<' :: r => some (d, r)
    | _ => none

/-- Whether nothing but comments, instructions and blanks is left. -/
def isEpilog : (fuel : Nat) → List Char → Bool
  | 0, _ => false
  | fuel + 1, cs =>
    match skipSpace cs with
    | [] => true
    | '<' :: '?' :: r => (skipInstruction? r).any (isEpilog fuel)
    | '<' :: '!' :: '-' :: '-' :: r => (skipComment? r).any (isEpilog fuel)
    | _ => false

/-- A mark at the beginning that shows the order of bytes. -/
def dropByteOrderMark : List Char → List Char
  | '\uFEFF' :: r => r
  | cs => cs

/-- The document of a text. -/
def ofText? (text : String) : Option Markup := do
  let cs := normalizeLines (dropByteOrderMark text.toList)
  let (alone, r) ← match word? "<?xml".toList cs with
    | some (c :: r) =>
      if isSpace c then documentDeclaration? (c :: r) else some (false, cs)
    | _ => some (false, cs)
  let (d, r) ← prolog? (r.length + 1) false (.empty alone) r
  let (m, r) ← element? ⟨d, [], expandContent d (d.entities.length + 1) []⟩ (2 * r.length + 2)
    outerScope r
  if isEpilog (r.length + 1) r then some m else none

end FluentPlan.Markup
