import FluentPlan.Markup.Reference

/-!
The declarations of a document type that stand in the document itself: entities and attributes with
defaults. Of several declarations of one name the first counts. Element and notation declarations
are checked for their form only.
-/

namespace FluentPlan.Markup

/-- A declared attribute. -/
structure AttributeRule where
  element : String
  key : String
  /-- Whether blanks are trimmed and runs of them count as one. -/
  tokenized : Bool
  default : Option (List Char)

structure Declarations where
  /-- Replacement texts, absent for entities that stand outside the document. -/
  entities : List (String × Option (List Char))
  attributes : List AttributeRule
  standalone : Bool
  /-- Whether there may be declarations outside the document. -/
  incomplete : Bool
  /-- Whether declarations still count: behind a parameter entity they do not. -/
  live : Bool

namespace Declarations

def empty (standalone : Bool) : Declarations := ⟨[], [], standalone, false, true⟩

/-- Whether a reference to an unknown entity is an error. -/
def strict (d : Declarations) : Bool := !d.incomplete || d.standalone

/-- Notes that not all declarations are known. -/
def notePart (d : Declarations) : Declarations := { d with incomplete := true }

/-- Notes a reference to a parameter entity. -/
def noteReference (d : Declarations) : Declarations :=
  { d with incomplete := true, live := d.standalone }

def declareEntity (d : Declarations) (name : String) (text : Option (List Char)) : Declarations :=
  if !d.live || (ownEntities.lookup name).isSome || (d.entities.lookup name).isSome then d
  else { d with entities := d.entities ++ [(name, text)] }

def rule? (d : Declarations) (element key : String) : Option AttributeRule :=
  d.attributes.find? fun r => r.element = element && r.key = key

def declareAttribute (d : Declarations) (r : AttributeRule) : Declarations :=
  if !d.live || (d.rule? r.element r.key).isSome then d
  else { d with attributes := d.attributes ++ [r] }

end Declarations

/-! ### Attribute values -/

/-- Adds a blank to a value under construction, which is kept in reverse. -/
def pushBlank (tokenized : Bool) (acc : List Char) : List Char :=
  if tokenized then
    match acc with
    | [] => []
    | ' ' :: r => ' ' :: r
    | acc => ' ' :: acc
  else ' ' :: acc

def dropLastBlank (tokenized : Bool) (acc : List Char) : List Char :=
  if tokenized then
    match acc with
    | ' ' :: r => r
    | acc => acc
  else acc

/-- Reads a value, in reverse behind `acc`. `expand` reads the replacement text of an entity. -/
def valueChars (tokenized : Bool)
    (expand : (acc : List Char) → (name : String) → Option (List Char)) :
    (fuel : Nat) → (acc : List Char) → List Char → Option (List Char)
  | 0, _, _ => none
  | _ + 1, acc, [] => some acc
  | fuel + 1, acc, '&' :: r => do
    let (ref, r) ← reference? r
    let acc ← match ref with
      | .char ' ' => some (pushBlank tokenized acc)
      | .char c => some (c :: acc)
      | .entity n =>
        match ownEntities.lookup n with
        | some c => some (c :: acc)
        | none => expand acc n
    valueChars tokenized expand fuel acc r
  | fuel + 1, acc, c :: r =>
    if c = '<' || !isMarkupChar c then none
    else if isSpace c then valueChars tokenized expand fuel (pushBlank tokenized acc) r
    else valueChars tokenized expand fuel (c :: acc) r

/-- Reads the replacement text of an entity into a value. `active` are the entities that are being
read; none of them may be named again. -/
def expandValue (d : Declarations) (tokenized : Bool) : (depth : Nat) → (active : List String) →
    (acc : List Char) → (name : String) → Option (List Char)
  | 0, _, _, _ => none
  | depth + 1, active, acc, name =>
    match d.entities.lookup name with
    | some (some text) =>
      if active.contains name then none
      else valueChars tokenized (expandValue d tokenized depth (name :: active)) (text.length + 1)
        acc text
    | some none => none
    | none => if d.strict then none else some acc

/-- The value that stands between the quotes of an attribute. -/
def attributeValue (d : Declarations) (active : List String) (tokenized : Bool) (raw : List Char) :
    Option (List Char) :=
  (valueChars tokenized (expandValue d tokenized (d.entities.length + 1) active) (raw.length + 1)
    [] raw).map fun acc => (dropLastBlank tokenized acc).reverse

/-! ### Tokens of declarations -/

inductive Mark where
  | name (n : QName)
  /-- A name with a mark of repetition behind it. -/
  | repeatedName
  /-- A token that does not begin as a name does. -/
  | word
  | keyword (name : String)
  | literal (cs : List Char)
  | openGroup
  | closeGroup
  | closeRepeated (mark : Char)
  | comma
  | bar
  | percent
deriving DecidableEq, Repr

def isRepetition (c : Char) : Bool := c = '*' || c = '+' || c = '?'

/-- Whether what follows is one of the given characters or a blank. -/
def followedBy (marks : List Char) : List Char → Bool
  | c :: _ => isSpace c || marks.contains c
  | [] => false

/-- A literal from behind its opening quote, with a proper end. -/
def literal? (quote : Char) (cs : List Char) : Option (List Char × List Char) :=
  let body := cs.takeWhile (· ≠ quote)
  match cs.dropWhile (· ≠ quote) with
  | _ :: r => if body.all isMarkupChar && followedBy ['>', '%', '['] r then some (body, r) else none
  | [] => none

/-- A name or another word of name characters. -/
def wordMark? (cs : List Char) : Option (Mark × List Char) :=
  match qname? cs with
  | some (n, r) =>
    match r with
    | c :: r' =>
      if isRepetition c then some (.repeatedName, r')
      else if followedBy ['>', ')', ',', '|', '[', '%'] r then some (.name n, r)
      else wordBehind cs
    | [] => none
  | none => wordBehind cs
where
  wordBehind (cs : List Char) : Option (Mark × List Char) :=
    let isPart (c : Char) : Bool := isNameChar c || c = ':'
    let r := cs.dropWhile isPart
    if (cs.takeWhile isPart).isEmpty || cs.head? = some ':' then none
    else if followedBy ['>', ')', ',', '|', '[', '%'] r then some (.word, r) else none

/-- The token at the head of a text. -/
def mark? : List Char → Option (Mark × List Char)
  | '(' :: r => some (.openGroup, r)
  | ',' :: r => some (.comma, r)
  | '|' :: r => some (.bar, r)
  | ')' :: r =>
    match r with
    | c :: r' =>
      if isRepetition c then some (.closeRepeated c, r')
      else if followedBy ['>', ',', '|', ')'] r then some (.closeGroup, r) else none
    | [] => none
  | '%' :: r => if followedBy ['%'] r then some (.percent, r) else none
  | '#' :: r =>
    match name? r with
    | some (n, r) => if followedBy [')', '>', '%', '|'] r then some (.keyword n, r) else none
    | none => none
  | '"' :: r => (literal? '"' r).map fun (t, r) => (.literal t, r)
  | '\'' :: r => (literal? '\'' r).map fun (t, r) => (.literal t, r)
  | cs => wordMark? cs

/-- The tokens up to one of the characters `ends`, which is not taken. -/
def marks? (ends : List Char) : (fuel : Nat) → List Char → Option (List Mark × List Char)
  | 0, _ => none
  | fuel + 1, cs =>
    match skipSpace cs with
    | [] => none
    | c :: r =>
      if ends.contains c then some ([], c :: r)
      else do
        let (m, r) ← mark? (c :: r)
        let (ms, r) ← marks? ends fuel r
        return (m :: ms, r)

def Mark.isName (m : Mark) : Bool :=
  match m with
  | .name _ => true
  | _ => false

/-- The name that a token is, if it has no prefix. -/
def Mark.plainName? : Mark → Option String
  | .name ⟨"", n⟩ => some n
  | _ => none

def QName.text (n : QName) : String := if n.space.isEmpty then n.name else n.space ++ ":" ++ n.name

/-! ### Declarations -/

/-- Whether a text may be a public identifier. -/
def isPublicText (cs : List Char) : Bool :=
  cs.all fun c => c.isAlphanum || " \n\r-'()+,./:=?;!*#@$_%".toList.contains c

/-- The replacement text of an entity: references to characters are resolved, those to entities are
kept. -/
def replacement? : (fuel : Nat) → List Char → Option (List Char)
  | 0, _ => none
  | _ + 1, [] => some []
  | fuel + 1, '&' :: r => do
    let (ref, rest) ← reference? r
    let tail ← replacement? fuel rest
    match ref with
    | .char c => some (c :: tail)
    | .entity n => some ('&' :: n.toList ++ ';' :: tail)
  | _ + 1, '%' :: _ => none
  | fuel + 1, c :: r => (replacement? fuel r).map (c :: ·)

/-- What names a place outside the document, and the tokens behind it. -/
def externalId? : List Mark → Option (List Mark)
  | .name ⟨"", "SYSTEM"⟩ :: .literal _ :: r => some r
  | .name ⟨"", "PUBLIC"⟩ :: .literal p :: .literal _ :: r => if isPublicText p then some r else none
  | _ => none

/-- The text of an entity with a given value. Once declarations do not count it is not looked at. -/
def entityText? (d : Declarations) (v : List Char) : Option (List Char) :=
  if d.live then replacement? (v.length + 1) v else some []

/-- A declaration of an entity, from behind its keyword. -/
def entityRule? (d : Declarations) (ms : List Mark) : Option Declarations :=
  match ms with
  | .percent :: .name ⟨"", _⟩ :: r =>
    match r with
    | [.literal v] => (entityText? d v).map fun _ => d
    | r => if externalId? r = some [] then some d else none
  | .name ⟨"", n⟩ :: r =>
    match r with
    | [.literal v] => (entityText? d v).map fun t => d.declareEntity n (some t)
    | r =>
      match externalId? r with
      | some [] => some (d.declareEntity n none)
      | some [.name ⟨"", "NDATA"⟩, .name ⟨"", _⟩] => some (d.declareEntity n none)
      | _ => none
  | _ => none

def isNotationRule (ms : List Mark) : Bool :=
  match ms with
  | .name ⟨"", _⟩ :: .name ⟨"", "SYSTEM"⟩ :: [.literal _] => true
  | .name ⟨"", _⟩ :: .name ⟨"", "PUBLIC"⟩ :: .literal p :: r =>
    isPublicText p && (r = [] || match r with
      | [.literal _] => true
      | _ => false)
  | _ => false

/-- Whether tokens go on with and end a group of text and names. -/
def isMixedTail : List Mark → Bool
  | [.closeRepeated c] => c = '*'
  | .bar :: .name _ :: r => isMixedTail r
  | _ => false

/-- Whether tokens form groups that are open as deep as `groups` is long. Each group knows its
connector once it has one; `item` says whether an item must come next. -/
def isGroups (item : Bool) : (groups : List (Option Mark)) → List Mark → Bool
  | [], [] => !item
  | [], _ => false
  | groups, .openGroup :: r => item && isGroups true (none :: groups) r
  | groups, .name _ :: r => item && isGroups false groups r
  | groups, .repeatedName :: r => item && isGroups false groups r
  | _ :: groups, .closeGroup :: r => !item && isGroups false groups r
  | _ :: groups, .closeRepeated _ :: r => !item && isGroups false groups r
  | g :: groups, .comma :: r => !item && g ≠ some .bar && isGroups true (some .comma :: groups) r
  | g :: groups, .bar :: r => !item && g ≠ some .comma && isGroups true (some .bar :: groups) r
  | _, _ => false

def isElementRule (ms : List Mark) : Bool :=
  match ms with
  | .name _ :: r =>
    match r with
    | [.name ⟨"", n⟩] => n = "EMPTY" || n = "ANY"
    | .openGroup :: .keyword n :: r =>
      n = "PCDATA" && (r = [.closeGroup] || r = [.closeRepeated '*'] || isMixedTail r)
    | .openGroup :: r => isGroups true [none] r
    | _ => false
  | _ => false

/-- The types of attributes whose values are trimmed. -/
def tokenTypes : List String :=
  ["ID", "IDREF", "IDREFS", "ENTITY", "ENTITIES", "NMTOKEN", "NMTOKENS"]

/-- What is left behind the choices of a group, from behind its opening. -/
def skipChoices? (names : Bool) : List Mark → Option (List Mark)
  | m :: .bar :: r => if isChoice m then skipChoices? names r else none
  | m :: .closeGroup :: r => if isChoice m then some r else none
  | _ => none
where
  isChoice (m : Mark) : Bool :=
    match m with
    | .name n => !names || n.space.isEmpty
    | .word => !names
    | _ => false

/-- The type of an attribute: whether its values are trimmed, and the tokens behind it. -/
def attributeType? : List Mark → Option (Bool × List Mark)
  | .name ⟨"", "CDATA"⟩ :: r => some (false, r)
  | .name ⟨"", "NOTATION"⟩ :: .openGroup :: r => (skipChoices? true r).map fun r => (true, r)
  | .name ⟨"", n⟩ :: r => if tokenTypes.contains n then some (true, r) else none
  | .openGroup :: r => (skipChoices? false r).map fun r => (true, r)
  | _ => none

/-- Declares an attribute with a default. Once declarations do not count it is not looked at. -/
def withDefault? (d : Declarations) (element key : String) (tokenized : Bool)
    (raw : List Char) : Option Declarations :=
  if !d.live then some d
  else (attributeValue d [] tokenized raw).map fun v =>
    d.declareAttribute ⟨element, key, tokenized, some v⟩

/-- Declarations of attributes of an element. -/
def attributeRules? (element : String) : (fuel : Nat) → Declarations → List Mark →
    Option Declarations
  | _, d, [] => some d
  | 0, _, _ => none
  | fuel + 1, d, .name n :: r => do
    let (tokenized, r) ← attributeType? r
    match r with
    | .keyword k :: r =>
      if k = "IMPLIED" || k = "REQUIRED" then
        attributeRules? element fuel (d.declareAttribute ⟨element, n.text, tokenized, none⟩) r
      else if k = "FIXED" then
        match r with
        | .literal v :: r =>
          let d ← withDefault? d element n.text tokenized v
          attributeRules? element fuel d r
        | _ => none
      else none
    | .literal v :: r =>
      let d ← withDefault? d element n.text tokenized v
      attributeRules? element fuel d r
    | _ => none
  | _, _, _ => none

/-- A declaration, from behind its exclamation mark. -/
def declaration? (d : Declarations) (cs : List Char) : Option (Declarations × List Char) := do
  let keyword := cs.takeWhile Char.isAlpha
  let r := cs.dropWhile Char.isAlpha
  if !followedBy [] r then none
  let (ms, r) ← marks? ['>'] (r.length + 1) r
  let rest := r.drop 1
  match String.ofList keyword with
  | "ENTITY" => (entityRule? d ms).map fun d => (d, rest)
  | "ATTLIST" =>
    match ms with
    | .name n :: ms => (attributeRules? n.text ms.length d ms).map fun d => (d, rest)
    | _ => none
  | "ELEMENT" => if isElementRule ms then some (d, rest) else none
  | "NOTATION" => if isNotationRule ms then some (d, rest) else none
  | _ => none

/-- Declarations up to the bracket that closes them. -/
def subset? : (fuel : Nat) → Declarations → List Char → Option (Declarations × List Char)
  | 0, _, _ => none
  | fuel + 1, d, cs =>
    match skipSpace cs with
    | ']' :: r => some (d, r)
    | '%' :: r =>
      match name? r with
      | some (_, ';' :: r) => subset? fuel d.noteReference r
      | _ => none
    | '<' :: '!' :: '-' :: '-' :: r => (skipComment? r).bind (subset? fuel d)
    | '<' :: '!' :: r =>
      match declaration? d r with
      | some (d, r) => subset? fuel d r
      | none => none
    | '<' :: '?' :: r => (skipInstruction? r).bind (subset? fuel d)
    | _ => none

/-- A document type, from behind its keyword. -/
def doctype? (d : Declarations) (cs : List Char) : Option (Declarations × List Char) := do
  if !followedBy [] cs then none
  let (ms, r) ← marks? ['[', '>'] (cs.length + 1) cs
  let d ← match ms with
    | [.name _] => some d
    | .name _ :: ms => if externalId? ms = some [] then some d.notePart else none
    | _ => none
  match r with
  | '>' :: r => some (d, r)
  | '[' :: r => do
    let (d, r) ← subset? (r.length + 1) d r
    match skipSpace r with
    | '>' :: r => some (d, r)
    | _ => none
  | _ => none

end FluentPlan.Markup
