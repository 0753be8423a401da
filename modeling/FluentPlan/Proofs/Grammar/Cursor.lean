import FluentPlan.Script.Parser

/-!
The parser on indices. A reading looks at a list of tokens at an index and moves on. It stops by
itself where it would look at an index that the list does not have, and where it has used up the
steps it was given, so that neither can pass for an answer about the tokens.
-/

namespace FluentPlan.Script.Cursor

/-- Why a reading has no result. -/
inductive Stop where
  /-- The tokens form no program. -/
  | refused (p : ParseProblem) (pos : Position)
  /-- The list has no token at the index. -/
  | outOfRange
  /-- The steps are used up. -/
  | outOfSteps

section

variable (ts : List Token)

/-! ### Tokens -/

def tokenAt (i : Nat) : Except Stop Token :=
  match ts[i]? with
  | some t => .ok t
  | none => .error .outOfRange

/-- The token some way ahead, where the last token stands for all that would come behind it. -/
def look (i ahead : Nat) : Except Stop Token := tokenAt ts (min (i + ahead) (ts.length - 1))

/-- The token at an index, and the index behind it. There is none behind the end mark. -/
def take (i : Nat) : Except Stop (Token × Nat) := do
  let t ← tokenAt ts i
  return (t, if t.kind = .eof then i else i + 1)

def atOp (value : String) (i : Nat) : Except Stop Bool := do
  let t ← look ts i 0
  return t.isOp value

/-- Takes the next token if `accepts` holds of it; `what` says what was expected. -/
def expect (accepts : Token → Bool) (what : String) (i : Nat) : Except Stop (Token × Nat) := do
  let t ← look ts i 0
  if accepts t then take ts i else throw (.refused (.expected what t) t.pos)

def expectOp (value : String) : Nat → Except Stop (Token × Nat) :=
  expect ts (·.isOp value) ("'" ++ value ++ "'")

def expectIdent : Nat → Except Stop (Token × Nat) := expect ts (·.kind = .ident) "identifier"

def expectWord (word : String) : Nat → Except Stop (Token × Nat) :=
  expect ts (fun t => t.kind = .ident ∧ t.value = word) ("'" ++ word ++ "'")

/-! ### Expressions -/

/-- The further parts of a dotted name. -/
def parts : (steps : Nat) → Nat → Except Stop (List String × Nat)
  | 0, _ => .error .outOfSteps
  | steps + 1, i => do
    if ← atOp ts "." i then
      let next ← look ts i 1
      if next.kind = .ident then
        let (_, i) ← take ts i
        let (t, i) ← take ts i
        let (ss, i) ← parts steps i
        return (t.value :: ss, i)
      else return ([], i)
    else return ([], i)

/-- A name, or where a call's arguments begin. -/
def named (steps i : Nat) : Except Stop (Primary × Nat) := do
  let (t, i) ← expectIdent ts i
  let (ss, i) ← parts ts steps i
  let name := String.intercalate "." (t.value :: ss)
  if ← atOp ts "(" i then
    let (_, i) ← take ts i
    return (.callOf t.pos name, i)
  else return (.value (.name t.pos name), i)

/-- What an expression begins with. -/
def primary (steps i : Nat) : Except Stop (Primary × Nat) := do
  let t ← look ts i 0
  if t.kind = .text then
    let (_, i) ← take ts i
    return (.value (.text t.pos t.value), i)
  else if isNumber t then
    let (_, i) ← take ts i
    return (.value (.number t.pos t.value), i)
  else if t.isOp "-" then
    let (_, i) ← take ts i
    let n ← look ts i 0
    if isNumber n then
      let (_, i) ← take ts i
      return (.value (.number t.pos ("-" ++ n.value)), i)
    else throw (.refused .numberAfterMinus n.pos)
  else if t.kind = .ident then
    if t.value = "true" ∨ t.value = "false" then
      let (_, i) ← take ts i
      return (.value (.bool t.pos (t.value = "true")), i)
    else if t.value = "null" then
      let (_, i) ← take ts i
      return (.value (.null t.pos), i)
    else named ts steps i
  else throw (.refused (.unexpected t) t.pos)

mutual

/-- An expression with its chain. -/
def expr : (steps : Nat) → Nat → Except Stop (Expr × Nat)
  | 0, _ => .error .outOfSteps
  | steps + 1, i => do
    let (x, i) ← primary ts steps i
    match x with
    | .value e =>
      if ← atOp ts "." i then
        let t ← look ts i 0
        throw (.refused .chainOnValue t.pos)
      else return (e, i)
    | .callOf pos name =>
      let (as, i) ← args steps i
      let (cs, i) ← chain steps i
      return (.call ⟨pos, name, as⟩ cs, i)

/-- The calls chained to a call. -/
def chain : (steps : Nat) → Nat → Except Stop (List (Invocation Expr) × Nat)
  | 0, _ => .error .outOfSteps
  | steps + 1, i => do
    if ← atOp ts "." i then
      let (_, i) ← take ts i
      let (t, i) ← expectIdent ts i
      let (_, i) ← expectOp ts "(" i
      let (as, i) ← args steps i
      let (cs, i) ← chain steps i
      return (⟨t.pos, t.value, as⟩ :: cs, i)
    else return ([], i)

/-- Arguments up to the closing parenthesis. -/
def args : (steps : Nat) → Nat → Except Stop (List Expr × Nat)
  | 0, _ => .error .outOfSteps
  | steps + 1, i => do
    if ← atOp ts ")" i then
      let (_, i) ← take ts i
      return ([], i)
    else someArgs steps i

/-- One or more arguments up to the closing parenthesis. -/
def someArgs : (steps : Nat) → Nat → Except Stop (List Expr × Nat)
  | 0, _ => .error .outOfSteps
  | steps + 1, i => do
    let (a, i) ← expr steps i
    if ← atOp ts "," i then
      let (_, i) ← take ts i
      let (as, i) ← someArgs steps i
      return (a :: as, i)
    else
      let (_, i) ← expectOp ts ")" i
      return ([a], i)

end

/-! ### Programs -/

/-- Passes the words that may stand before a definition. -/
def passModifiers : (steps : Nat) → Nat → Except Stop (Unit × Nat)
  | 0, _ => .error .outOfSteps
  | steps + 1, i => do
    let t ← look ts i 0
    if isModifier t then
      let (_, i) ← take ts i
      passModifiers steps i
    else return ((), i)

/-- Whether a definition begins at an index. -/
def startsDefinition (i : Nat) : Except Stop Bool := do
  let t ← look ts i 0
  if t.kind = .ident then
    if isModifier t then return true
    else
      let next ← look ts i 1
      if next.kind = .ident then
        let third ← look ts i 2
        return third.value = "("
      else return false
  else return false

def definition (steps i : Nat) : Except Stop (Definition × Nat) := do
  let start ← look ts i 0
  let (_, i) ← passModifiers ts steps i
  let (type, i) ← expectIdent ts i
  let (name, i) ← expectIdent ts i
  let (_, i) ← expectOp ts "(" i
  let (_, i) ← expectOp ts ")" i
  let (_, i) ← expectOp ts "\x7b" i
  let (_, i) ← expectWord ts "return" i
  let (body, i) ← expr ts steps i
  let (_, i) ← expectOp ts ";" i
  let (_, i) ← expectOp ts "\x7d" i
  return (⟨name.value, type.value, body, start.pos.line⟩, i)

/-- Definitions as long as one begins, each with a name of its own. -/
def definitions : (steps : Nat) → (known : List Definition) → Nat →
    Except Stop (List Definition × Nat)
  | 0, _, _ => .error .outOfSteps
  | steps + 1, known, i => do
    if ← startsDefinition ts i then
      let (d, i) ← definition ts steps i
      if known.any (·.name = d.name) then
        throw (.refused (.repeatedDefinition d.name) ⟨d.line, 1⟩)
      else definitions steps (known ++ [d]) i
    else return (known, i)

/-- The program that the tokens form, and the index at which the reading ends. -/
def program (steps : Nat) : Except Stop (Program × Nat) := do
  let (ds, i) ← definitions ts steps [] 0
  let (e, i) ← expr ts steps i
  let i ← if ← atOp ts ";" i then Prod.snd <$> take ts i else pure i
  let t ← look ts i 0
  if t.kind = .eof then return (⟨ds, e⟩, i) else throw (.refused (.afterExpression t) t.pos)

end

end FluentPlan.Script.Cursor
