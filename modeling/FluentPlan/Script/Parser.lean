import FluentPlan.Failure
import FluentPlan.Script.Expr
import FluentPlan.Script.Lexer

/-!
Programs from tokens.

    program    := definition* expr ';'? end
    definition := modifier* type IDENT '(' ')' '{' 'return' expr ';' '}'
    expr       := primary ('.' IDENT '(' args ')')*
    primary    := TEXT | '-'? number | 'true' | 'false' | 'null' | qualified ('(' args ')')?
    qualified  := IDENT ('.' IDENT)*
    args       := (expr (',' expr)*)?

Each function takes the tokens from its place on and gives back those behind what it read. The end
mark is never taken. At most three calls are nested between one token that is taken and the next, so
three times the number of tokens bounds the depth.
-/

namespace FluentPlan.Script

/-- The token at the head, or an end mark. -/
def peek : List Token → Token
  | t :: _ => t
  | [] => ⟨.eof, "", .start⟩

def grammarError {α : Type} (p : ParseProblem) (pos : Position) : Except Failure α :=
  .error (.report (.grammar p pos))

/-- Takes the given operator. -/
def expectOp (value : String) : List Token → Except Failure (List Token)
  | t :: ts =>
    if t.isOp value then .ok ts else grammarError (.expected ("'" ++ value ++ "'") t) t.pos
  | [] => grammarError (.expected ("'" ++ value ++ "'") (peek [])) (peek []).pos

/-- Takes an identifier. -/
def expectIdent : List Token → Except Failure (Token × List Token)
  | t :: ts =>
    if t.kind = .ident then .ok (t, ts) else grammarError (.expected "identifier" t) t.pos
  | [] => grammarError (.expected "identifier" (peek [])) (peek []).pos

/-- Takes a given word. -/
def expectWord (word : String) : List Token → Except Failure (List Token)
  | t :: ts =>
    if t.kind = .ident ∧ t.value = word then .ok ts
    else grammarError (.expected ("'" ++ word ++ "'") t) t.pos
  | [] => grammarError (.expected ("'" ++ word ++ "'") (peek [])) (peek []).pos

/-- The further parts of a dotted name. -/
def dottedParts : List Token → List String × List Token
  | d :: t :: ts =>
    if d.isOp "." && t.kind = .ident then
      let (parts, r) := dottedParts ts
      (t.value :: parts, r)
    else ([], d :: t :: ts)
  | ts => ([], ts)

def isNumber (t : Token) : Bool := t.kind = .int || t.kind = .float

/-- A literal, or a name with its place; `none` where a call's arguments begin. -/
inductive Primary where
  | value (e : Expr)
  | callOf (pos : Position) (name : String)

/-- What an expression begins with. The opening parenthesis of a call is taken. -/
def primary : List Token → Except Failure (Primary × List Token)
  | [] => grammarError (.unexpected (peek [])) (peek []).pos
  | t :: ts =>
    if t.kind = .text then .ok (.value (.text t.pos t.value), ts)
    else if isNumber t then .ok (.value (.number t.pos t.value), ts)
    else if t.isOp "-" then
      match ts with
      | n :: r =>
        if isNumber n then .ok (.value (.number t.pos ("-" ++ n.value)), r)
        else grammarError .numberAfterMinus n.pos
      | [] => grammarError .numberAfterMinus (peek []).pos
    else if t.kind = .ident then
      if t.value = "true" ∨ t.value = "false" then
        .ok (.value (.bool t.pos (t.value = "true")), ts)
      else if t.value = "null" then .ok (.value (.null t.pos), ts)
      else
        let (parts, r) := dottedParts ts
        let name := String.intercalate "." (t.value :: parts)
        if (peek r).isOp "(" then .ok (.callOf t.pos name, r.tail)
        else .ok (.value (.name t.pos name), r)
    else grammarError (.unexpected t) t.pos

mutual

/-- An expression with its chain. -/
def expr : (fuel : Nat) → List Token → Except Failure (Expr × List Token)
  | 0, ts => grammarError (.unexpected (peek ts)) (peek ts).pos
  | fuel + 1, ts =>
    match primary ts with
    | .error e => .error e
    | .ok (.value e, r) =>
      if (peek r).isOp "." then grammarError .chainOnValue (peek r).pos else .ok (e, r)
    | .ok (.callOf pos name, r) =>
      match args fuel r with
      | .error e => .error e
      | .ok (as, r) =>
        match chain fuel r with
        | .error e => .error e
        | .ok (cs, r) => .ok (.call ⟨pos, name, as⟩ cs, r)

/-- The calls chained to a call. -/
def chain : (fuel : Nat) → List Token → Except Failure (List (Invocation Expr) × List Token)
  | 0, ts => grammarError (.unexpected (peek ts)) (peek ts).pos
  | fuel + 1, ts =>
    if (peek ts).isOp "." then
      match expectIdent ts.tail with
      | .error e => .error e
      | .ok (t, r) =>
        match expectOp "(" r with
        | .error e => .error e
        | .ok r =>
          match args fuel r with
          | .error e => .error e
          | .ok (as, r) =>
            match chain fuel r with
            | .error e => .error e
            | .ok (cs, r) => .ok (⟨t.pos, t.value, as⟩ :: cs, r)
    else .ok ([], ts)

/-- Arguments up to the closing parenthesis, from behind the opening one. -/
def args : (fuel : Nat) → List Token → Except Failure (List Expr × List Token)
  | 0, ts => grammarError (.unexpected (peek ts)) (peek ts).pos
  | fuel + 1, ts => if (peek ts).isOp ")" then .ok ([], ts.tail) else someArgs fuel ts

/-- One or more arguments up to the closing parenthesis. -/
def someArgs : (fuel : Nat) → List Token → Except Failure (List Expr × List Token)
  | 0, ts => grammarError (.unexpected (peek ts)) (peek ts).pos
  | fuel + 1, ts =>
    match expr fuel ts with
    | .error e => .error e
    | .ok (a, r) =>
      if (peek r).isOp "," then
        match someArgs fuel r.tail with
        | .error e => .error e
        | .ok (as, r) => .ok (a :: as, r)
      else
        match expectOp ")" r with
        | .error e => .error e
        | .ok r => .ok ([a], r)

end

/-- Fuel for tokens: no reading of an expression goes deeper. -/
def depthBound (ts : List Token) : Nat := 3 * ts.length + 3

/-- The words that may stand before a definition. -/
def isModifier (t : Token) : Bool :=
  t.kind = .ident && ["private", "public", "protected", "static", "final"].contains t.value

/-- Whether a definition begins here: a modifier, or a type and a name before a parenthesis. -/
def startsDefinition (ts : List Token) : Bool :=
  let t := peek ts
  t.kind = .ident &&
    (isModifier t || ((peek (ts.drop 1)).kind = .ident && (peek (ts.drop 2)).value = "("))

/-- A definition. -/
def definition (ts : List Token) : Except Failure (Definition × List Token) := do
  let start := peek ts
  let (type, r) ← expectIdent (ts.dropWhile isModifier)
  let (name, r) ← expectIdent r
  let r ← expectOp "(" r
  let r ← expectOp ")" r
  let r ← expectOp "\x7b" r
  let r ← expectWord "return" r
  let (body, r) ← expr (depthBound r) r
  let r ← expectOp ";" r
  let r ← expectOp "\x7d" r
  return (⟨name.value, type.value, body, start.pos.line⟩, r)

/-- Definitions as long as one begins, each with a name of its own. -/
def definitions : (fuel : Nat) → (known : List Definition) → List Token →
    Except Failure (List Definition × List Token)
  | 0, known, ts => .ok (known, ts)
  | fuel + 1, known, ts =>
    if startsDefinition ts then do
      let (d, r) ← definition ts
      if known.any (·.name = d.name) then
        grammarError (.repeatedDefinition d.name) ⟨d.line, 1⟩
      else definitions fuel (known ++ [d]) r
    else .ok (known, ts)

/-- The program that tokens form. -/
def program (ts : List Token) : Except Failure Program := do
  let (ds, r) ← definitions ts.length [] ts
  let (e, r) ← expr (depthBound r) r
  let r := if (peek r).isOp ";" then r.tail else r
  let t := peek r
  if t.kind = .eof then return ⟨ds, e⟩ else grammarError (.afterExpression t) t.pos

/-- The program of a source text. -/
def parse (source : String) : Except Failure Program := do
  let ts ← tokenize source
  program ts

end FluentPlan.Script
