import FluentPlan.Text.Quoted

/-!
Tokens of builder code and their positions. Lines and columns count from one, in characters.
-/

namespace FluentPlan.Script

/-- A place in a source text. -/
structure Position where
  line : Nat
  col : Nat
deriving DecidableEq, Repr, Inhabited

namespace Position

/-- The first place of a text. -/
def start : Position := ⟨1, 1⟩

/-- The place after one character. -/
def step (p : Position) (c : Char) : Position :=
  if c = '\n' then ⟨p.line + 1, 1⟩ else ⟨p.line, p.col + 1⟩

/-- The place after a piece of text. -/
def advance (p : Position) (cs : List Char) : Position := cs.foldl step p

@[simp] theorem advance_nil (p : Position) : p.advance [] = p := rfl

@[simp] theorem advance_cons (p : Position) (c : Char) (cs : List Char) :
    p.advance (c :: cs) = (p.step c).advance cs := rfl

@[simp] theorem advance_append (p : Position) (cs ds : List Char) :
    p.advance (cs ++ ds) = (p.advance cs).advance ds := by
  simp [advance, List.foldl_append]

end Position

inductive TokenKind where
  | int
  | float
  | text
  | ident
  | op
  | eof
deriving DecidableEq, Repr, Inhabited

namespace TokenKind

def name : TokenKind → String
  | int => "INT"
  | float => "FLOAT"
  | text => "STRING"
  | ident => "IDENT"
  | op => "OP"
  | eof => "EOF"

end TokenKind

/-- A token: its kind, its value with escapes resolved, and where it begins. -/
structure Token where
  kind : TokenKind
  value : String
  pos : Position
deriving DecidableEq, Repr, Inhabited

namespace Token

/-- What a token says, apart from its place. -/
def content (t : Token) : TokenKind × String := (t.kind, t.value)

def isOp (t : Token) (value : String) : Bool := t.kind = .op && t.value = value

/-- How messages name a token. -/
def shown (t : Token) : String :=
  match t.kind with
  | .eof => "end of input"
  | .text => "string literal"
  | _ => "'" ++ t.value ++ "'"

/-- A token in full, for inspection. -/
def inspect (t : Token) : String :=
  "Token(" ++ t.kind.name ++ ", " ++ Text.quoted t.value ++ ", " ++ toString t.pos.line ++ ", " ++
    toString t.pos.col ++ ")"

end Token

end FluentPlan.Script
