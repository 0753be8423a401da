import FluentPlan.Script.Parser

/-!
The grammar of builder code as a relation between expressions and what their tokens say. Positions
play no part in it. `Expr.unplaced` forgets them, so that expressions which say the same become
equal.
-/

namespace FluentPlan.Script

/-- What a token says. -/
abbrev Word := TokenKind × String

namespace Word

def op (s : String) : Word := (.op, s)

def ident (s : String) : Word := (.ident, s)

end Word

open Word

/-- Words that are literals, so that no name begins with them. -/
def literalWords : List String := ["true", "false", "null"]

/-- The words of the further parts of a dotted name. -/
def partWords : List String → List Word
  | [] => []
  | s :: ss => op "." :: ident s :: partWords ss

/-- A name of one or more parts with points between them. -/
def IsName (name : String) (ws : List Word) : Prop :=
  ∃ s ss, s ∉ literalWords ∧ name = String.intercalate "." (s :: ss) ∧ ws = ident s :: partWords ss

/-- The kinds of tokens that are numbers. -/
def IsNumeric (kind : TokenKind) : Prop := kind = .int ∨ kind = .float

mutual

/-- The words of an expression. -/
inductive IsExpr : Expr → List Word → Prop
  | text (pos : Position) (s : String) : IsExpr (.text pos s) [(.text, s)]
  | number (pos : Position) {kind : TokenKind} (hk : IsNumeric kind) (t : String) :
      IsExpr (.number pos t) [(kind, t)]
  | negative (pos : Position) {kind : TokenKind} (hk : IsNumeric kind) (t : String) :
      IsExpr (.number pos ("-" ++ t)) [op "-", (kind, t)]
  | bool (pos : Position) (b : Bool) :
      IsExpr (.bool pos b) [ident (if b then "true" else "false")]
  | null (pos : Position) : IsExpr (.null pos) [ident "null"]
  | name (pos : Position) {name : String} {ws : List Word} (hn : IsName name ws) :
      IsExpr (.name pos name) ws
  | call (pos : Position) {name : String} {as : List Expr} {cs : List (Invocation Expr)}
      {ns ws vs : List Word} (hn : IsName name ns) (ha : IsArgs as ws) (hc : IsChain cs vs) :
      IsExpr (.call ⟨pos, name, as⟩ cs) (ns ++ op "(" :: ws ++ op ")" :: vs)

/-- The words between the parentheses of a call. -/
inductive IsArgs : List Expr → List Word → Prop
  | none : IsArgs [] []
  | some {es : List Expr} {ws : List Word} (h : IsSeries es ws) : IsArgs es ws

/-- The words of one or more expressions with commas between them. -/
inductive IsSeries : List Expr → List Word → Prop
  | one {e : Expr} {ws : List Word} (h : IsExpr e ws) : IsSeries [e] ws
  | more {e : Expr} {es : List Expr} {ws vs : List Word} (h : IsExpr e ws)
      (hs : IsSeries es vs) : IsSeries (e :: es) (ws ++ op "," :: vs)

/-- The words of chained calls. -/
inductive IsChain : List (Invocation Expr) → List Word → Prop
  | nil : IsChain [] []
  | cons (pos : Position) (name : String) {as : List Expr} {cs : List (Invocation Expr)}
      {ws vs : List Word} (ha : IsArgs as ws) (hc : IsChain cs vs) :
      IsChain (⟨pos, name, as⟩ :: cs)
        (op "." :: ident name :: op "(" :: ws ++ op ")" :: vs)

end

theorem IsSeries.append {es fs : List Expr} {ws vs : List Word} (he : IsSeries es ws)
    (hf : IsSeries fs vs) : IsSeries (es ++ fs) (ws ++ op "," :: vs) := by
  induction es generalizing ws with
  | nil => cases he
  | cons e es ih =>
    cases he with
    | one h => exact .more h hf
    | more h hs =>
      rw [List.append_assoc]
      exact .more h (ih hs)

/-! ### Expressions without their positions -/

namespace Expr

mutual

/-- An expression with all its positions at the start. -/
def unplaced : Expr → Expr
  | .text _ s => .text .start s
  | .number _ t => .number .start t
  | .bool _ b => .bool .start b
  | .null _ => .null .start
  | .name _ n => .name .start n
  | .call ⟨_, n, as⟩ cs => .call ⟨.start, n, unplacedAll as⟩ (unplacedChain cs)

def unplacedAll : List Expr → List Expr
  | [] => []
  | e :: es => unplaced e :: unplacedAll es

def unplacedChain : List (Invocation Expr) → List (Invocation Expr)
  | [] => []
  | ⟨_, n, as⟩ :: cs => ⟨.start, n, unplacedAll as⟩ :: unplacedChain cs

end

end Expr

/-- A program with all positions at the start. -/
def Program.unplaced (p : Program) : Program :=
  ⟨p.definitions.map fun d => ⟨d.name, d.returnType, d.body.unplaced, 1⟩, p.expr.unplaced⟩

/-! ### Expressions without calls of `children` that pass nothing -/

namespace Expr

mutual

/-- An expression without the chained calls of `children` that have no arguments. -/
def pruned : Expr → Expr
  | .text pos s => .text pos s
  | .number pos t => .number pos t
  | .bool pos b => .bool pos b
  | .null pos => .null pos
  | .name pos n => .name pos n
  | .call ⟨pos, n, as⟩ cs => .call ⟨pos, n, prunedAll as⟩ (prunedChain cs)

def prunedAll : List Expr → List Expr
  | [] => []
  | e :: es => pruned e :: prunedAll es

def prunedChain : List (Invocation Expr) → List (Invocation Expr)
  | [] => []
  | ⟨pos, n, as⟩ :: cs =>
    if n = "children" && as.isEmpty then prunedChain cs
    else ⟨pos, n, prunedAll as⟩ :: prunedChain cs

end

theorem prunedAll_eq_map (es : List Expr) : prunedAll es = es.map pruned := by
  induction es with
  | nil => rfl
  | cons e es ih => rw [prunedAll, ih, List.map_cons]

theorem prunedChain_append (cs ds : List (Invocation Expr)) :
    prunedChain (cs ++ ds) = prunedChain cs ++ prunedChain ds := by
  induction cs with
  | nil => rfl
  | cons c cs ih =>
    obtain ⟨pos, n, as⟩ := c
    rw [List.cons_append, prunedChain, prunedChain, ih]
    split <;> rfl

end Expr

def Program.pruned (p : Program) : Program :=
  ⟨p.definitions.map fun d => { d with body := d.body.pruned }, p.expr.pruned⟩

end FluentPlan.Script
