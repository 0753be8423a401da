import FluentPlan.Call

/-!
Keys of calls, by which repeated calls are found. A key keeps what shows in code and drops labels,
categories and what the code needs around it. Numbers count by their value.
-/

namespace FluentPlan

/-- What a value counts as in a comparison. -/
inductive ValueKey where
  | number (factor exponent : Int)
  | other (value : Value)
deriving DecidableEq, Repr

def Value.key (v : Value) : ValueKey :=
  match v.number? with
  | some (m, e) => .number m e
  | none => .other v

/-- What an argument counts as in a comparison. -/
inductive ArgKey where
  | scalar (kind : String) (prop : Option String) (rendered : Bool) (value : Option ValueKey)
  | children
deriving DecidableEq, Repr

def Arg.key (a : Arg) : ArgKey :=
  match a with
  | .scalar p v => .scalar p.kind.name p.prop a.isRendered (v.map Value.key)
  | .children => .children

/-- What a call counts as in a comparison. -/
structure CallKey where
  method : String
  commented : Bool
  empty : Bool
  args : List ArgKey
  children : List CallKey
  chain : List CallKey
deriving Repr

namespace CallKey

mutual

def beq : CallKey → CallKey → Bool
  | ⟨m, c, e, as, ks, ls⟩, ⟨m', c', e', as', ks', ls'⟩ =>
    m = m' && c = c' && e = e' && as = as' && beqAll ks ks' && beqAll ls ls'

def beqAll : List CallKey → List CallKey → Bool
  | [], [] => true
  | k :: ks, l :: ls => beq k l && beqAll ks ls
  | _, _ => false

end

mutual

theorem eq_of_beq : {k l : CallKey} → beq k l = true → k = l
  | ⟨_, _, _, _, ks, ls⟩, ⟨_, _, _, _, ks', ls'⟩, h => by
    simp only [beq, Bool.and_eq_true, decide_eq_true_eq] at h
    obtain ⟨⟨⟨⟨⟨rfl, rfl⟩, rfl⟩, rfl⟩, hk⟩, hl⟩ := h
    rw [eq_of_beqAll hk, eq_of_beqAll hl]

theorem eq_of_beqAll : {ks ls : List CallKey} → beqAll ks ls = true → ks = ls
  | [], [], _ => rfl
  | k :: ks, l :: ls, h => by
    simp only [beqAll, Bool.and_eq_true] at h
    rw [eq_of_beq h.1, eq_of_beqAll h.2]

end

mutual

theorem beq_self : (k : CallKey) → beq k k = true
  | ⟨_, _, _, _, ks, ls⟩ => by simp [beq, beqAll_self ks, beqAll_self ls]

theorem beqAll_self : (ks : List CallKey) → beqAll ks ks = true
  | [] => rfl
  | k :: ks => by simp [beqAll, beq_self k, beqAll_self ks]

end

instance : DecidableEq CallKey := fun k l =>
  if h : beq k l = true then isTrue (eq_of_beq h) else isFalse fun e => h (e ▸ beq_self k)

end CallKey

namespace Call

mutual

/-- The key of a call. -/
def key : Call → CallKey
  | ⟨head, children, chain⟩ =>
    ⟨head.method, head.commented, head.role = .empty, head.args.map Arg.key, keyAll children,
      keyAll chain⟩

def keyAll : List Call → List CallKey
  | [] => []
  | c :: cs => key c :: keyAll cs

end

theorem keyAll_eq_map (cs : List Call) : keyAll cs = cs.map key := by
  induction cs with
  | nil => simp [keyAll]
  | cons c cs ih => simp [keyAll, ih]

end Call

end FluentPlan
