import FluentPlan.Proofs.Assembly.Head
import FluentPlan.Proofs.Building.Resolution
import FluentPlan.Proofs.Rebuilding.Restored

/-!
What code says of an element. A form that makes an element of the call restores what was said, as long
as each value goes to its own parameter or to one that takes it for the same reference.
-/

namespace FluentPlan

open Build Script Element

/-- What code says of an element by a signature: values, and the calls of its modifiers. None of them is
missing, doubles are what their texts spell, and the name refers to no variable. -/
structure Told (s : Signature) (e : Element) (vs : List (Param × Option Value))
    (blocks : List (Modifier × List Call)) : Prop where
  values : scalarValues s e = .ok vs
  modifiers : blocks.map Prod.fst = s.modifiers
  calls : ∀ b ∈ blocks, modifierCalls e b.1 = .ok b.2
  shown : ∀ x ∈ vs, (Arg.scalar x.1 x.2).isRendered = true → x.2 ≠ none ∧ Param.ReadsDouble x.2
  said : ∀ b ∈ blocks, ∀ c ∈ b.2, SaysValues c
  name : ∀ n, e.name = some n → isDynamic n = false

/-! ### Values of a signature -/

namespace Param

/-- The default of a parameter for names refers to no variable. -/
theorem static_default {p : Param} (hp : p.isRestorable = true) (hk : p.kind = .displayName) :
    ∃ t, p.default = some (.text t) ∧ isDynamic t = false := by
  obtain ⟨kind, prop, default, required, mandatory⟩ := p
  have hk : kind = .displayName := hk
  subst hk
  simp only [isRestorable, isRestored, Bool.and_eq_true, Bool.or_eq_true] at hp
  obtain ⟨⟨⟨-, hread⟩, -⟩, ⟨-, hsome⟩ | hplaced⟩ := hp
  · obtain ⟨v, rfl⟩ := Option.isSome_iff_exists.mp hsome
    simp only [readsDefault, ParamKind.read, Bool.and_eq_true, Bool.not_eq_true',
      decide_eq_true_eq] at hread
    obtain ⟨⟨⟨-, hd⟩, -⟩, hv⟩ := hread
    exact ⟨_, congrArg some hv.symm, hd⟩
  · simp [isPlaced] at hplaced

/-- The value of a parameter for names is a text that refers to no variable. -/
theorem static_name {p : Param} (hp : p.isRestorable = true) (hk : p.kind = .displayName)
    {e : Element} (he : ∀ n, e.name = some n → isDynamic n = false) {v : Option Value}
    (h : p.valueOf e "" = .ok v) : ∃ t, v = some (.text t) ∧ isDynamic t = false := by
  obtain ⟨d, hd, hdd⟩ := static_default hp hk
  simp only [valueOf, hk, extract, parse] at h
  split at h
  · cases h
    exact ⟨d, hd, hdd⟩
  · next n hn =>
    split_ifs at h with hempty hdyn
    · cases h
      exact ⟨d, hd, hdd⟩
    · rw [he n hn] at hdyn
      cases hdyn
    · cases h
      exact ⟨n, rfl, he n hn⟩

theorem not_holdDuration_of_isRestorable {p : Param} (hp : p.isRestorable = true) (unit : TimeUnit)
    (key : String) : p.kind ≠ .holdDuration unit key := by
  intro hk
  simp [isRestorable, isPlaced, hk] at hp

end Param

namespace Told

variable {s : Signature} {e : Element} {vs : List (Param × Option Value)}
  {blocks : List (Modifier × List Call)}

theorem map_fst (h : Told s e vs blocks) : vs.map Prod.fst = s.scalarParams :=
  map_fst_of_valuesOf h.values

theorem known (h : Told s e vs blocks) {x : Param × Option Value} (hx : x ∈ vs)
    (hk : ∀ unit key, x.1.kind ≠ .holdDuration unit key)
    (hr : (Arg.scalar x.1 x.2).isRendered = true) : x.1.Known x.2 :=
  Param.known_of_valueOf hk (mem_of_valuesOf h.values hx).2 (h.shown x hx hr).1 (h.shown x hx hr).2

/-- Each value may go to its own parameter. -/
theorem goes_self (h : Told s e vs blocks) {x : Param × Option Value} (hx : x ∈ vs)
    (hp : x.1.isRestorable = true) : Goes x x.1 where
  mandatory := rfl
  target := .inl rfl
  known := h.known hx (Param.not_holdDuration_of_isRestorable hp)
  name := fun hk => Param.static_name hp hk h.name (mem_of_valuesOf h.values hx).2

theorem goes (h : Told s e vs blocks) (hp : ∀ p ∈ s.scalarParams, p.isRestorable = true) :
    List.Forall₂ Goes vs s.scalarParams := by
  rw [← h.map_fst, List.forall₂_map_right_iff]
  exact List.forall₂_same.mpr fun x hx =>
    h.goes_self hx (hp x.1 (h.map_fst ▸ List.mem_map_of_mem hx))

theorem method_of_mem (h : Told s e vs blocks) {b : Modifier × List Call} (hb : b ∈ blocks)
    {c : Call} (hc : c ∈ b.2) : c.head.method = b.1.method :=
  method_of_modifierCalls (h.calls b hb) hc

section

variable {t : Signature} {leading : List Expr}
  (hl : leading.map Expr.unplaced = vs.flatMap fun x => (Arg.scalar x.1 x.2).exprs)
  {invs tail : List (Invocation Operand)}
  (hi : List.Forall₂ Says invs (blocks.flatMap Prod.snd)) (htail : IsTail tail) {line : Nat}
  {name : String} {children : List Operand} {e' : Element}
  (hmakes : Makes t line name leading children (invs ++ tail) e')

include hl hmakes

/-- The values that a form binds are those that were said. -/
theorem keeps_of_makes (ht : t.Restorable) (hg : List.Forall₂ Goes vs t.scalarParams) :
    ∃ values, (construct t values children (invs ++ tail)).outcome = .ok e' ∧
      List.Forall₂ Keeps vs values ∧ values.map Prod.fst = t.scalarParams := by
  obtain ⟨values, hbind, hmade⟩ := hmakes.values
  exact ⟨values, hmade, keeps_of_bindScalars ht hg hl hbind⟩

include hi htail

/-- A form makes an element that has what was said. -/
theorem restored_of_makes (h : Told s e vs blocks) (ht : t.Restorable)
    (hg : List.Forall₂ Goes vs t.scalarParams) (hm : t.modifiers = s.modifiers) :
    e'.kind = t.kind ∧ e'.enabled = true ∧
      (elements (children ++ tail.flatMap (·.args))).outcome = .ok e'.children ∧
      Restored t vs blocks e' := by
  obtain ⟨values, hmade, hk, hv⟩ := keeps_of_makes hl hmakes ht hg
  exact restored_of_construct ht hk hv (h.modifiers.trans hm.symm) h.calls h.said hi htail hmade

end

end Told

end FluentPlan
