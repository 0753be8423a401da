import Mathlib.Data.List.Forall2
import Mathlib.Tactic.Common
import FluentPlan.Proofs.Rebuilding.Own

/-!
Values that return. The arguments of a call say the values that it was made from; what they bind is
stored, and values that look like those are read again.
-/

namespace FluentPlan

open Build Script

/-! ### Values of elements -/

namespace Param

/-- A value as assembly finds it, where code says it. -/
structure Known (p : Param) (v : Option Value) : Prop where
  ne_none : v ≠ none
  double : ReadsDouble v
  texts : p.kind = .textList → ∃ items, v = some (.texts items)
  found : p.kind ≠ .textList → v = p.default ∨ p.Found v

theorem known_of_valueOf {p : Param} (hk : ∀ unit key, p.kind ≠ .holdDuration unit key) {e : Element}
    {lead : String} {v : Option Value} (h : p.valueOf e lead = .ok v) (hne : v ≠ none)
    (hx : ReadsDouble v) : p.Known v := by
  refine ⟨hne, hx, fun hl => ?_, fun hl => ?_⟩
  · simp only [valueOf, hl] at h
    obtain ⟨entries, -, h⟩ := exists_of_bind_eq_ok h
    cases h
    exact ⟨_, rfl⟩
  · unfold valueOf at h
    split at h
    · next hl' => exact absurd hl' hl
    · next unit key hh => exact absurd hh (hk unit key)
    · exact found_parse h

theorem Known.found_of_isRestored {p : Param} {v : Option Value} (h : p.Known v)
    (hp : p.isRestored = true) : p.Found v := by
  simp only [isRestored, Bool.and_eq_true, Bool.not_eq_true'] at hp
  have hk : p.kind ≠ .textList := by
    intro hk
    rw [hk] at hp
    cases hp.1.1.2
  rcases h.found hk with heq | hfound
  · rw [heq]
    exact found_default hp.1.2 (heq ▸ h.ne_none)
  · exact hfound

/-- What the argument of a known value binds returns it. -/
theorem Known.returns {p : Param} {v : Option Value} (h : p.Known v) (hp : p.isRestored = true)
    {a : Expr} (ha : p.exprs v = [a.unplaced]) {b : Option Value} (hb : p.fromArg a = .ok b) :
    Returns (p, v) (p, b) := by
  obtain ⟨v, rfl⟩ := Option.ne_none_iff_exists'.mp h.ne_none
  exact echo hp (h.found_of_isRestored hp) h.double ha hb

/-! ### Reading -/

/-- Where the region of a parameter holds the entries of a value, the value is read again. -/
theorem valueOf_of_filter {p : Param} (hp : p.isPlaced = true) {es : List (String × String)}
    {e : Element} (he : e.properties = .putAll .empty es) {v : Option Value} {lead : String}
    (h : es.filter (fun x => inRegion (p.region lead) x.1) = p.entries v lead) :
    p.valueOf e lead = p.reread v := by
  refine valueOf_of_entries hp ?_
  rw [he, Properties.filter_putAll_of_nodup (inRegion (p.region lead))]
  · exact h
  · rw [h]
    exact nodup_entries p v lead

end Param

namespace Element

/-- Values that look alike, one by one. -/
def AllAlike (vs ws : List (Param × Option Value)) : Prop :=
  List.Forall₂ (fun x y => Param.Alike x.1 x.2 y.1 y.2) vs ws

theorem valuesOf_of_returns (e : Element) (lead : String) {vs ys : List (Param × Option Value)}
    (h : List.Forall₂ Param.Returns vs ys)
    (hv : ∀ y ∈ ys, y.1.valueOf e lead = y.1.reread y.2) :
    ∃ ws, valuesOf e lead (ys.map Prod.fst) = .ok ws ∧ AllAlike vs ws ∧
      ws.map Prod.fst = ys.map Prod.fst := by
  induction h with
  | nil => exact ⟨[], rfl, .nil, rfl⟩
  | @cons x y vs ys hxy _ ih =>
    obtain ⟨-, w, hw, halike⟩ := hxy
    obtain ⟨ws, hws, hall, hfst⟩ := ih fun z hz => hv z (List.mem_cons_of_mem y hz)
    refine ⟨(y.1, w) :: ws, ?_, .cons halike hall, by rw [List.map_cons, List.map_cons, hfst]⟩
    unfold valuesOf at hws ⊢
    rw [List.map_cons, List.mapM_cons, hv y List.mem_cons_self, hw, hws]
    rfl

theorem allDefault_of_allAlike {vs ws : List (Param × Option Value)} (h : AllAlike vs ws) :
    allDefault ws = allDefault vs := by
  induction h with
  | nil => rfl
  | cons hxy _ ih => rw [allDefault, allDefault, ih, hxy.default]

end Element

end FluentPlan
