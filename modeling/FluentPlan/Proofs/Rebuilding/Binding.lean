import Mathlib.Data.List.Forall2
import Mathlib.Tactic.Common
import FluentPlan.Proofs.Assembly.Outcome
import FluentPlan.Proofs.Code.Expression
import FluentPlan.Proofs.Param.Echo
import FluentPlan.Script.Build

/-!
Arguments that are bound to parameters. Where the arguments of a call are what its values say, in
their order, each parameter gets the argument of its own value or, where that is not written, its
default.
-/

namespace FluentPlan.Build

open Script

/-! ### Parameters of a signature -/

theorem fits_of_not_isVariadic {ps : List Param} (h : ∀ p ∈ ps, p.kind.isVariadic = false)
    (count : Nat) : fits ps count = decide (count = ps.length) := by
  unfold fits
  cases hl : ps.getLast? with
  | none =>
    rw [List.getLast?_eq_none_iff.mp hl]
    rfl
  | some p => simp [h p (List.mem_of_getLast? hl)]

/-- Values are bound to all parameters, or to the mandatory ones where those are fewer. -/
theorem bindScalars_eq_ok {ps : List Param} (hv : ∀ p ∈ ps, p.kind.isVariadic = false) {line : Nat}
    {name : String} {args : List Expr} {values : List (Param × Option Value)}
    (h : bindScalars ps line name args = .ok values) :
    (args.length = ps.length ∧ bindValues (fun _ => true) ps args = .ok values) ∨
      (args.length = (ps.filter (·.mandatory)).length ∧
        bindValues (·.mandatory) ps args = .ok values) := by
  have hshort : ∀ p ∈ ps.filter (·.mandatory), p.kind.isVariadic = false :=
    fun p hp => hv p (List.mem_of_mem_filter hp)
  unfold bindScalars at h
  simp only [fits_of_not_isVariadic hv, fits_of_not_isVariadic hshort] at h
  split_ifs at h with hfull hbrief
  · have hfull : args.length = ps.length := of_decide_eq_true hfull
    refine .inl ⟨hfull, ?_⟩
    split at h
    · next hok =>
      cases h
      exact hok
    · split_ifs at h with hcond
      simp only [Bool.and_eq_true, decide_eq_true_eq] at hcond
      exact absurd (hcond.2.2.symm.trans hfull) hcond.2.1
  · simp only [Bool.and_eq_true, decide_eq_true_eq] at hbrief
    exact .inr ⟨hbrief.2, h⟩
  · cases h

/-- What relates each value to its parameter relates it to what is bound there. -/
theorem bindValues_forall₂ {taken : Param → Bool} {P : Param × Option Value → Param × Option Value → Prop}
    {vs : List (Param × Option Value)} {ps : List Param}
    (h : List.Forall₂ (fun x p => p.kind.isVariadic = false ∧
      taken p = (Arg.scalar x.1 x.2).isRendered ∧
      (taken p = true → ∃ e, x.1.exprs x.2 = [e] ∧
        ∀ a b, a.unplaced = e → p.fromArg a = .ok b → P x (p, b)) ∧
      (taken p = false → P x (p, p.default))) vs ps)
    {args : List Expr}
    (ha : args.map Expr.unplaced = vs.flatMap fun x => (Arg.scalar x.1 x.2).exprs)
    {values : List (Param × Option Value)} (hb : bindValues taken ps args = .ok values) :
    List.Forall₂ P vs values ∧ values.map Prod.fst = ps := by
  induction h generalizing args values with
  | nil =>
    cases hb
    exact ⟨.nil, rfl⟩
  | @cons x p vs ps hxp _ ih =>
    obtain ⟨hvar, htaken, hyes, hno⟩ := hxp
    unfold bindValues at hb
    cases ht : taken p with
    | false =>
      have hexprs : (Arg.scalar x.1 x.2).exprs = [] := by
        simp [Arg.exprs, ← htaken, ht]
      rw [List.flatMap_cons, hexprs, List.nil_append] at ha
      simp only [ht, Bool.not_false, if_true] at hb
      obtain ⟨rest, hrest, hb⟩ := exists_of_bind_eq_ok hb
      cases hb
      obtain ⟨hall, hfst⟩ := ih ha hrest
      exact ⟨.cons (hno ht) hall, by rw [List.map_cons, hfst]⟩
    | true =>
      obtain ⟨e, he, hP⟩ := hyes ht
      have hexprs : (Arg.scalar x.1 x.2).exprs = [e] := by
        simp [Arg.exprs, ← htaken, ht, he]
      rw [List.flatMap_cons, hexprs, List.singleton_append] at ha
      obtain ⟨a, as, rfl, hae, has⟩ := List.map_eq_cons_iff.mp ha
      simp only [ht, hvar, Bool.not_true, Bool.false_eq_true, if_false] at hb
      obtain ⟨b, hfrom, hb⟩ := exists_of_bind_eq_ok hb
      obtain ⟨rest, hrest, hb⟩ := exists_of_bind_eq_ok hb
      cases hb
      obtain ⟨hall, hfst⟩ := ih has hrest
      exact ⟨.cons (hP a b hae hfrom) hall, by rw [List.map_cons, hfst]⟩

/-! ### Parameters of a modifier -/

theorem bindAll_eq_ok {ps : List Param} {line : Nat} {name : String} {args : List Expr}
    {values : List (Param × Option Value)} (h : bindAll ps line name args = .ok values) :
    bindValues (fun _ => true) ps args = .ok values := by
  unfold bindAll at h
  split_ifs at h
  · exact h
  · cases h

theorem bindValues_variadic {p : Param} (hp : p.kind.isVariadic = true) {args : List Expr}
    {values : List (Param × Option Value)}
    (h : bindValues (fun _ => true) [p] args = .ok values) :
    ∃ b, p.fromArgs args = .ok b ∧ values = [(p, b)] := by
  simp only [bindValues, hp, Bool.not_true, Bool.false_eq_true, if_false, if_true] at h
  obtain ⟨b, hb, h⟩ := exists_of_bind_eq_ok h
  cases h
  exact ⟨b, hb, rfl⟩

end FluentPlan.Build
