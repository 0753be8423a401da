import Mathlib.Data.List.Forall2
import Mathlib.Tactic.Common
import FluentPlan.Proofs.Rebuilding.Repeated

/-!
Parameters of signatures. The arguments of a call are those of the values that code says; a name that
it leaves out is the default. Each argument goes to the parameter of its value, or to one that takes
the same reference to a variable, and returns the value from there.
-/

namespace FluentPlan

open Build Script

theorem forall₂_mem {α β : Type} {R : α → β → Prop} {xs : List α} {ys : List β}
    (h : List.Forall₂ R xs ys) : List.Forall₂ (fun x y => x ∈ xs ∧ y ∈ ys ∧ R x y) xs ys := by
  induction h with
  | nil => exact .nil
  | @cons x y xs ys hr _ ih =>
    refine .cons ⟨List.mem_cons_self, List.mem_cons_self, hr⟩ (ih.imp fun a b hab => ?_)
    exact ⟨List.mem_cons_of_mem x hab.1, List.mem_cons_of_mem y hab.2.1, hab.2.2⟩

theorem eq_of_countP_eq {α : Type} {p q : α → Bool} {xs : List α}
    (h : ∀ x ∈ xs, p x = true → q x = true) (hc : xs.countP q = xs.countP p) :
    ∀ x ∈ xs, q x = p x := by
  induction xs with
  | nil => nofun
  | cons x xs ih =>
    have hrest := fun y hy => h y (List.mem_cons_of_mem x hy)
    have hle := List.countP_mono_left hrest
    have hx := h x List.mem_cons_self
    rw [List.countP_cons, List.countP_cons] at hc
    have heq : q x = p x := by
      cases hp : p x with
      | true => rw [hx hp]
      | false =>
        cases hq : q x with
        | false => rfl
        | true =>
          simp only [hp, hq, if_true, Bool.false_eq_true, if_false] at hc
          omega
    intro y hy
    rcases List.mem_cons.mp hy with rfl | hy
    · exact heq
    · rw [heq] at hc
      exact ih hrest (by omega) y hy

theorem length_flatMap_of_forall {α β : Type} {f : α → List β} {p : α → Bool} {xs : List α}
    (h : ∀ x ∈ xs, (f x).length = if p x then 1 else 0) : (xs.flatMap f).length = xs.countP p := by
  induction xs with
  | nil => rfl
  | cons x xs ih =>
    rw [List.flatMap_cons, List.length_append, h x List.mem_cons_self, List.countP_cons,
      ih fun y hy => h y (List.mem_cons_of_mem x hy), Nat.add_comm]

theorem countP_of_forall₂ {α β : Type} {R : α → β → Prop} {p : α → Bool} {q : β → Bool}
    {xs : List α} {ys : List β} (h : List.Forall₂ R xs ys) (hr : ∀ x y, R x y → p x = q y) :
    xs.countP p = ys.countP q := by
  induction h with
  | nil => rfl
  | @cons x y _ _ hxy _ ih => rw [List.countP_cons, List.countP_cons, ih, hr x y hxy]

namespace Build

/-- Whether a parameter takes no argument that says a value of another one. -/
def Refuses (x : Param × Option Value) (p : Param) : Prop :=
  ∀ a, x.1.exprs x.2 = [a.unplaced] → ∀ b, p.fromArg a ≠ .ok b

/-- A value of an element beside the parameter to which its argument goes: its own one, or any other
one that refuses the argument or gets a reference to a variable. -/
structure Goes (x : Param × Option Value) (p : Param) : Prop where
  mandatory : p.mandatory = x.1.mandatory
  target : p = x.1 ∨ (p.kind ≠ .displayName ∧ p.kind ≠ .textList ∧ x.1.kind.isVariadic = false ∧
    ((∃ t, x.2 = some (.dynamic t) ∧ isDynamic t = true) ∨ Refuses x p))
  known : (Arg.scalar x.1 x.2).isRendered = true → x.1.Known x.2
  name : x.1.kind = .displayName → ∃ t, x.2 = some (.text t) ∧ isDynamic t = false

/-- A value that is stored so that it returns. A name is a text. -/
def Keeps (x y : Param × Option Value) : Prop :=
  Param.Returns x y ∧ (y.1.kind = .displayName → ∃ t, y.2 = some (.text t))

theorem exprs_name {p : Param} (hk : p.kind = .displayName) (t : String) :
    p.exprs (some (.text t)) = [.text .start t] := by
  obtain ⟨kind, prop, default, required, mandatory⟩ := p
  subst hk
  rfl

theorem Goes.keeps {x : Param × Option Value} {p : Param} (h : Goes x p)
    (hp : p.isRestored = true) (hr : (Arg.scalar x.1 x.2).isRendered = true) :
    ∃ e, x.1.exprs x.2 = [e] ∧
      ∀ a b, a.unplaced = e → p.fromArg a = .ok b → Keeps x (p, b) := by
  obtain ⟨q, v⟩ := x
  rcases h.target with heq | ⟨hname, hlist, hvar, ⟨t, hv, ht⟩ | hrefuses⟩
  · have heq : p = q := heq
    subst heq
    have hvar : p.kind.isVariadic = false := by
      simp only [Param.isRestored, Bool.and_eq_true, Bool.not_eq_true'] at hp
      exact hp.1.1.2
    obtain ⟨e, he⟩ := Param.exists_exprs_eq hvar v
    refine ⟨e, he, fun a b ha hb => ⟨(h.known hr).returns hp (by rw [he, ha]) hb, fun hk => ?_⟩⟩
    obtain ⟨t, hv, ht⟩ := h.name hk
    have hv : v = some (.text t) := hv
    subst hv
    rw [exprs_name hk] at he
    obtain ⟨pos, rfl⟩ := Expr.eq_text_of_unplaced (ha.trans (List.singleton_inj.mp he).symm)
    rw [Param.fromArg_text (.inr (.inl hk)) ht] at hb
    cases hb
    exact ⟨t, rfl⟩
  · have hv : v = some (.dynamic t) := hv
    subst hv
    refine ⟨.text .start t, rfl, fun a b ha hb => ⟨?_, fun hk => absurd hk hname⟩⟩
    have hm : q.mandatory = p.mandatory := h.mandatory.symm
    exact Param.echo_dynamic hm hlist ht ha hb
  · obtain ⟨e, he⟩ := Param.exists_exprs_eq hvar v
    exact ⟨e, he, fun a b ha hb => absurd hb (hrefuses a (by rw [ha]; exact he) b)⟩

/-- A name that is left out is the default. -/
theorem Goes.keeps_default {x : Param × Option Value} {p : Param} (h : Goes x p)
    (hp : p.isOptionalName = true) (hm : p.mandatory = false)
    (hr : (Arg.scalar x.1 x.2).isRendered = false) : Keeps x (p, p.default) := by
  obtain ⟨q, v⟩ := x
  simp only [Param.isOptionalName, Bool.and_eq_true, decide_eq_true_eq] at hp
  obtain ⟨⟨hk, hrest⟩, hd⟩ := hp
  have heq : p = q := h.target.resolve_right fun hother => hother.1 hk
  subst heq
  obtain ⟨t, hv, -⟩ := h.name hk
  have hv : v = some (.text t) := hv
  subst hv
  split at hd
  · next d hdef =>
    have htd : t = d := by
      have hdefault : p.isDefault (some (.text t)) = true := by
        simpa [Arg.isRendered, hm] using hr
      have hsame : (Value.text t).same (.text d) = true := by
        simpa [Param.isDefault, Param.isDefault?, hk, hdef] using hdefault
      simpa [Value.same, Value.number?] using hsame
    subst htd
    have hread := (Param.restoresDefault_sound hrest).2.1
    rw [hdef] at hread ⊢
    exact ⟨⟨Option.some_ne_none _, _, hread, Param.Alike.refl _ _⟩, fun _ => ⟨t, rfl⟩⟩
  · cases hd

/-- What parameters are bound to is related to the values that arguments say, if it is where a value is
said and where the default stands for one. -/
theorem forall₂_of_bindScalars {P : Param × Option Value → Param × Option Value → Prop}
    {vs : List (Param × Option Value)} {ps : List Param}
    (h : List.Forall₂ (fun x p => p.kind.isVariadic = false ∧ p.mandatory = x.1.mandatory ∧
      ((Arg.scalar x.1 x.2).isRendered = true → ∃ e, x.1.exprs x.2 = [e] ∧
        ∀ a b, a.unplaced = e → p.fromArg a = .ok b → P x (p, b)) ∧
      ((Arg.scalar x.1 x.2).isRendered = false → P x (p, p.default))) vs ps)
    {args : List Expr}
    (ha : args.map Expr.unplaced = vs.flatMap fun x => (Arg.scalar x.1 x.2).exprs) {line : Nat}
    {name : String} {values : List (Param × Option Value)}
    (hb : bindScalars ps line name args = .ok values) :
    List.Forall₂ P vs values ∧ values.map Prod.fst = ps := by
  have hall := forall₂_mem h
  have hlen : args.length = vs.countP fun x => (Arg.scalar x.1 x.2).isRendered := by
    have hlen := congrArg List.length ha
    rw [List.length_map] at hlen
    rw [hlen]
    refine length_flatMap_of_forall fun x hx => ?_
    obtain ⟨p, -, -, -, -, -, hsaid, -⟩ := exists_of_forall₂ hall.flip hx
    cases hr : (Arg.scalar x.1 x.2).isRendered with
    | false => simp [Arg.exprs, hr]
    | true =>
      obtain ⟨e, he, -⟩ := hsaid hr
      simp [Arg.exprs, hr, he]
  have hbind (taken : Param → Bool)
      (ht : ∀ x ∈ vs, ∀ p, p.mandatory = x.1.mandatory →
        taken p = (Arg.scalar x.1 x.2).isRendered)
      (hb : bindValues taken ps args = .ok values) :
      List.Forall₂ P vs values ∧ values.map Prod.fst = ps := by
    refine bindValues_forall₂ (hall.imp fun x p hxp => ?_) ha hb
    obtain ⟨hx, -, hvar, hm, hsaid, hunsaid⟩ := hxp
    have htaken := ht x hx p hm
    exact ⟨hvar, htaken, fun hyes => hsaid (htaken ▸ hyes), fun hno => hunsaid (htaken ▸ hno)⟩
  have hvar : ∀ p ∈ ps, p.kind.isVariadic = false := fun p hp => by
    obtain ⟨x, -, -, -, hv, -⟩ := exists_of_forall₂ hall hp
    exact hv
  rcases bindScalars_eq_ok hvar hb with ⟨hfull, hb⟩ | ⟨hbrief, hb⟩
  · refine hbind _ (fun x hx p _ => ?_) hb
    rw [hlen, ← h.length_eq] at hfull
    exact (List.countP_eq_length.mp hfull x hx).symm
  · refine hbind _ (fun x hx p hpm => ?_) hb
    have hmand : (ps.filter (·.mandatory)).length = vs.countP fun x => x.1.mandatory := by
      rw [← List.countP_eq_length_filter]
      exact (countP_of_forall₂ h fun x p hxp => hxp.2.1.symm).symm
    rw [hlen, hmand] at hbrief
    rw [hpm]
    exact (eq_of_countP_eq (fun y hy hm => by simp [Arg.isRendered, hm]) hbrief x hx).symm

theorem keeps_of_bindScalars {s : Signature} (hs : s.Restorable)
    {vs : List (Param × Option Value)} (hg : List.Forall₂ Goes vs s.scalarParams)
    {args : List Expr}
    (ha : args.map Expr.unplaced = vs.flatMap fun x => (Arg.scalar x.1 x.2).exprs) {line : Nat}
    {name : String} {values : List (Param × Option Value)}
    (h : bindScalars s.scalarParams line name args = .ok values) :
    List.Forall₂ Keeps vs values ∧ values.map Prod.fst = s.scalarParams := by
  refine forall₂_of_bindScalars ((forall₂_mem hg).imp fun x p hxp => ?_) ha h
  obtain ⟨-, hp, hgoes⟩ := hxp
  have hres : p.isRestored = true := (Bool.and_eq_true_iff.mp (hs.scalars p hp)).1
  refine ⟨?_, hgoes.mandatory, hgoes.keeps hres, fun hr => ?_⟩
  · simp only [Param.isRestored, Bool.and_eq_true, Bool.not_eq_true'] at hres
    exact hres.1.1.2
  · have hm : p.mandatory = false := by
      rw [Bool.eq_false_iff]
      intro hm
      simp [Arg.isRendered, ← hgoes.mandatory, hm] at hr
    exact hgoes.keeps_default (hs.optional p hp hm) hm hr

end Build

end FluentPlan
