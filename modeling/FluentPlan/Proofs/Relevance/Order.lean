import FluentPlan.Proofs.Assembly.Children
import FluentPlan.Proofs.Registration.Catalog
import FluentPlan.Proofs.Relevance.Plan

/-!
The order of siblings. Children are ordered by category before anything else looks at their calls, so
of the order in which they come only that within each category matters.
-/

namespace FluentPlan

/-! ### Ordering by category -/

theorem rankIn_inj {categories : List String} {a b : String} (ha : a ∈ categories)
    (hb : b ∈ categories) (h : rankIn categories a = rankIn categories b) : a = b := by
  have hfound {c : String} (hc : c ∈ categories) : ∃ i < categories.length,
      categories.reverse[i]? = some c ∧ rankIn categories c = categories.length - 1 - i := by
    have hsome := List.isSome_idxOf?.mpr (List.mem_reverse.mpr hc)
    obtain ⟨i, hi⟩ := Option.isSome_iff_exists.mp hsome
    obtain ⟨hlt, hget, -⟩ := List.idxOf?_eq_some_iff.mp hi
    refine ⟨i, by simpa using hlt, List.getElem?_eq_some_iff.mpr ⟨hlt, hget⟩, ?_⟩
    rw [rankIn, hi]
  obtain ⟨i, hi, hai, hra⟩ := hfound ha
  obtain ⟨j, hj, hbj, hrb⟩ := hfound hb
  have hij : i = j := by omega
  rw [hij, hbj] at hai
  exact (Option.some.inj hai).symm

section

variable {α : Type} {f : α → String} {categories : List String} {xs ys : List α}
  (hx : ∀ a ∈ xs, f a ∈ categories) (hy : ∀ a ∈ ys, f a ∈ categories)
  (h : ∀ k, xs.filter (fun a => f a = k) = ys.filter fun a => f a = k)
include hx hy h

/-- Lists in the order of their categories are the same if they have the same items of each category. -/
theorem eq_of_sorted_of_filter
    (hxs : xs.Pairwise fun a b => rankIn categories (f a) ≤ rankIn categories (f b))
    (hys : ys.Pairwise fun a b => rankIn categories (f a) ≤ rankIn categories (f b)) : xs = ys := by
  induction xs generalizing ys with
  | nil =>
    cases ys with
    | nil => rfl
    | cons b ys => exact absurd (h (f b)) (by simp)
  | cons a xs ih =>
    cases ys with
    | nil => exact absurd (h (f a)) (by simp)
    | cons b ys =>
      have hmem {k : α} : k ∈ a :: xs ↔ k ∈ b :: ys := by
        have hk : k ∈ (a :: xs).filter (fun x => f x = f k) ↔
            k ∈ (b :: ys).filter fun x => f x = f k := by rw [h (f k)]
        simpa only [List.mem_filter, decide_true, and_true] using hk
      have hle {x y : α} {zs : List α}
          (hp : (x :: zs).Pairwise fun a b => rankIn categories (f a) ≤ rankIn categories (f b))
          (hy : y ∈ x :: zs) : rankIn categories (f x) ≤ rankIn categories (f y) := by
        rcases List.mem_cons.mp hy with rfl | hy
        · exact Nat.le_refl _
        · exact (List.pairwise_cons.mp hp).1 y hy
      -- each of the first items stands in the other list, so neither ranks before the other
      have hrank := Nat.le_antisymm (hle hxs (hmem.mpr List.mem_cons_self))
        (hle hys (hmem.mp List.mem_cons_self))
      have hcat : f a = f b :=
        rankIn_inj (hx a List.mem_cons_self) (hy b List.mem_cons_self) hrank
      obtain rfl : a = b := by
        have hfirst := h (f a)
        rw [List.filter_cons_of_pos (by simp), List.filter_cons_of_pos (by simp [hcat])] at hfirst
        exact (List.cons.inj hfirst).1
      refine congrArg (a :: ·) (ih (fun x hm => hx x (List.mem_cons_of_mem a hm))
        (fun x hm => hy x (List.mem_cons_of_mem a hm)) (fun k => ?_) hxs.of_cons hys.of_cons)
      have hk := h k
      by_cases hfa : f a = k
      · rw [List.filter_cons_of_pos (by simp [hfa]), List.filter_cons_of_pos (by simp [hfa])] at hk
        exact (List.cons.inj hk).2
      · rwa [List.filter_cons_of_neg (by simp [hfa]), List.filter_cons_of_neg (by simp [hfa])] at hk

/-- Items by category come in one order, whatever the order of the categories among each other. -/
theorem orderBy_eq_of_filter : orderBy f categories xs = orderBy f categories ys := by
  refine eq_of_sorted_of_filter
    (fun a ha => hx a ((orderBy_perm f categories xs).mem_iff.mp ha))
    (fun a ha => hy a ((orderBy_perm f categories ys).mem_iff.mp ha)) (fun k => ?_)
    (orderBy_sorted f categories xs) (orderBy_sorted f categories ys)
  rw [orderBy_filter, orderBy_filter, h k]

end

/-! ### Rearranged plans -/

/-- Plans of the same elements in which siblings may stand in another order, but siblings of one
category stand in the same order among each other. -/
inductive Rearranged (r : Registry) : Element → Element → Prop
  | node {kind : String} {name : Option String} {enabled : Bool} {properties : Properties}
    {children moved children' : List Element} (hc : List.Forall₂ (Rearranged r) children moved)
    (hp : moved.Perm children')
    (hcat : ∀ k, moved.filter (fun e => e.category? r = some k) =
      children'.filter fun e => e.category? r = some k) :
    Rearranged r ⟨kind, name, enabled, properties, children⟩
      ⟨kind, name, enabled, properties, children'⟩

namespace Rearranged

variable {r : Registry} {o : Options} {e e' : Element}

theorem label_eq (h : Rearranged r e e') : e.label = e'.label := by
  cases h
  rfl

theorem drops_eq (h : Rearranged r e e') : o.drops e = o.drops e' := by
  cases h
  rfl

theorem resolve?_eq (h : Rearranged r e e') : r.resolve? e = r.resolve? e' := by
  cases h
  rfl

theorem ownCall_eq (h : Rearranged r e e') (s : Signature) :
    Element.ownCall o s e = Element.ownCall o s e' := by
  cases h
  exact Element.ownCall_congr rfl rfl fun _ _ => rfl

end Rearranged

/-! ### Calls of rearranged plans -/

namespace Element

variable {r : Registry} {o : Options} {path : String}

theorem resolveAll_perm {es es' : List Element} (h : es.Perm es') :
    (resolveAll r o path es).outcome = .ok () ↔ (resolveAll r o path es').outcome = .ok () := by
  have hkept := h.filter fun e => !o.drops e
  rw [resolveAll_eq_ok_iff, resolveAll_eq_ok_iff]
  exact forall_congr' fun e => imp_congr_left hkept.mem_iff

mutual

theorem resolve_rearranged : (e : Element) → ∀ {e' : Element} {path : String}, Rearranged r e e' →
    ((resolve r o path e).outcome = .ok () ↔ (resolve r o path e').outcome = .ok ())
  | ⟨kind, name, enabled, properties, children⟩, e', path, h => by
    have hs := h.resolve?_eq
    cases h with
    | node hc hp _ =>
      rw [resolve_eq_ok_iff, resolve_eq_ok_iff, hs]
      exact and_congr_right fun _ => (resolveAll_rearranged children hc).trans (resolveAll_perm hp)

theorem resolveAll_rearranged : (es : List Element) → ∀ {es' : List Element} {path : String},
    List.Forall₂ (Rearranged r) es es' →
    ((resolveAll r o path es).outcome = .ok () ↔ (resolveAll r o path es').outcome = .ok ())
  | [], _, path, h => by
    cases h
    rfl
  | e :: es, _, path, h => by
    cases h with
    | @cons _ e' _ es' he hes =>
      have hdrops := he.drops_eq (o := o)
      have hrest : (resolveAll r o path es).outcome = .ok () ↔
          (resolveAll r o path es').outcome = .ok () := resolveAll_rearranged es hes
      cases hd : o.drops e with
      | true => rwa [resolveAll_cons_of_drops hd, resolveAll_cons_of_drops (hdrops ▸ hd)]
      | false =>
        have hfirst : (resolve r o (childPath path e) e).outcome = .ok () ↔
            (resolve r o (childPath path e) e').outcome = .ok () := resolve_rearranged e he
        rw [resolveAll_cons_eq_ok_iff hd, resolveAll_cons_eq_ok_iff (hdrops ▸ hd),
          ← childPath_congr he.label_eq]
        exact and_congr hfirst hrest

end

theorem category_mem_of_category? (hr : ∀ s ∈ r.signatures, s.category ∈ o.categories) {e : Element}
    {k : String} (h : e.category? r = some k) : k ∈ o.categories := by
  rw [category?] at h
  cases hs : r.resolve? e with
  | error f =>
    rw [hs] at h
    cases h
  | ok s =>
    rw [hs] at h
    cases h
    exact hr s (Registry.resolve?_eq_ok hs).1

/-- Calls of siblings come in one order, if those of each category do. -/
theorem order_map_perm (hr : ∀ s ∈ r.signatures, s.category ∈ o.categories) {es es' : List Element}
    (hp : es.Perm es')
    (hcat : ∀ k, es.filter (fun e => e.category? r = some k) =
      es'.filter fun e => e.category? r = some k) {call : Element → Call}
    (hcall : ∀ e ∈ es, e.category? r = some (call e).head.category) :
    Call.order o.categories (es.map call) = Call.order o.categories (es'.map call) := by
  have hcall' : ∀ e ∈ es', e.category? r = some (call e).head.category :=
    fun e he => hcall e (hp.mem_iff.mpr he)
  have hmem {es : List Element} (h : ∀ e ∈ es, e.category? r = some (call e).head.category) :
      ∀ e ∈ es, (call e).head.category ∈ o.categories :=
    fun e he => category_mem_of_category? hr (h e he)
  have hfilter {es : List Element}
      (h : ∀ e ∈ es, e.category? r = some (call e).head.category) (k : String) :
      es.filter (fun e => (call e).head.category = k) = es.filter fun e => e.category? r = some k := by
    refine List.filter_congr fun e he => decide_eq_decide.mpr ?_
    rw [h e he, Option.some_inj]
  rw [Call.order, Call.order, ← orderBy_map, ← orderBy_map]
  refine congrArg (List.map call) (orderBy_eq_of_filter (hmem hcall) (hmem hcall') fun k => ?_)
  rw [hfilter hcall, hfilter hcall', hcat k]

/-- The calls of siblings in another order are the same calls once they are put in order. -/
theorem exists_assembleAll_perm (hr : ∀ s ∈ r.signatures, s.category ∈ o.categories)
    {es es' : List Element} (hp : es.Perm es')
    (hcat : ∀ k, es.filter (fun e => e.category? r = some k) =
      es'.filter fun e => e.category? r = some k) {s : Signature} {calls : List Call}
    (h : (assembleAll r o s path es).outcome = .ok calls) :
    ∃ calls', (assembleAll r o s path es').outcome = .ok calls' ∧
      ∀ head chain, withChildren o s head chain calls = withChildren o s head chain calls' := by
  obtain ⟨haccepts, hcalls⟩ := assembleAll_eq_ok_iff.mp h
  have hkept : (o.kept es).Perm (o.kept es') := hp.filter _
  -- the call of a child does not depend on where it stands
  let call (e : Element) : Call := (assemble r o (childPath path e) e).outcome.toOption.getD default
  have heq {e : Element} {c : Call} (hc : (assemble r o (childPath path e) e).outcome = .ok c) :
      call e = c := by
    simp only [call, hc]
    rfl
  have hcall : ∀ e ∈ o.kept es, (assemble r o (childPath path e) e).outcome = .ok (call e) := by
    intro e he
    obtain ⟨c, -, hc⟩ := exists_of_forall₂ hcalls.flip he
    rw [heq hc, hc]
  obtain rfl : (o.kept es).map call = calls := by
    have hmap := List.forall₂_map_left_iff.mpr (hcalls.imp fun _ _ hc => heq hc)
    rwa [List.forall₂_eq_eq_eq] at hmap
  refine ⟨(o.kept es').map call, assembleAll_eq_ok_iff.mpr ⟨?_, ?_⟩, fun head chain => ?_⟩
  · refine haccepts.imp_left fun hnone => ?_
    rw [hnone] at hkept
    exact hkept.nil_eq.symm
  · refine List.forall₂_map_right_iff.mpr (List.forall₂_same.mpr fun e he => ?_)
    exact hcall e (hkept.mem_iff.mpr he)
  · have horder := order_map_perm hr hkept
      (fun k => by rw [← Options.kept_filter, ← Options.kept_filter, hcat k])
      (fun e he => category?_of_assemble (hcall e he))
    rw [withChildren, withChildren, horder, (hkept.map call).isEmpty_eq]

mutual

theorem assemble_rearranged (hr : ∀ s ∈ r.signatures, s.category ∈ o.categories) :
    (e : Element) → ∀ {e' : Element} {path : String} {c : Call}, Rearranged r e e' →
    ((assemble r o path e).outcome = .ok c ↔ (assemble r o path e').outcome = .ok c)
  | ⟨kind, name, enabled, properties, children⟩, e', path, c, h => by
    have hs := h.resolve?_eq
    have hown := h.ownCall_eq (o := o)
    cases h with
    | @node _ _ _ _ _ moved children' hc hp hcat =>
      have hsame {s : Signature} {head : CallHead} {chain : List Call} :
          (∃ calls, (assembleAll r o s path children).outcome = .ok calls ∧
            c = withChildren o s head chain calls) ↔
          ∃ calls, (assembleAll r o s path children').outcome = .ok calls ∧
            c = withChildren o s head chain calls := by
        constructor
        · rintro ⟨calls, ha, rfl⟩
          have ha := (assembleAll_rearranged hr children hc).mp ha
          obtain ⟨calls', ha', hw⟩ := exists_assembleAll_perm hr hp hcat ha
          exact ⟨calls', ha', hw head chain⟩
        · rintro ⟨calls, ha, rfl⟩
          obtain ⟨calls', ha', hw⟩ := exists_assembleAll_perm hr hp.symm (fun k => (hcat k).symm) ha
          exact ⟨calls', (assembleAll_rearranged hr children hc).mpr ha', hw head chain⟩
      rw [assemble_eq_ok_iff, assemble_eq_ok_iff, hs]
      refine exists_congr fun s => and_congr_right fun _ => ?_
      rw [hown s]
      refine or_congr_right (exists_congr fun head => exists_congr fun chain => ?_)
      simp only [exists_and_left]
      exact and_congr_right fun _ => hsame

theorem assembleAll_rearranged (hr : ∀ s ∈ r.signatures, s.category ∈ o.categories)
    {s : Signature} : (es : List Element) →
    ∀ {es' : List Element} {path : String} {calls : List Call}, List.Forall₂ (Rearranged r) es es' →
    ((assembleAll r o s path es).outcome = .ok calls ↔
      (assembleAll r o s path es').outcome = .ok calls)
  | [], _, path, calls, h => by
    cases h
    rfl
  | e :: es, _, path, calls, h => by
    cases h with
    | @cons _ e' _ es' he hes =>
      have hdrops := he.drops_eq (o := o)
      cases hd : o.drops e with
      | true =>
        rw [assembleAll_cons_of_drops hd, assembleAll_cons_of_drops (hdrops ▸ hd)]
        exact assembleAll_rearranged hr es hes
      | false =>
        rw [assembleAll_cons_eq_ok_iff hd, assembleAll_cons_eq_ok_iff (hdrops ▸ hd),
          ← childPath_congr he.label_eq]
        refine and_congr_right fun _ => exists_congr fun c => exists_congr fun cs => ?_
        exact and_congr (assemble_rearranged hr e he)
          (and_congr_left fun _ => assembleAll_rearranged hr es hes)

end

end Element

/-! ### Conversions -/

theorem Conversion.run_eq_ok_iff {c : Conversion} (hp : c.phase = .idle) {e : Element}
    {base : String} {g : Generated} :
    (c.run e base).2.outcome = .ok g ↔
      (e.resolve c.registry c.options e.label).outcome = .ok () ∧
        ∃ root, (e.assemble c.registry c.options e.label).outcome = .ok root ∧
          (root.generate c.options base.toList).outcome = .ok g := by
  constructor
  · intro h
    exact exists_root_of_run h
  · rintro ⟨hr, root, ha, hg⟩
    exact run_of_generate hp hr ha hg

/-- Of the order of siblings only that within each category matters. Whatever the options, plans that
differ otherwise come to the same code with the same helper methods and requirements, or both come to
none. -/
theorem run_eq_ok_iff_of_rearranged {o : Options} {c : Conversion}
    (hc : (Conversion.ofOptions o).outcome = .ok c ∨ Conversion.create .standard o = .ok c)
    {e e' : Element} (h : Rearranged c.registry e e') (base : String) (g : Generated) :
    (c.run e base).2.outcome = .ok g ↔ (c.run e' base).2.outcome = .ok g := by
  obtain ⟨hidle, hcategories⟩ := Conversion.ranks_catalog hc
  rw [Conversion.run_eq_ok_iff hidle, Conversion.run_eq_ok_iff hidle, ← h.label_eq]
  refine and_congr (e.resolve_rearranged h) (exists_congr fun root => and_congr_left fun _ => ?_)
  exact e.assemble_rearranged hcategories h

/-- A plan with a timer that has no effect and a processor that is disabled, each moved to the front of
its siblings. -/
theorem run_eq_ok_iff_of_rearranged_groups :
    let timer : Element := ⟨"ConstantTimer", none, true, .empty, []⟩
    let disabled : Element := ⟨"DebugPostProcessor", none, false, .empty, []⟩
    let group (name : String) (children : List Element) : Element :=
      ⟨"GenericController", some name, true, .empty, children⟩
    let plan : Element := ⟨"TestPlan", none, true, .empty,
      [group "a" [group "c" [], timer], group "b" [], disabled]⟩
    let other : Element := ⟨"TestPlan", none, true, .empty,
      [disabled, group "a" [timer, group "c" []], group "b" []]⟩
    let c : Conversion := ⟨.standard, {}, .idle, none⟩
    (Conversion.ofOptions {}).outcome = .ok c ∧ Rearranged c.registry plan other ∧
      ∀ g, (c.run plan "").2.outcome = .ok g ↔ (c.run other "").2.outcome = .ok g := by
  intro timer disabled group plan other c
  have htimer : timer.category? .standard = some "timer" := by decide +kernel
  have hdisabled : disabled.category? .standard = some "postprocessor" := by decide +kernel
  have hgroup (name : String) (children : List Element) :
      (group name children).category? .standard = some "executable" := by
    have hkind : (group name children).category? .standard =
        (⟨"GenericController", none, true, .empty, []⟩ : Element).category? .standard := rfl
    exact hkind.trans (by decide +kernel)
  have hsame (name : String) : Rearranged .standard (group name []) (group name []) :=
    .node .nil .nil fun _ => rfl
  have hinner : Rearranged .standard (group "a" [group "c" [], timer])
      (group "a" [timer, group "c" []]) := by
    have htimer' : Rearranged .standard timer timer := .node .nil .nil fun _ => rfl
    refine .node (.cons (hsame "c") (.cons htimer' .nil)) (.swap _ _ _) fun k => ?_
    by_cases hk : k = "timer"
    · subst hk
      simp [htimer, hgroup]
    · simp [List.filter_cons, htimer, hgroup, Ne.symm hk]
  have h : Rearranged .standard plan other := by
    have hdisabled' : Rearranged .standard disabled disabled := .node .nil .nil fun _ => rfl
    refine .node (.cons hinner (.cons (hsame "b") (.cons hdisabled' .nil)))
      (List.perm_append_comm_assoc [_, _] [disabled] []) fun k => ?_
    by_cases hk : k = "postprocessor"
    · subst hk
      simp [hdisabled, hgroup]
    · simp [List.filter_cons, hdisabled, hgroup, Ne.symm hk]
  have hc : (Conversion.ofOptions {}).outcome = .ok c := by rfl
  exact ⟨hc, h, run_eq_ok_iff_of_rearranged (.inl hc) h ""⟩

end FluentPlan
