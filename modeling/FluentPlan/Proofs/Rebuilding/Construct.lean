import Mathlib.Data.List.Forall2
import Mathlib.Tactic.Common
import FluentPlan.Proofs.Rebuilding.Chain

/-!
What the element of a call is made of. Its properties come from entries of four kinds, one behind the
other: those of the values of the signature, of the calls chained to it, of the modifiers that are not
called, and of its guard.
-/

namespace FluentPlan.Build

open Script

/-! ### Modifiers that are not called -/

/-- The entries of a modifier that is not called: its defaults, if it stands by itself. -/
def silentEntries (b : Modifier × List Call) : List (String × String) :=
  if b.2.isEmpty && b.1.each.isNone && b.1.guard.isNone then
    b.1.params.flatMap fun p => p.entries p.default ""
  else []

theorem storeUncalled_eq_ok {called : List String} {blocks : List (Modifier × List Call)}
    (hm : ∀ b ∈ blocks, b.1.Restorable ∧ called.contains b.1.method = !b.2.isEmpty)
    {props after : Properties} (h : storeUncalled called (blocks.map Prod.fst) props = .ok after) :
    after = props.putAll (blocks.flatMap silentEntries) := by
  induction blocks generalizing props with
  | nil =>
    cases h
    rfl
  | cons b blocks ih =>
    obtain ⟨hr, hcalled⟩ := hm b List.mem_cons_self
    have hrest {p : Properties} (h : storeUncalled called (blocks.map Prod.fst) p = .ok after) :
        after = p.putAll (blocks.flatMap silentEntries) :=
      ih (fun c hc => hm c (List.mem_cons_of_mem b hc)) h
    rw [List.map_cons, storeUncalled, hcalled, hr.any_each] at h
    rw [List.flatMap_cons, Properties.putAll_append]
    split_ifs at h with hcond
    · have hnone : silentEntries b = [] := by
        unfold silentEntries
        rw [if_neg]
        intro hall
        simp only [Bool.and_eq_true, Option.isNone_iff_eq_none] at hall
        simp [hall.1.1, hall.1.2, hall.2] at hcond
      rw [hnone]
      exact hrest h
    · obtain ⟨mid, hmid, h⟩ := exists_of_bind_eq_ok h
      have hsome : silentEntries b = b.1.params.flatMap fun p => p.entries p.default "" := by
        unfold silentEntries
        rw [if_pos]
        simpa using hcond
      rw [hsome, hrest h]
      congr 1
      rw [storeAll_eq_ok ?_ hmid, List.flatMap_map]
      intro x hx
      obtain ⟨p, hp, rfl⟩ := List.mem_map.mp hx
      exact hr.placed p hp

/-! ### Children -/

theorem elements_append {as bs : List Operand} {es fs : List Element}
    (ha : (elements as).outcome = .ok es) (hb : (elements bs).outcome = .ok fs) :
    (elements (as ++ bs)).outcome = .ok (es ++ fs) := by
  induction as generalizing es with
  | nil =>
    cases ha
    exact hb
  | cons a as ih =>
    simp only [elements, Logged.outcome_bind] at ha
    obtain ⟨e, he, ha⟩ := exists_of_bind_eq_ok ha
    obtain ⟨es', hes, ha⟩ := exists_of_bind_eq_ok ha
    cases ha
    simp only [List.cons_append, elements, Logged.outcome_bind, he, ok_bind, ih hes]
    rfl

/-- The calls behind those of the modifiers: one that takes children, or none. -/
def IsTail (tail : List (Invocation Operand)) : Prop :=
  tail = [] ∨ ∃ inv, tail = [inv] ∧ inv.name = childrenMethod

theorem applyChain_tail {s : Signature} {tail : List (Invocation Operand)} (ht : IsTail tail)
    {d : Draft} {r : Draft × List Element} (h : (applyChain s tail d).outcome = .ok r) :
    r.1 = d ∧ (elements (tail.flatMap (·.args))).outcome = .ok r.2 := by
  rcases ht with rfl | ⟨inv, rfl, hname⟩
  · cases h
    exact ⟨rfl, rfl⟩
  · rw [applyChain, if_pos hname] at h
    simp only [Logged.outcome_bind] at h
    obtain ⟨es, hes, h⟩ := exists_of_bind_eq_ok h
    cases h
    simp only [List.flatMap_cons, List.flatMap_nil, List.append_nil, hes]
    exact ⟨trivial, trivial⟩

/-! ### Elements -/

/-- The entries of the values that are no names. -/
def scalarEntries (values : List (Param × Option Value)) : List (String × String) :=
  (values.filter fun x => x.1.kind ≠ .displayName).flatMap fun x => x.1.entries x.2 ""

/-- Properties with what the guard of a signature asks for. -/
def guarded (s : Signature) (props : Properties) : Properties :=
  s.guard.elim props fun g => g.apply props

/-- The steps of making an element, one behind the other. -/
theorem exists_of_construct {s : Signature} {values : List (Param × Option Value)}
    {children : List Operand} {chain : List (Invocation Operand)} {e : Element}
    (h : (construct s values children chain).outcome = .ok e) :
    ∃ props first d more stored,
      storeAll "" (values.filter fun x => x.1.kind ≠ .displayName) .empty = .ok props ∧
      (elements children).outcome = .ok first ∧
      (applyChain s chain ⟨props, []⟩).outcome = .ok (d, more) ∧
      storeUncalled ((chain.map (·.name)).filter (· ≠ childrenMethod)) s.modifiers d.props =
        .ok stored ∧
      e = ⟨s.kind, nameOf s.defaultName values, true, guarded s stored, first ++ more⟩ := by
  unfold construct at h
  simp only [Logged.outcome_bind, Logged.outcome_ofExcept] at h
  obtain ⟨props, hprops, h⟩ := exists_of_bind_eq_ok h
  obtain ⟨-, -, h⟩ := exists_of_bind_eq_ok h
  obtain ⟨first, hfirst, h⟩ := exists_of_bind_eq_ok h
  obtain ⟨⟨d, more⟩, hchain, h⟩ := exists_of_bind_eq_ok h
  obtain ⟨stored, hstored, h⟩ := exists_of_bind_eq_ok h
  refine ⟨props, first, d, more, stored, hprops, hfirst, hchain, hstored, ?_⟩
  unfold guarded
  cases hg : s.guard <;> rw [hg] at h <;> cases h <;> rfl

theorem checkLeading_of_construct {s : Signature} {values : List (Param × Option Value)}
    {children : List Operand} {chain : List (Invocation Operand)} {e : Element}
    (h : (construct s values children chain).outcome = .ok e) : checkLeading s children = .ok () := by
  unfold construct at h
  simp only [Logged.outcome_bind, Logged.outcome_ofExcept] at h
  obtain ⟨props, -, h⟩ := exists_of_bind_eq_ok h
  obtain ⟨⟨⟩, hleading, -⟩ := exists_of_bind_eq_ok h
  exact hleading

/-- An element is made by these steps. -/
theorem outcome_construct {s : Signature} {values : List (Param × Option Value)}
    {children : List Operand} {chain : List (Invocation Operand)} {props : Properties}
    {first : List Element} {d : Draft} {more : List Element} {stored : Properties}
    (hprops : storeAll "" (values.filter fun x => x.1.kind ≠ .displayName) .empty = .ok props)
    (hleading : checkLeading s children = .ok ())
    (hfirst : (elements children).outcome = .ok first)
    (hchain : (applyChain s chain ⟨props, []⟩).outcome = .ok (d, more))
    (hstored : storeUncalled ((chain.map (·.name)).filter (· ≠ childrenMethod)) s.modifiers d.props =
      .ok stored) :
    (construct s values children chain).outcome =
      .ok ⟨s.kind, nameOf s.defaultName values, true, guarded s stored, first ++ more⟩ := by
  unfold construct guarded
  simp only [Logged.outcome_bind, Logged.outcome_ofExcept, hprops, hleading, hfirst, hchain, hstored,
    ok_bind]
  cases s.guard <;> rfl

/-- What a signature makes of a call: the calls chained to it are those of its modifiers, one modifier
after the other, and perhaps one more for children. -/
theorem construct_eq_ok {s : Signature} (hs : s.Restorable) {values : List (Param × Option Value)}
    (hv : values.map Prod.fst = s.scalarParams) {children : List Operand}
    {blocks : List (Modifier × List Call)} (hm : blocks.map Prod.fst = s.modifiers)
    (hb : ∀ b ∈ blocks, ∀ c ∈ b.2, c.head.method = b.1.method)
    {invs tail : List (Invocation Operand)} (hi : List.Forall₂ Says invs (blocks.flatMap Prod.snd))
    (ht : IsTail tail) {e : Element}
    (h : (construct s values children (invs ++ tail)).outcome = .ok e) :
    e.kind = s.kind ∧ e.name = nameOf s.defaultName values ∧ e.enabled = true ∧
      (elements (children ++ tail.flatMap (·.args))).outcome = .ok e.children ∧
      ∃ ess, List.Forall₂ IsBlock blocks ess ∧
        e.properties = guarded s (.putAll .empty
          (scalarEntries values ++ ess.flatten ++ blocks.flatMap silentEntries)) := by
  have hmem {b : Modifier × List Call} (hb : b ∈ blocks) : b.1 ∈ s.modifiers :=
    hm ▸ List.mem_map_of_mem hb
  have hnodup : (blocks.map fun b => b.1.method).Nodup := by
    have := hs.methods_nodup
    rwa [← hm, List.map_map] at this
  obtain ⟨props, first, d, more, stored, hprops, hfirst, hchain, hstored, rfl⟩ :=
    exists_of_construct h
  have hplaced : ∀ x ∈ values.filter (fun x => x.1.kind ≠ .displayName), x.1.isPlaced = true := by
    intro x hx
    obtain ⟨hx, hk⟩ := List.mem_filter.mp hx
    have hr := hs.scalars x.1 (hv ▸ List.mem_map_of_mem hx)
    simp only [Param.isRestorable, Bool.and_eq_true, Bool.or_eq_true, decide_eq_true_eq] at hr
    exact hr.2.resolve_left fun h => absurd h.1 (by simpa using hk)
  obtain ⟨ess, mid, hess, hrest, hmid⟩ :=
    applyChain_blocks hs (fun b hb' => ⟨hmem hb', hb b hb'⟩) hnodup hi (fun _ _ => rfl) hchain
  obtain ⟨hd, hmore⟩ := applyChain_tail ht hrest
  have hd : d = mid := hd
  have hcalled : ∀ b ∈ blocks, b.1.Restorable ∧ (((invs ++ tail).map (·.name)).filter
      (· ≠ childrenMethod)).contains b.1.method = !b.2.isEmpty := by
    intro b hb'
    have hr := hs.modifiers b.1 (hmem hb')
    refine ⟨hr, ?_⟩
    rw [Bool.eq_iff_iff, List.contains_iff_mem, List.mem_filter, List.mem_map]
    constructor
    · rintro ⟨⟨inv, hinv, hname⟩, -⟩
      rcases List.mem_append.mp hinv with hinv | hinv
      · obtain ⟨c, hc, hsaid⟩ := exists_of_forall₂ hi.flip hinv
        obtain ⟨b', hb'', hc⟩ := List.mem_flatMap.mp hc
        have hmethod : b'.1.method = b.1.method := by
          rw [← hb b' hb'' c hc, ← hsaid.1, hname]
        have heq : b' = b := List.inj_on_of_nodup_map hnodup hb'' hb' hmethod
        subst heq
        simpa using List.ne_nil_of_mem hc
      · rcases ht with rfl | ⟨inv', rfl, hname'⟩
        · cases hinv
        · rw [List.mem_singleton.mp hinv, hname'] at hname
          exact absurd hname.symm hr.method_ne
    · intro hne
      obtain ⟨c, hc⟩ := List.exists_mem_of_ne_nil b.2 (by simpa using hne)
      obtain ⟨inv, hinv, hsaid⟩ := exists_of_forall₂ hi (List.mem_flatMap.mpr ⟨b, hb', hc⟩)
      refine ⟨⟨inv, List.mem_append_left _ hinv, hsaid.1.trans (hb b hb' c hc)⟩, ?_⟩
      simpa using hr.method_ne
  rw [← hm] at hstored
  have hstored := storeUncalled_eq_ok hcalled hstored
  have hscalars := storeAll_eq_ok hplaced hprops
  refine ⟨rfl, rfl, rfl, elements_append hfirst hmore, ess, hess, ?_⟩
  rw [hstored, hd, hmid, hscalars]
  simp only [Properties.putAll_append, scalarEntries]

end FluentPlan.Build
