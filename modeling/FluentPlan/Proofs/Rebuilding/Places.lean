import Mathlib.Data.List.Nodup
import Mathlib.Tactic.Common
import FluentPlan.Proofs.Rebuilding.Construct
import FluentPlan.Proofs.Rebuilding.Reading

/-!
Where the entries of an element stand. The region of a parameter holds the entries of its own value,
whatever else the element stores, and guards that accepted what a call was made from accept what it
makes.
-/

namespace FluentPlan

open Build Script

/-! ### Entries in regions -/

theorem filter_eq_self_of_inRegion {es : List (String × String)} {ps : List KeyPattern}
    (h : ∀ e ∈ es, inRegion ps e.1 = true) : es.filter (fun e => inRegion ps e.1) = es :=
  List.filter_eq_self.mpr h

theorem filter_eq_nil_of_not_inRegion {es : List (String × String)} {ps : List KeyPattern}
    (h : ∀ e ∈ es, inRegion ps e.1 = false) : es.filter (fun e => inRegion ps e.1) = [] :=
  List.filter_eq_nil_iff.mpr fun e he => by simp [h e he]

theorem not_inRegion_of_apart' {ps qs : List KeyPattern} (h : regionsApart ps qs = true)
    {key : String} (hq : inRegion qs key = true) : inRegion ps key = false := by
  rw [Bool.eq_false_iff]
  intro hp
  rw [not_inRegion_of_apart h hp] at hq
  cases hq

/-- Of values in places apart from each other each region holds its own entries. -/
theorem filter_values (lead : String) {vs : List (Param × Option Value)}
    (hp : ∀ x ∈ vs, x.1.isPlaced = true)
    (ha : (vs.map Prod.fst).Pairwise fun p q =>
      regionsApart (p.region lead) (q.region lead) = true)
    {x : Param × Option Value} (hx : x ∈ vs) :
    (vs.flatMap fun y => y.1.entries y.2 lead).filter
      (fun e => inRegion (x.1.region lead) e.1) = x.1.entries x.2 lead := by
  induction vs with
  | nil => cases hx
  | cons y vs ih =>
    rw [List.map_cons, List.pairwise_cons] at ha
    have hrest := fun {z : Param × Option Value} hz => hp z (List.mem_cons_of_mem y hz)
    have hy := hp y List.mem_cons_self
    rw [List.flatMap_cons, List.filter_append]
    rcases List.mem_cons.mp hx with rfl | hx
    · have hown := filter_eq_self_of_inRegion
        fun e (he : e ∈ x.1.entries x.2 lead) => Param.inRegion_of_mem_entries hy he
      have hnone : (vs.flatMap fun y => y.1.entries y.2 lead).filter
          (fun e => inRegion (x.1.region lead) e.1) = [] := by
        refine filter_eq_nil_of_not_inRegion fun e he => ?_
        obtain ⟨z, hz, he⟩ := List.mem_flatMap.mp he
        exact not_inRegion_of_apart' (ha.1 z.1 (List.mem_map_of_mem hz))
          (Param.inRegion_of_mem_entries (hrest hz) he)
      rw [hown, hnone, List.append_nil]
    · have hnone : (y.1.entries y.2 lead).filter (fun e => inRegion (x.1.region lead) e.1) = [] :=
        filter_eq_nil_of_not_inRegion fun e he =>
          not_inRegion_of_apart (ha.1 x.1 (List.mem_map_of_mem hx))
            (Param.inRegion_of_mem_entries hy he)
      rw [hnone, List.nil_append, ih (fun z hz => hrest hz) ha.2 hx]

/-- Where all blocks but one are outside of a region, it holds what it holds of that one. -/
theorem filter_flatten_of_forall₂ {α : Type} {R : α → List (String × String) → Prop} {xs : List α}
    (keep : String → Bool) {ess : List (List (String × String))} (h : List.Forall₂ R xs ess)
    (hn : xs.Nodup) {x : α} (hx : x ∈ xs)
    (hne : ∀ y ∈ xs, y ≠ x → ∀ es, R y es → es.filter (fun e => keep e.1) = []) :
    ∃ es, R x es ∧ ess.flatten.filter (fun e => keep e.1) = es.filter fun e => keep e.1 := by
  have hnil {ys : List α} {fss : List (List (String × String))} (h : List.Forall₂ R ys fss)
      (hno : ∀ y ∈ ys, ∀ es, R y es → es.filter (fun e => keep e.1) = []) :
      fss.flatten.filter (fun e => keep e.1) = [] := by
    induction h with
    | nil => rfl
    | @cons y es ys ess hr _ ih =>
      rw [List.flatten_cons, List.filter_append, hno y List.mem_cons_self es hr,
        ih fun z hz => hno z (List.mem_cons_of_mem y hz), List.nil_append]
  induction h with
  | nil => cases hx
  | @cons y es ys ess hr hrest ih =>
    rw [List.nodup_cons] at hn
    rw [List.flatten_cons, List.filter_append]
    rcases List.mem_cons.mp hx with rfl | hx
    · refine ⟨es, hr, ?_⟩
      rw [hnil hrest fun y hy => hne y (List.mem_cons_of_mem x hy) fun he => hn.1 (he ▸ hy),
        List.append_nil]
    · obtain ⟨fs, hfs, hflat⟩ := ih hn.2 hx fun z hz => hne z (List.mem_cons_of_mem y hz)
      refine ⟨fs, hfs, ?_⟩
      rw [hne y List.mem_cons_self (fun he => hn.1 (he ▸ hx)) es hr, hflat, List.nil_append]

/-! ### Regions of modifiers -/

namespace Modifier.Restorable

variable {m : Modifier} (hr : m.Restorable)

include hr

theorem region_of_each {each : String} (he : m.each = some each) {p : Param} (hp : p ∈ m.params)
    (lead : String) : p.region lead = [.exact (lead ++ p.propText)] := by
  have hcoll := hr.collecting
  simp only [isCollecting, he, Bool.and_eq_true, List.all_eq_true, decide_eq_true_eq] at hcoll
  have hsimple := hcoll.1.2 p hp
  obtain ⟨kind, prop, default, required, mandatory⟩ := p
  cases kind with
  | displayName | children | textList | url => simp [Param.region] at hsimple
  | _ => rfl

theorem inRegion_of_lead {p : Param} (hp : p ∈ m.params) {i : Nat} {key : String}
    (hk : inRegion (p.region (lead m i)) key = true) : inRegion m.region key = true := by
  cases he : m.each with
  | none =>
    obtain ⟨a, ha, hc⟩ := List.any_eq_true.mp hk
    simp only [lead, he] at ha
    simp only [Modifier.region, he]
    exact List.any_eq_true.mpr ⟨a, List.mem_flatMap.mpr ⟨p, hp, ha⟩, hc⟩
  | some each =>
    rw [hr.region_of_each he hp] at hk
    simp only [inRegion, List.any_cons, List.any_nil, Bool.or_false, KeyPattern.covers,
      decide_eq_true_eq] at hk
    have happ : lead m i ++ p.propText = each ++ "/" ++ (toString i ++ "/" ++ p.propText) := by
      simp [lead, he, Element.entryLead, String.append_assoc]
    simp [Modifier.region, he, inRegion, KeyPattern.covers, hk, happ, behind?_append]

theorem apart_lead (index : Nat) : m.params.Pairwise fun p q =>
    regionsApart (p.region (lead m index)) (q.region (lead m index)) = true := by
  cases he : m.each with
  | none =>
    simp only [lead, he]
    rcases hr.divided with hl | hd
    · unfold isListing at hl
      split at hl
      · next p hparams =>
        rw [hparams]
        exact List.pairwise_singleton _ _
      · cases hl
    · simp only [isDivided, Bool.and_eq_true, decide_eq_true_eq] at hd
      exact hd.2
  | some each =>
    have hcoll := hr.collecting
    simp only [isCollecting, he, Bool.and_eq_true, decide_eq_true_eq] at hcoll
    have hnodup : m.params.Pairwise fun p q => p.propText ≠ q.propText :=
      List.pairwise_map.mp hcoll.2
    refine hnodup.imp_of_mem fun {p q} hp hq hne => ?_
    rw [hr.region_of_each he hp, hr.region_of_each he hq]
    simp [regionsApart, KeyPattern.apart, String.append_right_inj, hne]

end Modifier.Restorable

theorem lead_inj {m : Modifier} (he : m.each ≠ none) {i j : Nat} {s t : String}
    (h : lead m i ++ s = lead m j ++ t) : i = j := by
  obtain ⟨each, he⟩ := Option.ne_none_iff_exists'.mp he
  simp only [lead, he] at h
  have hi := Element.indexIn?_entryLead each s i
  rw [h, Element.indexIn?_entryLead each t j] at hi
  cases hi
  rfl

/-! ### Blocks -/

theorem map_fst_of_bound {m : Modifier} (hr : m.Restorable) {c : Invocation Operand}
    {vs : List (Param × Option Value)} (h : bound m c = .ok vs) : vs.map Prod.fst = m.params := by
  unfold bound at h
  split at h
  · next p ps hflag hparams =>
    cases h
    have hs := hr.switch (Bool.and_eq_true_iff.mp hflag).1
    unfold Modifier.isSwitch at hs
    split at hs
    · next hone =>
      rw [hone] at hparams
      cases hparams
      rw [hone]
      rfl
    · cases hs
  · exact map_fst_of_bindValues (bindAll_eq_ok h)

theorem mem_blockEntries {m : Modifier} {index : Nat} {vss : List (List (Param × Option Value))}
    {e : String × String} (h : e ∈ blockEntries m index vss) :
    (∃ (i : Nat) (vs : List (Param × Option Value)) (x : Param × Option Value),
        vss[i]? = some vs ∧ x ∈ vs ∧ e ∈ x.1.entries x.2 (lead m (index + i))) ∨
      (vss ≠ [] ∧ ∃ g, m.guard = some g ∧ e ∈ g.demand) := by
  induction vss generalizing index with
  | nil => cases h
  | cons vs vss ih =>
    rw [blockEntries, List.mem_append, List.mem_append] at h
    rcases h with (h | h) | h
    · obtain ⟨x, hx, he⟩ := List.mem_flatMap.mp h
      exact .inl ⟨0, vs, x, rfl, hx, he⟩
    · refine .inr ⟨by simp, ?_⟩
      cases hg : m.guard with
      | none =>
        rw [hg] at h
        cases h
      | some g =>
        rw [hg] at h
        exact ⟨g, rfl, h⟩
    · rcases ih h with ⟨i, ws, x, hi, hx, he⟩ | ⟨-, g, hg, he⟩
      · refine .inl ⟨i + 1, ws, x, by simpa using hi, hx, ?_⟩
        rwa [show index + (i + 1) = index + 1 + i by omega]
      · exact .inr ⟨by simp, g, hg, he⟩

section

variable {m : Modifier} (hr : m.Restorable)
  (hg : ∀ g, m.guard = some g → ∀ e ∈ g.demand, inRegion m.region e.1 = false)

include hr hg

theorem filter_demand {p : Param} (hp : p ∈ m.params) (index : Nat) :
    (m.guard.elim [] Guard.demand).filter
      (fun e => inRegion (p.region (lead m index)) e.1) = [] := by
  refine filter_eq_nil_of_not_inRegion fun e he => ?_
  rw [Bool.eq_false_iff]
  intro hk
  have hin := hr.inRegion_of_lead hp hk
  cases hgd : m.guard with
  | none =>
    rw [hgd] at he
    cases he
  | some g =>
    rw [hgd] at he
    rw [hg g hgd e he] at hin
    cases hin

/-- Of the block of a modifier the region of a parameter, behind its lead, holds the entries of the
value that the parameter has there. -/
theorem filter_blockEntries {vss : List (List (Param × Option Value))}
    (hv : ∀ vs ∈ vss, vs.map Prod.fst = m.params) (hone : m.each = none → vss.length ≤ 1)
    {k i : Nat} {vs : List (Param × Option Value)} (hvs : vss[i]? = some vs)
    {x : Param × Option Value} (hx : x ∈ vs) :
    (blockEntries m k vss).filter
      (fun e => inRegion (x.1.region (lead m (k + i))) e.1) =
        x.1.entries x.2 (lead m (k + i)) := by
  have hmem {ws : List (Param × Option Value)} (hws : ws ∈ vss) {y : Param × Option Value}
      (hy : y ∈ ws) : y.1 ∈ m.params := hv ws hws ▸ List.mem_map_of_mem hy
  have hxm : x.1 ∈ m.params := hmem (List.mem_of_getElem? hvs) hx
  have hother (he : m.each ≠ none) {y : Param × Option Value} (hym : y.1 ∈ m.params) {j l : Nat}
      (hjl : j ≠ l) {e : String × String} (hin : e ∈ y.1.entries y.2 (lead m j)) :
      inRegion (x.1.region (lead m l)) e.1 = false := by
    have hown := Param.inRegion_of_mem_entries (hr.placed y.1 hym) hin
    obtain ⟨each, heach⟩ := Option.ne_none_iff_exists'.mp he
    rw [Bool.eq_false_iff]
    intro hk
    rw [hr.region_of_each heach hym] at hown
    rw [hr.region_of_each heach hxm] at hk
    simp only [inRegion, List.any_cons, List.any_nil, Bool.or_false, KeyPattern.covers,
      decide_eq_true_eq] at hown hk
    exact hjl (lead_inj he (hown.symm.trans hk))
  induction vss generalizing k i with
  | nil => cases hvs
  | cons ws vss ih =>
    have hsingle : vss ≠ [] → m.each ≠ none := by
      intro hne he
      have hlen := hone he
      have hpos := List.length_pos_iff.mpr hne
      rw [List.length_cons] at hlen
      omega
    have hdemand := fun j => filter_demand hr hg hxm j
    rw [blockEntries, List.filter_append, List.filter_append, hdemand, List.append_nil]
    cases i with
    | zero =>
      cases hvs
      have hplaced : ∀ y ∈ vs, y.1.isPlaced = true :=
        fun y hy => hr.placed y.1 (hmem List.mem_cons_self hy)
      have hapart : (vs.map Prod.fst).Pairwise fun p q =>
          regionsApart (p.region (lead m k)) (q.region (lead m k)) = true := by
        rw [hv vs List.mem_cons_self]
        exact hr.apart_lead k
      have hrest : (blockEntries m (k + 1) vss).filter
          (fun e => inRegion (x.1.region (lead m k)) e.1) = [] := by
        refine filter_eq_nil_of_not_inRegion fun e he => ?_
        rcases mem_blockEntries he with ⟨j, us, y, hj, hy, he⟩ | ⟨-, g, hgd, he⟩
        · have hus := List.mem_of_getElem? hj
          exact hother (hsingle (List.ne_nil_of_mem hus))
            (hmem (List.mem_cons_of_mem vs hus) hy) (by omega) he
        · rw [Bool.eq_false_iff]
          intro hk
          have hin := hr.inRegion_of_lead hxm hk
          rw [hg g hgd e he] at hin
          cases hin
      rw [Nat.add_zero, filter_values _ hplaced hapart hx, hrest, List.append_nil]
    | succ i =>
      have hvs' : vss[i]? = some vs := by simpa using hvs
      have hus := List.mem_of_getElem? hvs'
      have heach := hsingle (List.ne_nil_of_mem hus)
      have hhead : (ws.flatMap fun y => y.1.entries y.2 (lead m k)).filter
          (fun e => inRegion (x.1.region (lead m (k + (i + 1)))) e.1) = [] := by
        refine filter_eq_nil_of_not_inRegion fun e he => ?_
        obtain ⟨y, hy, he⟩ := List.mem_flatMap.mp he
        exact hother heach (hmem List.mem_cons_self hy) (by omega) he
      rw [hhead, List.nil_append, show k + (i + 1) = k + 1 + i by omega]
      exact ih (fun us hus => hv us (List.mem_cons_of_mem ws hus)) (fun he => absurd he heach) hvs'
        fun hus => hmem (List.mem_cons_of_mem ws hus)

end

end FluentPlan
