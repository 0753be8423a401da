import Mathlib.Data.List.Nodup
import Mathlib.Tactic.Common
import FluentPlan.Proofs.Rebuilding.Places

/-!
What an element that was built has in the region of a value: the entries of that value and no others.
Modifiers that share a region exclude each other by their guards, and the guards of those that were
called accept the element, as they accepted what the calls were made from.
-/

namespace FluentPlan

open Build Script

/-! ### Guards -/

namespace Guard

theorem key_of_mem_demand {g : Guard} {e : String × String} (h : e ∈ g.demand) : g.key = e.1 := by
  cases g with
  | equals k v => rw [List.mem_singleton.mp h, key]
  | _ => cases h

theorem get?_of_demand {g : Guard} {e : String × String} (h : e ∈ g.demand) {props : Properties}
    (ha : g.accepts props = true) : props.get? e.1 = some e.2 := by
  cases g with
  | equals k v =>
    rw [List.mem_singleton.mp h]
    simpa [accepts] using ha
  | _ => cases h

/-- A plain guard accepts where each value under its key is one that accepted properties have, and
where what it asks for is there. -/
theorem accepts_of_get? {g : Guard} (hg : g.isPlain = true) {old props : Properties}
    (hold : g.accepts old = true)
    (hsome : ∀ t, props.get? g.key = some t → old.get? g.key = some t)
    (hdemand : ∀ e ∈ g.demand, (props.get? e.1).isSome = true) : g.accepts props = true := by
  cases g with
  | equals k v =>
    obtain ⟨t, ht⟩ := Option.isSome_iff_exists.mp (hdemand (k, v) List.mem_cons_self)
    have hk : old.get? k = some t := hsome t ht
    have hv : old.get? k = some v := by simpa [accepts] using hold
    have ht : props.get? k = some t := ht
    simp only [accepts, ht, ← hk, hv, decide_true]
  | not g =>
    cases g with
    | equals k v =>
      have hne : old.get? k ≠ some v := by simpa [accepts] using hold
      have hne' : props.get? k ≠ some v := fun h => hne (hsome v h)
      simpa [accepts] using hne'
    | _ => cases hg
  | isIn _ _ | all _ => cases hg

theorem not_accepts_of_excludes {g h : Guard} (he : g.excludes h = true) {props : Properties}
    (ha : g.accepts props = true) : h.accepts props = false := by
  have hequals {k l v w : String} (hkl : k = l) (h : v ≠ w)
      (ha : accepts props (.equals k v) = true) : accepts props (.equals l w) = false := by
    subst hkl
    have hk : props.get? k = some v := by simpa [accepts] using ha
    simpa [accepts, hk] using h
  cases g with
  | equals k v =>
    cases h with
    | equals l w =>
      simp only [excludes, Bool.and_eq_true, decide_eq_true_eq] at he
      exact hequals he.1 he.2 ha
    | not h =>
      cases h with
      | equals l w =>
        simp only [excludes, Bool.and_eq_true, decide_eq_true_eq] at he
        obtain ⟨rfl, rfl⟩ := he
        rw [accepts, ha]
        rfl
      | _ => cases he
    | _ => cases he
  | not g =>
    cases g with
    | equals k v =>
      cases h with
      | equals l w =>
        simp only [excludes, Bool.and_eq_true, decide_eq_true_eq] at he
        obtain ⟨rfl, rfl⟩ := he
        simpa [accepts] using ha
      | _ => cases he
    | _ => cases he
  | _ => cases he

end Guard

/-! ### Regions of a signature -/

theorem inRegion_flatMap {α : Type} {xs : List α} {f : α → List KeyPattern} {x : α} (hx : x ∈ xs)
    {key : String} (h : inRegion (f x) key = true) : inRegion (xs.flatMap f) key = true := by
  obtain ⟨a, ha, hc⟩ := List.any_eq_true.mp h
  exact List.any_eq_true.mpr ⟨a, List.mem_flatMap.mpr ⟨x, hx, ha⟩, hc⟩

namespace Signature

theorem inRegion_of_scalar {s : Signature} {p : Param} (hp : p ∈ s.scalarParams) {key : String}
    (h : inRegion (p.region "") key = true) : inRegion s.region key = true := by
  have := inRegion_flatMap (f := fun p : Param => p.region "") hp h
  simp only [inRegion, region, List.any_append, Bool.or_eq_true] at this ⊢
  exact .inl this

theorem inRegion_of_modifier {s : Signature} {m : Modifier} (hm : m ∈ s.modifiers) {key : String}
    (h : inRegion m.region key = true) : inRegion s.region key = true := by
  have := inRegion_flatMap hm h
  simp only [inRegion, region, List.any_append, Bool.or_eq_true] at this ⊢
  exact .inr this

end Signature

namespace Build

theorem inRegion_of_mem_silentEntries {b : Modifier × List Call} (hr : b.1.Restorable)
    {e : String × String} (h : e ∈ silentEntries b) : inRegion b.1.region e.1 = true := by
  unfold silentEntries at h
  split_ifs at h with hc
  · obtain ⟨p, hp, he⟩ := List.mem_flatMap.mp h
    simp only [Bool.and_eq_true, Option.isNone_iff_eq_none] at hc
    have hlead : lead b.1 0 = "" := by simp [lead, hc.1.2]
    refine hr.inRegion_of_lead hp (i := 0) ?_
    rw [hlead]
    exact Param.inRegion_of_mem_entries (hr.placed p hp) he
  · cases h

theorem inRegion_of_mem_block {b : Modifier × List Call} (hr : b.1.Restorable)
    {es : List (String × String)} (hb : IsBlock b es) {e : String × String} (h : e ∈ es) :
    inRegion b.1.region e.1 = true ∨ (b.2 ≠ [] ∧ ∃ g, b.1.guard = some g ∧ e ∈ g.demand) := by
  obtain ⟨vss, hvss, rfl⟩ := hb
  rcases mem_blockEntries h with ⟨i, vs, x, hi, hx, he⟩ | ⟨hne, hg⟩
  · obtain ⟨c, -, inv, -, hbound⟩ := exists_of_forall₂ hvss (List.mem_of_getElem? hi)
    have hm : x.1 ∈ b.1.params := map_fst_of_bound hr hbound ▸ List.mem_map_of_mem hx
    exact .inl (hr.inRegion_of_lead hm (Param.inRegion_of_mem_entries (hr.placed _ hm) he))
  · refine .inr ⟨?_, hg⟩
    intro hnil
    rw [hnil] at hvss
    cases hvss
    exact hne rfl

/-- The entries that an element stores before the guard of its signature is applied. -/
def storedEntries (values : List (Param × Option Value)) (blocks : List (Modifier × List Call))
    (ess : List (List (String × String))) : List (String × String) :=
  scalarEntries values ++ ess.flatten ++ blocks.flatMap silentEntries

section

variable {s : Signature} (hs : s.Restorable) {values : List (Param × Option Value)}
  (hv : values.map Prod.fst = s.scalarParams) {blocks : List (Modifier × List Call)}
  (hm : blocks.map Prod.fst = s.modifiers) {ess : List (List (String × String))}
  (he : List.Forall₂ IsBlock blocks ess)

include hs

theorem placed_of_scalar {p : Param} (hp : p ∈ s.scalarParams) (hk : p.kind ≠ .displayName) :
    p.isPlaced = true := by
  have hr := hs.scalars p hp
  simp only [Param.isRestorable, Bool.and_eq_true, Bool.or_eq_true, decide_eq_true_eq] at hr
  exact hr.2.resolve_left fun h => hk h.1

theorem not_inRegion_of_demand {m : Modifier} (hm : m ∈ s.modifiers) {g : Guard}
    (hg : m.guard = some g) {e : String × String} (h : e ∈ g.demand) :
    inRegion s.region e.1 = false := by
  refine hs.guards_apart _ (List.mem_append_left _ (List.mem_filterMap.mpr ⟨m, hm, ?_⟩))
  rw [hg, Option.map_some, Guard.key_of_mem_demand h]

include hv in
theorem exists_of_mem_scalarEntries {e : String × String} (h : e ∈ scalarEntries values) :
    ∃ p ∈ s.scalarParams, inRegion (p.region "") e.1 = true := by
  obtain ⟨x, hx, h⟩ := List.mem_flatMap.mp h
  obtain ⟨hx, hk⟩ := List.mem_filter.mp hx
  have hp : x.1 ∈ s.scalarParams := hv ▸ List.mem_map_of_mem hx
  exact ⟨x.1, hp, Param.inRegion_of_mem_entries (placed_of_scalar hs hp (by simpa using hk)) h⟩

include hm in
theorem modifier_of_mem {b : Modifier × List Call} (hb : b ∈ blocks) :
    b.1 ∈ s.modifiers ∧ b.1.Restorable := by
  have hmem : b.1 ∈ s.modifiers := hm ▸ List.mem_map_of_mem hb
  exact ⟨hmem, hs.modifiers b.1 hmem⟩

include hm he in
theorem exists_of_mem_flatten {e : String × String} (h : e ∈ ess.flatten) :
    ∃ b ∈ blocks, inRegion b.1.region e.1 = true ∨
      (b.2 ≠ [] ∧ ∃ g, b.1.guard = some g ∧ e ∈ g.demand) := by
  obtain ⟨es, hes, hmem⟩ := List.mem_flatten.mp h
  obtain ⟨b, hb, hblock⟩ := exists_of_forall₂ he hes
  exact ⟨b, hb, inRegion_of_mem_block (modifier_of_mem hs hm hb).2 hblock hmem⟩

section

variable {old : Properties}
  (ho : ∀ b ∈ blocks, b.2 ≠ [] → ∀ g, b.1.guard = some g → g.accepts old = true)

include hv hm he ho

/-- What stands under the key of a guard comes from a guard that accepted the old properties. -/
theorem get?_of_mem_storedEntries {e : String × String} (h : e ∈ storedEntries values blocks ess)
    (hk : e.1 ∈ s.guardKeys) : old.get? e.1 = some e.2 := by
  have hout := hs.guards_apart _ hk
  have hno {b : Modifier × List Call} (hb : b ∈ blocks) : ¬ inRegion b.1.region e.1 = true := by
    intro hin
    rw [Signature.inRegion_of_modifier (modifier_of_mem hs hm hb).1 hin] at hout
    cases hout
  rcases List.mem_append.mp h with h | h
  · rcases List.mem_append.mp h with h | h
    · obtain ⟨p, hp, hin⟩ := exists_of_mem_scalarEntries hs hv h
      rw [Signature.inRegion_of_scalar hp hin] at hout
      cases hout
    · obtain ⟨b, hb, hin | ⟨hne, g, hg, hd⟩⟩ := exists_of_mem_flatten hs hm he h
      · exact absurd hin (hno hb)
      · exact Guard.get?_of_demand hd (ho b hb hne g hg)
  · obtain ⟨b, hb, h⟩ := List.mem_flatMap.mp h
    exact absurd (inRegion_of_mem_silentEntries (modifier_of_mem hs hm hb).2 h) (hno hb)

/-- The guard of a modifier that was called accepts the element. -/
theorem accepts_guarded {b : Modifier × List Call} (hb : b ∈ blocks) (hne : b.2 ≠ []) {g : Guard}
    (hg : b.1.guard = some g) :
    g.accepts (guarded s (.putAll .empty (storedEntries values blocks ess))) = true := by
  obtain ⟨hmem, hr⟩ := modifier_of_mem hs hm hb
  have hplain := hr.guard_plain g hg
  have hkey : g.key ∈ s.guardKeys := by
    refine List.mem_append_left _ (List.mem_filterMap.mpr ⟨b.1, hmem, ?_⟩)
    rw [hg, Option.map_some]
  have hstored : g.accepts (.putAll .empty (storedEntries values blocks ess)) = true := by
    refine Guard.accepts_of_get? hplain (ho b hb hne g hg) (fun t ht => ?_) fun e hd => ?_
    · exact get?_of_mem_storedEntries hs hv hm he ho
        (Properties.exists_mem_of_get?_putAll ht) hkey
    · refine Properties.isSome_get?_putAll (List.mem_append_left _ (List.mem_append_right _ ?_))
      obtain ⟨es, hes, vss, hvss, rfl⟩ := exists_of_forall₂ he.flip hb
      refine List.mem_flatten.mpr ⟨_, hes, ?_⟩
      obtain ⟨c, cs, hcs⟩ := List.exists_cons_of_ne_nil hne
      rw [hcs] at hvss
      cases hvss with
      | cons _ _ =>
        rw [blockEntries, hg]
        exact List.mem_append_left _ (List.mem_append_right _ hd)
  unfold guarded
  cases hgs : s.guard with
  | none => exact hstored
  | some h => exact Guard.accepts_apply hplain (hs.spared b.1 hmem g hg h hgs) hstored

end

/-- What the guard of a signature adds is in no region. -/
theorem exists_guarded_putAll (props : Properties) :
    ∃ own, guarded s props = props.putAll own ∧ ∀ e ∈ own, inRegion s.region e.1 = false := by
  unfold guarded
  cases hg : s.guard with
  | none => exact ⟨[], rfl, List.forall_mem_nil _⟩
  | some g =>
    obtain ⟨own, hown, hk⟩ := g.exists_apply_eq props
    refine ⟨own, hown, fun e hm => hs.guards_apart _ (List.mem_append_right _ ?_)⟩
    rw [hg]
    exact hk e hm

/-- The properties of an element are entries, and what the guard of the signature adds. -/
theorem exists_guarded_eq (es : List (String × String)) :
    ∃ own, guarded s (.putAll .empty es) = .putAll .empty (es ++ own) ∧
      ∀ e ∈ own, inRegion s.region e.1 = false := by
  obtain ⟨own, hown, hout⟩ := exists_guarded_putAll hs (.putAll .empty es)
  exact ⟨own, by rw [hown, Properties.putAll_append], hout⟩

include hv hm he in
/-- The region of a parameter of the signature holds the entries of its value. -/
theorem filter_scalar {own : List (String × String)}
    (ho : ∀ e ∈ own, inRegion s.region e.1 = false) {x : Param × Option Value} (hx : x ∈ values)
    (hk : x.1.kind ≠ .displayName) :
    (storedEntries values blocks ess ++ own).filter (fun e => inRegion (x.1.region "") e.1) =
      x.1.entries x.2 "" := by
  have hp : x.1 ∈ s.scalarParams := hv ▸ List.mem_map_of_mem hx
  have hout {e : String × String} (h : inRegion s.region e.1 = false) :
      inRegion (x.1.region "") e.1 = false := by
    rw [Bool.eq_false_iff]
    intro hin
    rw [Signature.inRegion_of_scalar hp hin] at h
    cases h
  have hmod {b : Modifier × List Call} (hb : b ∈ blocks) {e : String × String}
      (h : inRegion b.1.region e.1 = true) : inRegion (x.1.region "") e.1 = false :=
    not_inRegion_of_apart (hs.scalars_modifiers b.1 (modifier_of_mem hs hm hb).1 x.1 hp).2 h
  have hscalar : (scalarEntries values).filter (fun e => inRegion (x.1.region "") e.1) =
      x.1.entries x.2 "" := by
    refine filter_values "" (fun y hy => ?_) ?_ (List.mem_filter.mpr ⟨hx, by simpa using hk⟩)
    · obtain ⟨hy, hk⟩ := List.mem_filter.mp hy
      exact placed_of_scalar hs (hv ▸ List.mem_map_of_mem hy) (by simpa using hk)
    · exact hs.scalars_apart.sublist (hv ▸ List.filter_sublist.map Prod.fst)
  have hblocks : ess.flatten.filter (fun e => inRegion (x.1.region "") e.1) = [] := by
    refine filter_eq_nil_of_not_inRegion fun e h => ?_
    obtain ⟨b, hb, hin | ⟨-, g, hg, hd⟩⟩ := exists_of_mem_flatten hs hm he h
    · exact hmod hb hin
    · exact hout (not_inRegion_of_demand hs (modifier_of_mem hs hm hb).1 hg hd)
  have hsilent : (blocks.flatMap silentEntries).filter
      (fun e => inRegion (x.1.region "") e.1) = [] := by
    refine filter_eq_nil_of_not_inRegion fun e h => ?_
    obtain ⟨b, hb, h⟩ := List.mem_flatMap.mp h
    exact hmod hb (inRegion_of_mem_silentEntries (modifier_of_mem hs hm hb).2 h)
  have hown : own.filter (fun e => inRegion (x.1.region "") e.1) = [] :=
    filter_eq_nil_of_not_inRegion fun e h => hout (ho e h)
  rw [storedEntries, List.filter_append, List.filter_append, List.filter_append, hscalar, hblocks,
    hsilent, hown, List.append_nil, List.append_nil, List.append_nil]

include hv hm he in
/-- The region of a modifier that the element meets holds the block of its calls, or its defaults. -/
theorem filter_modifier {old : Properties}
    (hold : ∀ b ∈ blocks, b.2 ≠ [] → ∀ g, b.1.guard = some g → g.accepts old = true)
    {own : List (String × String)} (ho : ∀ e ∈ own, inRegion s.region e.1 = false)
    {b : Modifier × List Call} (hb : b ∈ blocks)
    (hacc : ∀ g, b.1.guard = some g →
      g.accepts (guarded s (.putAll .empty (storedEntries values blocks ess))) = true) :
    ∃ vss, List.Forall₂ (Binds b.1) b.2 vss ∧
      (storedEntries values blocks ess ++ own).filter (fun e => inRegion b.1.region e.1) =
        (blockEntries b.1 0 vss ++ silentEntries b).filter fun e => inRegion b.1.region e.1 := by
  obtain ⟨hmem, hr⟩ := modifier_of_mem hs hm hb
  have hout {e : String × String} (h : inRegion s.region e.1 = false) :
      inRegion b.1.region e.1 = false := by
    rw [Bool.eq_false_iff]
    intro hin
    rw [Signature.inRegion_of_modifier hmem hin] at h
    cases h
  have hmethods : (blocks.map fun c => c.1.method).Nodup := by
    have := hs.methods_nodup
    rwa [← hm, List.map_map] at this
  have hnodup : blocks.Nodup := List.Nodup.of_map _ hmethods
  -- another modifier is apart, or its guard keeps it from being called
  have hothers {c : Modifier × List Call} (hc : c ∈ blocks) (hne : c ≠ b) :
      regionsApart c.1.region b.1.region = true ∨ (c.2 = [] ∧ c.1.guard ≠ none) := by
    obtain ⟨hcm, -⟩ := modifier_of_mem hs hm hc
    have hcb : b.1 ≠ c.1 := fun h =>
      hne (List.inj_on_of_nodup_map hmethods hc hb (congrArg Modifier.method h.symm))
    have htol := hs.tolerated b.1 hmem c.1 hcm hcb
    rw [Modifier.toleratedBy, Bool.or_eq_true] at htol
    rcases htol with hap | hex
    · exact .inl hap
    · split at hex
      · next g h hg hh =>
        refine .inr ⟨?_, by simp [hh]⟩
        by_contra hcall
        have hno := Guard.not_accepts_of_excludes hex (hacc g hg)
        rw [accepts_guarded hs hv hm he hold hc hcall hh] at hno
        cases hno
      · cases hex
  have hblock {c : Modifier × List Call} (hc : c ∈ blocks) (hne : c ≠ b)
      {es : List (String × String)} (hes : IsBlock c es) :
      es.filter (fun e => inRegion b.1.region e.1) = [] := by
    obtain ⟨hcm, hcr⟩ := modifier_of_mem hs hm hc
    rcases hothers hc hne with hap | ⟨hnil, -⟩
    · refine filter_eq_nil_of_not_inRegion fun e h => ?_
      rcases inRegion_of_mem_block hcr hes h with hin | ⟨-, g, hg, hd⟩
      · exact not_inRegion_of_apart hap hin
      · exact hout (not_inRegion_of_demand hs hcm hg hd)
    · obtain ⟨vss, hvss, rfl⟩ := hes
      rw [hnil] at hvss
      cases hvss
      rfl
  have hsilent {c : Modifier × List Call} (hc : c ∈ blocks) (hne : c ≠ b) :
      (silentEntries c).filter (fun e => inRegion b.1.region e.1) = [] := by
    rcases hothers hc hne with hap | ⟨-, hguard⟩
    · exact filter_eq_nil_of_not_inRegion fun e h => not_inRegion_of_apart hap
        (inRegion_of_mem_silentEntries (modifier_of_mem hs hm hc).2 h)
    · have hnone : silentEntries c = [] := by
        unfold silentEntries
        rw [if_neg]
        simp [hguard]
      rw [hnone]
      rfl
  obtain ⟨es, ⟨vss, hvss, rfl⟩, hflat⟩ := filter_flatten_of_forall₂
    (inRegion b.1.region) he hnodup hb fun c hc hne es hes => hblock hc hne hes
  obtain ⟨es, rfl, hsil⟩ := filter_flatten_of_forall₂ (R := fun c es => es = silentEntries c)
    (inRegion b.1.region)
    (List.forall₂_map_right_iff.mpr (List.forall₂_same.mpr fun c _ => rfl)) hnodup hb
    fun c hc hne es hes => by rw [hes, hsilent hc hne]
  have hscalar : (scalarEntries values).filter (fun e => inRegion b.1.region e.1) = [] := by
    refine filter_eq_nil_of_not_inRegion fun e h => ?_
    obtain ⟨p, hp, hin⟩ := exists_of_mem_scalarEntries hs hv h
    exact not_inRegion_of_apart (hs.scalars_modifiers b.1 hmem p hp).1 hin
  have hown : own.filter (fun e => inRegion b.1.region e.1) = [] :=
    filter_eq_nil_of_not_inRegion fun e h => hout (ho e h)
  refine ⟨vss, hvss, ?_⟩
  rw [storedEntries, List.filter_append, List.filter_append, List.filter_append, hscalar, hflat,
    List.flatMap_def, hsil, hown, List.append_nil, List.nil_append, List.filter_append]

end

end Build

end FluentPlan
