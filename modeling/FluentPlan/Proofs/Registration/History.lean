import Mathlib.Data.List.Basic
import Mathlib.Tactic.Common
import FluentPlan.Catalog.Builtin

/-!
What registries come to hold. A history is a run of operations on a registry, with the signatures that
it added in their order; plugins may run operations of their own and end half-way. The two indexes
hold what the history added, and nothing else; after the first resolution nothing is added.
-/

namespace FluentPlan

namespace Text

/-- Increasing lists of distinct texts are told apart by their members. -/
theorem sortedDistinct_eq_of_mem_iff {l m : List String}
    (h : ∀ s, s ∈ sortedDistinct l ↔ s ∈ sortedDistinct m) : sortedDistinct l = sortedDistinct m := by
  have hsorted (l : List String) : (sortedDistinct l).Pairwise fun a b => a ≤ b := by
    have hle := @List.pairwise_mergeSort String (fun a b => decide (a ≤ b))
      (fun a b c hab hbc => by
        simp only [decide_eq_true_eq] at hab hbc ⊢
        exact String.le_trans hab hbc)
      (fun a b => by
        simp only [Bool.or_eq_true, decide_eq_true_eq]
        exact String.le_total a b) (distinct l)
    exact hle.imp of_decide_eq_true
  have hnodup (l : List String) : (sortedDistinct l).Nodup :=
    (List.mergeSort_perm _ _).nodup_iff.mpr (nodup_distinct l)
  exact ((List.perm_ext_iff_of_nodup (hnodup l) (hnodup m)).mpr h).eq_of_pairwise
    (fun _ _ _ _ hab hba => String.le_antisymm hab hba) (hsorted l) (hsorted m)

end Text

namespace Signature

/-- Whether two signatures are for one kind of element, under the same conditions. -/
def Overlaps (a b : Signature) : Prop :=
  a.kind = b.kind ∧ a.guard = b.guard ∧ ∀ key, key ∈ a.requiredKeys ↔ key ∈ b.requiredKeys

end Signature

namespace Registry

theorem collides_of_overlaps {a b : Signature} (h : a.Overlaps b) : collides a b = true := by
  obtain ⟨-, hg, hk⟩ := h
  rw [collides, decide_eq_true hg, Bool.true_and, decide_eq_true_iff]
  exact Text.sortedDistinct_eq_of_mem_iff hk

/-! ### Histories -/

/-- What a registration adds. -/
def added (r : Registry) (s : Signature) : List Signature :=
  if (r.enroll s).2.isNone then [s] else []

/-- What a series of registrations adds: the signatures before the first that fails. -/
def addedAll (r : Registry) : List Signature → List Signature
  | [] => []
  | s :: ss =>
    match r.enroll s with
    | (r, none) => s :: r.addedAll ss
    | (_, some _) => []

/-- What loading plugins adds, if `adds` says of each plugin what it adds to a registry. -/
def addedBy (adds : Plugin → Registry → List Signature) (r : Registry) :
    List Plugin → List Signature
  | [] => []
  | p :: ps =>
    if r.plugins.contains p.name then r.addedBy adds ps
    else match p.register r with
      | (_, some _) => adds p r
      | (u, none) => adds p r ++ (u.markLoaded p.name).addedBy adds ps

/-- A run of operations that leads from one registry to another and adds signatures in this order.
Plugins run operations too. -/
inductive Runs : Registry → List Signature → Registry → Prop
  | refl (r : Registry) : Runs r [] r
  | register {r u : Registry} {L : List Signature} (s : Signature) (h : Runs r L u) :
    Runs r (L ++ u.added s) (u.enroll s).1
  | registerAll {r u : Registry} {L : List Signature} (ss : List Signature) (h : Runs r L u) :
    Runs r (L ++ u.addedAll ss) (u.registerAll ss).1
  | load {r u : Registry} {L : List Signature} (loaded : List String) (ps : List Plugin)
    (adds : Plugin → Registry → List Signature)
    (hp : ∀ p ∈ ps, ∀ v, Runs v (adds p v) (p.register v).1) (h : Runs r L u) :
    Runs r (L ++ u.addedBy adds ps) (u.load loaded ps).1
  | markLoaded {r u : Registry} {L : List Signature} (plugin : String) (h : Runs r L u) :
    Runs r L (u.markLoaded plugin)
  | close {r u : Registry} {L : List Signature} (h : Runs r L u) : Runs r L u.close
  | ask {r u : Registry} {L : List Signature} (e : Element) (h : Runs r L u) : Runs r L (u.ask e).1

/-! ### What registries hold -/

/-- A registry holds signatures that were registered in this order: each index has, for each key, those
with this key, and no two of them are for the same elements. -/
structure Holds (r : Registry) (L : List Signature) : Prop where
  forKind : ∀ kind, r.forKind kind = L.filter fun s => s.kind = kind
  forMethod : ∀ method, r.forMethod method = L.filter fun s => s.method = method
  size : r.size = L.length
  contains : ∀ kind, r.contains kind = true ↔ ∃ s ∈ L, s.kind = kind
  distinct : L.Pairwise fun a b => ¬ a.Overlaps b
  known : ∀ s ∈ L, s.category ∈ r.categories ∧ s.childrenMode ∈ childrenModes

theorem holds_empty (categories : List String) : (empty categories).Holds [] :=
  ⟨fun _ => rfl, fun _ => rfl, rfl, fun _ => by simp [empty, contains], .nil, nofun⟩

namespace Holds

variable {r u : Registry} {L : List Signature}

/-- What a registry holds depends on its indexes and categories only. -/
theorem of_eq (h : r.Holds L) (hk : u.kinds = r.kinds) (hm : u.methods = r.methods)
    (hc : u.categories = r.categories) : u.Holds L := by
  obtain ⟨hkind, hmethod, hsize, hcontains, hdistinct, hknown⟩ := h
  constructor
  · simpa only [Registry.forKind, hk] using hkind
  · simpa only [Registry.forMethod, hm] using hmethod
  · simpa only [Registry.size, hk] using hsize
  · simpa only [Registry.contains, hk] using hcontains
  · exact hdistinct
  · simpa only [hc] using hknown

theorem markLoaded (h : r.Holds L) (plugin : String) : (r.markLoaded plugin).Holds L := by
  unfold Registry.markLoaded
  split
  · exact h
  · exact h.of_eq rfl rfl rfl

/-- A registration adds the signature behind the others, or fails and adds none. -/
theorem enroll (h : r.Holds L) (s : Signature) : (r.enroll s).1.Holds (L ++ r.added s) := by
  unfold added
  rcases enroll_cases r s with ⟨f, hf⟩ | ⟨hok, -, hcat, hmode, hfree⟩
  · rw [hf]
    simpa using h
  · rw [hok]
    simp only [Option.isNone_none, if_true]
    constructor
    · intro kind
      simp only [Registry.forKind, SignatureIndex.get_add, SignatureIndex.get_touch]
      have hold : r.kinds.get kind = L.filter fun t => t.kind = kind := h.forKind kind
      by_cases hk : kind = s.kind
      · subst hk
        simp [hold]
      · simp [hk, Ne.symm hk, hold]
    · intro method
      simp only [Registry.forMethod, SignatureIndex.get_add]
      have hold : r.methods.get method = L.filter fun t => t.method = method := h.forMethod method
      by_cases hm : method = s.method
      · subst hm
        simp [hold]
      · simp [hm, Ne.symm hm, hold]
    · have hsize : r.kinds.size = L.length := h.size
      simp [Registry.size, SignatureIndex.size_add, hsize]
    · intro kind
      have hold : r.kinds.has kind = true ↔ ∃ t ∈ L, t.kind = kind := h.contains kind
      simp only [Registry.contains, SignatureIndex.has_add, SignatureIndex.has_touch, hold]
      constructor
      · rintro (rfl | rfl | ⟨t, ht, htk⟩)
        · exact ⟨s, by simp, rfl⟩
        · exact ⟨s, by simp, rfl⟩
        · exact ⟨t, List.mem_append_left _ ht, htk⟩
      · rintro ⟨t, ht, rfl⟩
        rcases List.mem_append.mp ht with ht | ht
        · exact .inr (.inr ⟨t, ht, rfl⟩)
        · exact .inl (by rw [List.mem_singleton.mp ht])
    · refine List.pairwise_append.mpr ⟨h.distinct, List.pairwise_singleton _ _, ?_⟩
      intro a ha b hb hover
      obtain rfl := List.mem_singleton.mp hb
      have hmem : a ∈ r.forKind b.kind := by
        rw [h.forKind]
        exact List.mem_filter.mpr ⟨ha, decide_eq_true hover.1⟩
      have hno := hfree a hmem
      rw [collides_of_overlaps hover] at hno
      cases hno
    · intro t ht
      rcases List.mem_append.mp ht with ht | ht
      · exact h.known t ht
      · obtain rfl := List.mem_singleton.mp ht
        exact ⟨hcat, hmode⟩

theorem registerAll (h : r.Holds L) (ss : List Signature) :
    (r.registerAll ss).1.Holds (L ++ r.addedAll ss) := by
  induction ss generalizing r L with
  | nil => simpa [Registry.registerAll, addedAll] using h
  | cons s ss ih =>
    have hfirst := h.enroll s
    rcases hu : r.enroll s with ⟨u, _ | f⟩ <;>
      simp only [Registry.registerAll, addedAll, added, hu] at hfirst ⊢
    · have hrest := ih hfirst
      rwa [List.append_assoc] at hrest
    · exact hfirst

/-- Plugins that add what `adds` says add it one after the other. -/
theorem load {adds : Plugin → Registry → List Signature} {ps : List Plugin}
    (hp : ∀ p ∈ ps, ∀ v M, Holds v M → Holds (p.register v).1 (M ++ adds p v)) (h : r.Holds L)
    (loaded : List String) : (r.load loaded ps).1.Holds (L ++ r.addedBy adds ps) := by
  induction ps generalizing r L loaded with
  | nil => simpa [Registry.load, addedBy] using h
  | cons p ps ih =>
    have hrest := fun q hq => hp q (List.mem_cons_of_mem p hq)
    have hfirst := hp p List.mem_cons_self r L h
    unfold Registry.load addedBy
    split
    · exact ih hrest h loaded
    · rcases hu : p.register r with ⟨u, _ | f⟩ <;> simp only [hu] at hfirst ⊢
      · have hnext := ih hrest (hfirst.markLoaded p.name) (loaded ++ [p.name])
        rwa [List.append_assoc] at hnext
      · exact hfirst

end Holds

/-! ### Registries that are sealed -/

/-- A sealed registry stays sealed, and nothing is added to it. -/
def Stays (r : Registry) (L : List Signature) (u : Registry) : Prop :=
  r.sealed = true → u.sealed = true ∧ L = []

namespace Stays

theorem trans {r u v : Registry} {L M : List Signature} (h : Stays r L u) (hn : Stays u M v) :
    Stays r (L ++ M) v := by
  intro hs
  obtain ⟨hu, rfl⟩ := h hs
  exact hn hu

theorem markLoaded (r : Registry) (plugin : String) : Stays r [] (r.markLoaded plugin) := by
  intro hs
  unfold Registry.markLoaded
  split <;> exact ⟨hs, rfl⟩

theorem enroll (r : Registry) (s : Signature) : Stays r (r.added s) (r.enroll s).1 := by
  intro hs
  have hno : r.enroll s = (r, some (.report (.registration s.method .sealed))) := by
    unfold Registry.enroll
    rw [if_pos hs]
  rw [added, hno]
  exact ⟨hs, rfl⟩

theorem registerAll (r : Registry) (ss : List Signature) :
    Stays r (r.addedAll ss) (r.registerAll ss).1 := by
  cases ss with
  | nil => exact fun hs => ⟨hs, rfl⟩
  | cons s ss =>
    intro hs
    have hfirst := enroll r s hs
    rcases hu : r.enroll s with ⟨u, _ | f⟩ <;>
      simp only [Registry.registerAll, addedAll, added, hu] at hfirst ⊢
    · cases hfirst.2
    · exact ⟨hfirst.1, trivial⟩

theorem load {adds : Plugin → Registry → List Signature} {ps : List Plugin}
    (hp : ∀ p ∈ ps, ∀ v, Stays v (adds p v) (p.register v).1) (r : Registry)
    (loaded : List String) : Stays r (r.addedBy adds ps) (r.load loaded ps).1 := by
  induction ps generalizing r loaded with
  | nil => exact fun hs => ⟨hs, rfl⟩
  | cons p ps ih =>
    have hrest := ih fun q hq => hp q (List.mem_cons_of_mem p hq)
    have hfirst := hp p List.mem_cons_self r
    unfold Registry.load addedBy
    split
    · exact hrest r loaded
    · rcases hu : p.register r with ⟨u, _ | f⟩ <;> simp only [hu] at hfirst ⊢
      · exact hfirst.trans ((markLoaded u p.name).trans (hrest _ _))
      · exact hfirst

end Stays

/-! ### Runs -/

namespace Runs

variable {r u : Registry} {K L : List Signature}

/-- A run adds to what a registry holds. -/
theorem holds (h : Runs r L u) (hr : r.Holds K) : u.Holds (K ++ L) := by
  -- plugins run operations of their own: the induction covers them with any registry before
  induction h generalizing K with
  | refl r => simpa using hr
  | register s _ ih => exact List.append_assoc .. ▸ (ih hr).enroll s
  | registerAll ss _ ih => exact List.append_assoc .. ▸ (ih hr).registerAll ss
  | load loaded ps adds _ _ hp ih =>
    exact List.append_assoc .. ▸ (ih hr).load (fun p hm v M hv => hp p hm v hv) loaded
  | markLoaded plugin _ ih => exact (ih hr).markLoaded plugin
  | close _ ih | ask _ _ ih => exact (ih hr).of_eq rfl rfl rfl

theorem stays (h : Runs r L u) : Stays r L u := by
  induction h with
  | refl r => exact fun hs => ⟨hs, rfl⟩
  | register s _ ih => exact ih.trans (.enroll _ s)
  | registerAll ss _ ih => exact ih.trans (.registerAll _ ss)
  | load loaded ps adds _ _ hp ih => exact ih.trans (.load hp _ loaded)
  | markLoaded plugin _ ih => simpa using ih.trans (.markLoaded _ plugin)
  | close _ ih | ask _ _ ih => exact fun hs => ⟨rfl, (ih hs).2⟩

end Runs

/-- What holds of a registry after any run on a new one. It holds what the run added, in that order. A
registration that fails changes nothing, and one that does not adds its signature behind the others.
Asking for a signature seals the registry, and what is held by a sealed one is final. -/
theorem holds_of_runs {categories : List String} {L : List Signature} {r : Registry}
    (h : Runs (empty categories) L r) :
    r.Holds L ∧
    (∀ s f, (r.enroll s).2 = some f → (r.enroll s).1 = r) ∧
    (∀ s, (r.enroll s).2 = none → (r.enroll s).1.Holds (L ++ [s])) ∧
    (∀ e, (r.ask e).1.sealed = true ∧ (r.ask e).1.Holds L) ∧
    ∀ M u, Runs r M u → u.Holds (L ++ M) ∧ (r.sealed = true → u.sealed = true ∧ M = []) := by
  have hr : r.Holds L := h.holds (holds_empty categories)
  refine ⟨hr, fun s f hf => enroll_of_failure hf, fun s hs => ?_, fun e => ⟨rfl, ?_⟩,
    fun M u hu => ⟨hu.holds hr, hu.stays⟩⟩
  · have hadd := hr.enroll s
    rwa [added, hs] at hadd
  · exact hr.of_eq rfl rfl rfl

/-- A plugin that ends half-way, and a registration after the first resolution. -/
theorem holds_of_runs_halfLoaded :
    let half : Plugin := ⟨"half", fun v =>
      v.registerAll [Catalog.Plan.testPlan, Catalog.Configuration.throughputTimer]⟩
    let r := ((empty ["executable"]).load [] [half]).1
    let u := (r.ask ⟨"TestPlan", none, true, .empty, []⟩).1
    let v := (u.enroll Catalog.Plan.threadGroup).1
    Runs (empty ["executable"]) [Catalog.Plan.testPlan] v ∧ v.sealed = true ∧
      v.Holds [Catalog.Plan.testPlan] := by
  intro half r u v
  let adds : Plugin → Registry → List Signature := fun _ w =>
    w.addedAll [Catalog.Plan.testPlan, Catalog.Configuration.throughputTimer]
  have hhalf : ∀ p ∈ [half], ∀ w, Runs w (adds p w) (p.register w).1 := by
    intro p hp w
    obtain rfl := List.mem_singleton.mp hp
    exact (Runs.refl w).registerAll [Catalog.Plan.testPlan, Catalog.Configuration.throughputTimer]
  have hv : Runs (empty ["executable"]) [Catalog.Plan.testPlan] v :=
    (((Runs.refl _).load [] [half] adds hhalf).ask _).register _
  exact ⟨hv, rfl, (holds_of_runs hv).1⟩

end Registry

end FluentPlan
