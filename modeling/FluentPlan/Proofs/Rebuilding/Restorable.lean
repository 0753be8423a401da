import Mathlib.Tactic.Common
import FluentPlan.Catalog.Builtin
import FluentPlan.Proofs.Param.Echo
import FluentPlan.Proofs.Rebuilding.Region
import FluentPlan.Script.Build

/-!
Signatures under which nothing is lost. Their parameters and modifiers have regions of the properties
to themselves, or share them only where guards allow one of them at a time; what a guard stores is in
no region. This is checked once for the catalog.
-/

namespace FluentPlan

/-! ### Guards -/

namespace Guard

/-- The entry that a guard of equality asks for. -/
def demand : Guard → List (String × String)
  | equals k v => [(k, v)]
  | _ => []

/-- Whether a guard asks for one value of one property, or for any other one. -/
def isPlain : Guard → Bool
  | equals _ _ | not (equals _ _) => true
  | _ => false

/-- Whether no properties meet both of two guards. -/
def excludes : Guard → Guard → Bool
  | equals k v, equals l w => k = l && v ≠ w
  | equals k v, not (equals l w) | not (equals k v), equals l w => k = l && v = w
  | _, _ => false

mutual

/-- The keys under which a guard may store something. -/
def writes : Guard → List String
  | equals k _ | isIn k _ => [k]
  | not _ => []
  | all gs => writesAll gs

def writesAll : List Guard → List String
  | [] => []
  | g :: gs => writes g ++ writesAll gs

end

/-- Whether a guard leaves properties alone that meet another one. -/
def spares : Guard → Guard → Bool
  | isIn k vs, equals l v => k ≠ l || vs.contains v
  | g, h => !g.writes.contains h.key

end Guard

/-! ### Parameters -/

namespace Param

/-- Whether a parameter has its default where nothing is stored or the default is. -/
def restoresDefault (p : Param) : Bool :=
  match p.reread none, p.reread p.default, p.isDefault? p.default with
  | .ok v, .ok w, .ok b => v = p.default && w = p.default && b
  | _, _, _ => false

/-- Whether a value of a parameter is found again: that of a name, or one that has a place. -/
def isRestorable (p : Param) : Bool :=
  p.isRestored && (p.kind = .displayName && p.default.isSome || p.isPlaced)

/-- Whether a parameter may be left out of code: a name with a default. -/
def isOptionalName (p : Param) : Bool :=
  p.kind = .displayName && p.restoresDefault && match p.default with
    | some (.text _) => true
    | _ => false

end Param

/-! ### Modifiers -/

namespace Modifier

/-- The keys that a modifier reads and writes, its guard apart. -/
def region (m : Modifier) : List KeyPattern :=
  match m.each with
  | some each => [.below (each ++ "/")]
  | none => m.params.flatMap (·.region "")

/-- Whether all texts of a list go to the one parameter of a modifier. -/
def isListing (m : Modifier) : Bool :=
  match m.params with
  | [p] => p.kind.isVariadic && p.isPlaced && !m.flag && m.each.isNone
  | _ => false

/-- Whether a modifier without arguments flips its one parameter. -/
def isSwitch (m : Modifier) : Bool :=
  match m.params with
  | [⟨.bool, _, some (.bool _), _, _⟩] => m.each.isNone
  | _ => false

/-- Whether the parameters of a modifier have one place each, all of them different. -/
def isDivided (m : Modifier) : Bool :=
  m.params.all (fun p => p.isRestored && p.isPlaced) &&
    decide (m.params.Pairwise fun p q => regionsApart (p.region "") (q.region "") = true)

/-- Whether the entries of a collection have their parameters in different places. -/
def isCollecting (m : Modifier) : Bool :=
  match m.each with
  | some each =>
    !each.isEmpty && !m.params.isEmpty && m.params.all (fun p => p.region "" = [.exact p.propText]) &&
      decide ((m.params.map Param.propText).Nodup)
  | none => true

/-- Whether the calls of a modifier store what they were made from. -/
def isRestorable (m : Modifier) : Bool :=
  m.method ≠ Build.childrenMethod && m.guard.all Guard.isPlain &&
    m.params.all (fun p => p.mandatory && p.restoresDefault) && (!m.flag || m.isSwitch) &&
    m.isCollecting && (m.isListing || m.isDivided)

/-- Whether two modifiers do not disturb each other. -/
def toleratedBy (m n : Modifier) : Bool :=
  regionsApart n.region m.region ||
    match m.guard, n.guard with
    | some g, some h => g.excludes h
    | _, _ => false

end Modifier

/-! ### Signatures -/

namespace Signature

/-- The keys that the parameters and modifiers of a signature read and write, guards apart. -/
def region (s : Signature) : List KeyPattern :=
  s.scalarParams.flatMap (·.region "") ++ s.modifiers.flatMap Modifier.region

/-- The keys that guards look at or write. -/
def guardKeys (s : Signature) : List String :=
  s.modifiers.filterMap (fun m => m.guard.map Guard.key) ++ s.guard.elim [] Guard.writes

/-- Whether an element that was built by the signature has the properties it was made from. -/
def isRestorable (s : Signature) : Bool :=
  s.scalarParams.all Param.isRestorable &&
    s.scalarParams.all (fun p => p.mandatory || p.isOptionalName) &&
    ((s.scalarParams.filter fun p => p.kind = .displayName).length ≤ 1) &&
    decide (s.scalarParams.Pairwise fun p q => regionsApart (p.region "") (q.region "") = true) &&
    s.modifiers.all Modifier.isRestorable && decide ((s.modifiers.map (·.method)).Nodup) &&
    (s.modifiers.all fun m => s.scalarParams.all fun p =>
      regionsApart (p.region "") m.region && regionsApart m.region (p.region "")) &&
    (s.modifiers.all fun m => s.modifiers.all fun n => m = n || m.toleratedBy n) &&
    (s.guardKeys.all fun k => !inRegion s.region k) &&
    (s.modifiers.all fun m => m.guard.all fun g => s.guard.all fun h => h.spares g)

end Signature

/-! ### What the checks say -/

namespace Modifier

/-- What is known of a modifier that is checked. -/
structure Restorable (m : Modifier) : Prop where
  method_ne : m.method ≠ Build.childrenMethod
  guard_plain : ∀ g, m.guard = some g → g.isPlain = true
  mandatory : ∀ p ∈ m.params, p.mandatory = true
  restoresDefault : ∀ p ∈ m.params, p.restoresDefault = true
  placed : ∀ p ∈ m.params, p.isPlaced = true
  switch : m.flag = true → m.isSwitch = true
  collecting : m.isCollecting = true
  divided : m.isListing = true ∨ m.isDivided = true

theorem isRestorable_sound {m : Modifier} (h : m.isRestorable = true) : m.Restorable := by
  simp only [isRestorable, Bool.and_eq_true, Bool.or_eq_true, List.all_eq_true, decide_eq_true_eq,
    Bool.not_eq_true'] at h
  obtain ⟨⟨⟨⟨⟨hmethod, hguard⟩, hparams⟩, hswitch⟩, hcoll⟩, hdiv⟩ := h
  refine ⟨hmethod, fun g hg => ?_, fun p hp => (hparams p hp).1, fun p hp => (hparams p hp).2,
    fun p hp => ?_, fun hf => ?_, hcoll, hdiv⟩
  · rw [hg] at hguard
    exact hguard
  · rcases hdiv with hdiv | hdiv
    · unfold isListing at hdiv
      split at hdiv
      · next q hq =>
        rw [hq] at hp
        rw [List.mem_singleton.mp hp]
        simp only [Bool.and_eq_true] at hdiv
        exact hdiv.1.1.2
      · cases hdiv
    · simp only [isDivided, Bool.and_eq_true, List.all_eq_true] at hdiv
      exact (hdiv.1 p hp).2
  · rcases hswitch with hno | hyes
    · rw [hno] at hf
      cases hf
    · exact hyes

theorem Restorable.each_of_flag {m : Modifier} (h : m.Restorable) (hf : m.flag = true) :
    m.each = none := by
  have hs := h.switch hf
  unfold isSwitch at hs
  split at hs
  · simpa using hs
  · cases hs

/-- No collection of a modifier is without a name. -/
theorem Restorable.any_each {m : Modifier} (h : m.Restorable) :
    m.each.any (fun c => !c.isEmpty) = m.each.isSome := by
  have hcoll := h.collecting
  cases he : m.each with
  | none => rfl
  | some each =>
    simp only [isCollecting, he, Bool.and_eq_true] at hcoll
    exact hcoll.1.1.1

end Modifier

namespace Signature

/-- What is known of a signature that is checked. -/
structure Restorable (s : Signature) : Prop where
  scalars : ∀ p ∈ s.scalarParams, p.isRestorable = true
  optional : ∀ p ∈ s.scalarParams, p.mandatory = false → p.isOptionalName = true
  one_name : (s.scalarParams.filter fun p => p.kind = .displayName).length ≤ 1
  scalars_apart : s.scalarParams.Pairwise fun p q => regionsApart (p.region "") (q.region "") = true
  modifiers : ∀ m ∈ s.modifiers, m.Restorable
  methods_nodup : (s.modifiers.map (·.method)).Nodup
  scalars_modifiers : ∀ m ∈ s.modifiers, ∀ p ∈ s.scalarParams,
    regionsApart (p.region "") m.region = true ∧ regionsApart m.region (p.region "") = true
  tolerated : ∀ m ∈ s.modifiers, ∀ n ∈ s.modifiers, m ≠ n → m.toleratedBy n = true
  guards_apart : ∀ k ∈ s.guardKeys, inRegion s.region k = false
  spared : ∀ m ∈ s.modifiers, ∀ g, m.guard = some g → ∀ h, s.guard = some h → h.spares g = true

theorem isRestorable_sound {s : Signature} (h : s.isRestorable = true) : s.Restorable := by
  simp only [isRestorable, Bool.and_eq_true, Bool.or_eq_true, List.all_eq_true, decide_eq_true_eq,
    Bool.not_eq_true'] at h
  obtain ⟨⟨⟨⟨⟨⟨⟨⟨⟨hscalars, hopt⟩, hname⟩, hapart⟩, hmods⟩, hnodup⟩, hcross⟩, htol⟩, hguards⟩,
    hspare⟩ := h
  refine ⟨hscalars, fun p hp hm => ?_, hname, hapart,
    fun m hm => Modifier.isRestorable_sound (hmods m hm), hnodup, hcross, fun m hm n hn hne => ?_,
    hguards, fun m hm g hg h hh => ?_⟩
  · rcases hopt p hp with h | h
    · rw [hm] at h
      cases h
    · exact h
  · exact (htol m hm n hn).resolve_left hne
  · have := hspare m hm
    rw [hg, hh] at this
    exact this

/-- All signatures of the catalog but one are restorable. The one stores the sum of two durations. -/
theorem restorable_of_mem {s : Signature} (hs : s ∈ Registry.standard.signatures) :
    s = Catalog.Plan.rampHoldThreadGroup ∨ s.Restorable := by
  have hall : (Registry.standard.signatures.all fun s =>
      decide (s = Catalog.Plan.rampHoldThreadGroup) || s.isRestorable) = true := by
    decide +kernel
  rcases Bool.or_eq_true_iff.mp (List.all_eq_true.mp hall s hs) with h | h
  · exact .inl (of_decide_eq_true h)
  · exact .inr (isRestorable_sound h)

end Signature

end FluentPlan
