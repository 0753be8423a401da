import Mathlib.Data.List.Basic
import Mathlib.Data.List.Nodup
import Mathlib.Tactic.Common
import FluentPlan.Proofs.Param.Reread
import FluentPlan.Proofs.Rebuilding.Entries

/-!
Regions of property keys. A parameter reads and writes the keys of its region only, so that values
under regions apart from each other do not get in each other's way.
-/

namespace FluentPlan

open Text Number

/-- Keys of properties: a single one, or all that stand behind a lead. -/
inductive KeyPattern where
  | exact (key : String)
  | below (lead : String)
deriving DecidableEq, Repr

namespace KeyPattern

def covers : KeyPattern → String → Bool
  | exact k, key => key = k
  | below lead, key => (Param.behind? lead key).isSome

/-- Whether no key is covered by both of two patterns. -/
def apart : KeyPattern → KeyPattern → Bool
  | exact k, exact l => k ≠ l
  | exact k, below lead => !(below lead).covers k
  | below lead, exact k => !(below lead).covers k
  | below _, below _ => false

theorem not_covers_of_apart {a b : KeyPattern} (h : a.apart b = true) {key : String}
    (ha : a.covers key = true) : b.covers key = false := by
  cases a with
  | exact k =>
    obtain rfl := of_decide_eq_true ha
    cases b with
    | exact l =>
      simp only [apart, ne_eq, decide_not, Bool.not_eq_true', decide_eq_false_iff_not] at h
      exact decide_eq_false h
    | below lead => exact Bool.not_eq_true' _ ▸ h
  | below lead =>
    cases b with
    | exact l =>
      refine decide_eq_false ?_
      rintro rfl
      simp only [apart, ha, Bool.not_true, Bool.false_eq_true] at h
    | below _ => cases h

end KeyPattern

/-- Whether a key belongs to one of some patterns. -/
def inRegion (ps : List KeyPattern) (key : String) : Bool := ps.any (·.covers key)

def regionsApart (ps qs : List KeyPattern) : Bool := ps.all fun a => qs.all a.apart

theorem not_inRegion_of_apart {ps qs : List KeyPattern} (h : regionsApart ps qs = true)
    {key : String} (hp : inRegion ps key = true) : inRegion qs key = false := by
  obtain ⟨a, ha, hc⟩ := List.any_eq_true.mp hp
  rw [inRegion, List.any_eq_false]
  intro b hb
  have hab := List.all_eq_true.mp (List.all_eq_true.mp h a ha) b hb
  simp [KeyPattern.not_covers_of_apart hab hc]

theorem behind?_append (lead tail : String) : Param.behind? lead (lead ++ tail) = some tail.toList := by
  simp [Param.behind?]

/-! ### Entries of stored values -/

/-- Texts under their indices from `index` on. -/
def itemEntries (base : String) (index : Nat) : List String → List (String × String)
  | [] => []
  | s :: r => (base ++ toString index, s) :: itemEntries base (index + 1) r

namespace Param

/-- The keys that a parameter reads and writes behind a lead. -/
def region (p : Param) (lead : String) : List KeyPattern :=
  match p.kind with
  | .displayName | .children => []
  | .textList => [.below (lead ++ p.propText ++ "/")]
  | .url =>
    [.exact (lead ++ p.propText), .exact (lead ++ domainKey), .exact (lead ++ protocolKey),
      .exact (lead ++ portKey)]
  | _ => [.exact (lead ++ p.propText)]

/-- The entries that store a value behind a lead. -/
def entries (p : Param) (v : Option Value) (lead : String) : List (String × String) :=
  match p.kind with
  | .textList => itemEntries (lead ++ p.propText ++ "/") 0 (itemsOf v)
  | _ => (p.prop.bind fun key => (p.stored v).map fun t => (lead ++ key, t)).toList

/-- Nothing is stored for no value. -/
theorem entries_none (p : Param) (lead : String) : p.entries none lead = [] := by
  unfold entries
  split
  · rfl
  · cases p.prop <;> rfl

/-- Whether a parameter has a place of its own among the properties. -/
def isPlaced (p : Param) : Bool :=
  p.prop.isSome && match p.kind with
    | .displayName | .children | .holdDuration .. => false
    | .url => !([domainKey, protocolKey, portKey].contains p.propText)
    | _ => true

theorem storeItems_eq (base : String) (index : Nat) (items : List String) (props : Properties) :
    storeItems base index items props = props.putAll (itemEntries base index items) := by
  induction items generalizing index props with
  | nil => rfl
  | cons s r ih => rw [storeItems, ih, itemEntries, Properties.putAll_cons]

theorem storeRaw_eq (p : Param) (v : Option Value) (props : Properties) (lead : String) :
    p.storeRaw v props lead =
      props.putAll (p.prop.bind fun key => (p.stored v).map fun t => (lead ++ key, t)).toList := by
  obtain ⟨kind, prop, default, required, mandatory⟩ := p
  cases prop with
  | none => rfl
  | some key =>
    cases v with
    | none => rfl
    | some v => cases v <;> rfl

/-- Storing a value puts its entries. -/
theorem store_eq_ok {p : Param} (hp : p.isPlaced = true) {v : Option Value} {props : Properties}
    {lead : String} {after : Properties} (h : p.store v props lead = .ok after) :
    after = props.putAll (p.entries v lead) := by
  obtain ⟨kind, prop, default, required, mandatory⟩ := p
  cases kind with
  | textList =>
    cases v with
    | none =>
      cases h
      rfl
    | some v =>
      cases v with
      | texts items =>
        cases h
        exact storeItems_eq _ _ _ _
      | _ =>
        simp only [store] at h
        split_ifs at h
        cases h
        rfl
  | holdDuration unit offset => simp [isPlaced] at hp
  | _ =>
    cases h
    exact storeRaw_eq _ v props lead

theorem covers_itemEntries {base : String} {index : Nat} {items : List String}
    {e : String × String} (h : e ∈ itemEntries base index items) :
    (KeyPattern.below base).covers e.1 = true := by
  induction items generalizing index with
  | nil => cases h
  | cons s r ih =>
    rcases List.mem_cons.mp h with rfl | h
    · simp [KeyPattern.covers, behind?_append]
    · exact ih h

theorem inRegion_of_mem_entries {p : Param} (hp : p.isPlaced = true) {v : Option Value}
    {lead : String} {e : String × String} (h : e ∈ p.entries v lead) :
    inRegion (p.region lead) e.1 = true := by
  obtain ⟨kind, prop, default, required, mandatory⟩ := p
  have hsimple (h : e ∈ (prop.bind fun key =>
      (stored ⟨kind, prop, default, required, mandatory⟩ v).map fun t => (lead ++ key, t)).toList) :
      ∃ key, prop = some key ∧ e.1 = lead ++ key := by
    obtain ⟨key, rfl, h⟩ := Option.bind_eq_some_iff.mp (Option.mem_toList.mp h)
    obtain ⟨t, -, rfl⟩ := Option.map_eq_some_iff.mp h
    exact ⟨key, rfl, rfl⟩
  cases kind with
  | textList =>
    have hc := covers_itemEntries h
    simpa [region, inRegion] using hc
  | displayName | children | holdDuration _ _ => simp [isPlaced] at hp
  | _ =>
    obtain ⟨key, rfl, he⟩ := hsimple h
    simp [region, inRegion, KeyPattern.covers, propText, he]

end Param

end FluentPlan
