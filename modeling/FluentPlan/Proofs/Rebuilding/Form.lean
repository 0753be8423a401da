import Mathlib.Data.List.Nodup
import FluentPlan.Proofs.Rebuilding.Evaluation

/-!
Forms of builder methods. Only the method for thread groups has several forms; of the other kinds only
that of the collectors of results has two signatures, and their guards exclude each other. So an
element that was made by another signature resolves to that one.
-/

namespace FluentPlan

namespace Catalog.Plan

/-- The kind of ordinary thread groups. -/
def groupKind : String := anyThreadGroup.kind

/-- The forms of an ordinary thread group, in the order in which they are tried. -/
def threadGroupForms : List Signature :=
  [rampHoldThreadGroup, rampThreadGroup, durationThreadGroup, threadGroup]

end Catalog.Plan

namespace Registry

open Catalog Catalog.Plan Catalog.Result

theorem forMethod_threadGroup : standard.forMethod anyThreadGroup.method = threadGroupForms := rfl

theorem forKind_threadGroup : standard.forKind groupKind = threadGroupForms := rfl

theorem forKind_resultCollector : standard.forKind resultsTree.kind = [resultsTree, jtlWriter] := rfl

theorem mem_threadGroupForms {s : Signature} (hs : s ∈ standard.signatures) :
    s ∈ threadGroupForms ↔ s.kind = groupKind := by
  rw [← forKind_threadGroup, mem_forKind]
  simp [hs]

theorem mem_signatures_of_mem_threadGroupForms {s : Signature} (hs : s ∈ threadGroupForms) :
    s ∈ standard.signatures := by
  rw [← forKind_threadGroup] at hs
  exact (mem_forKind.mp hs).1

theorem nodup_methods :
    ((standard.signatures.filter fun s => decide (s.kind ≠ groupKind)).map (·.method)).Nodup := by
  decide

theorem nodup_kinds :
    ((standard.signatures.filter fun s =>
      decide (s.kind ≠ groupKind ∧ s.kind ≠ resultsTree.kind)).map (·.kind)).Nodup := by
  decide

theorem method_of_mem_threadGroupForms {s : Signature} (hs : s ∈ threadGroupForms) :
    s.method = anyThreadGroup.method := by
  rw [← forMethod_threadGroup] at hs
  exact (mem_forMethod.mp hs).2

/-- A method has one form, or it is that of thread groups. -/
theorem eq_of_mem_forMethod {s t : Signature} (hs : s ∈ standard.signatures)
    (ht : t ∈ standard.forMethod s.method) :
    t = s ∨ (s ∈ threadGroupForms ∧ t ∈ threadGroupForms) := by
  obtain ⟨ht, hm⟩ := mem_forMethod.mp ht
  have hother {u v : Signature} (hu : u ∈ threadGroupForms) (hv : v ∈ standard.signatures)
      (h : v.method = u.method) : v ∈ threadGroupForms := by
    rw [← forMethod_threadGroup]
    exact mem_forMethod.mpr ⟨hv, h.trans (method_of_mem_threadGroupForms hu)⟩
  by_cases hs' : s ∈ threadGroupForms
  · exact .inr ⟨hs', hother hs' ht hm⟩
  · by_cases ht' : t ∈ threadGroupForms
    · exact absurd (hother ht' hs hm.symm) hs'
    · refine .inl (List.inj_on_of_nodup_map nodup_methods ?_ ?_ hm)
      · exact List.mem_filter.mpr ⟨ht, decide_eq_true (mt (mem_threadGroupForms ht).mpr ht')⟩
      · exact List.mem_filter.mpr ⟨hs, decide_eq_true (mt (mem_threadGroupForms hs).mpr hs')⟩

/-- Where an element meets one signature for its kind only, that one is found. -/
theorem resolve?_of_only {r : Registry} {e : Element} {s : Signature} (hs : s ∈ r.forKind e.kind)
    (hu : s.unmet? e.properties = none)
    (honly : ∀ t ∈ r.forKind e.kind, t.unmet? e.properties = none → t = s) :
    r.resolve? e = .ok s := by
  obtain ⟨before, behind, hk, hb⟩ := List.eq_append_cons_of_mem hs
  refine resolve?_of_forKind hk (fun t ht hmet => hb ?_) hu
  rwa [← honly t (hk ▸ List.mem_append_left _ ht) hmet]

/-- An element that meets a signature resolves to it, if it is no thread group. -/
theorem resolve?_of_met {s : Signature} (hs : s ∈ standard.signatures) (hg : s ∉ threadGroupForms)
    {e : Element} (hk : e.kind = s.kind) (hu : s.unmet? e.properties = none) :
    standard.resolve? e = .ok s := by
  have hkind := mt (mem_threadGroupForms hs).mpr hg
  refine resolve?_of_only (hk ▸ mem_forKind.mpr ⟨hs, rfl⟩) hu fun t ht hmet => ?_
  rw [hk] at ht
  by_cases hr : s.kind = resultsTree.kind
  · have hboth {u : Signature} (hu : u ∈ standard.forKind s.kind) :
        u = resultsTree ∨ u = jtlWriter := by
      rw [hr, forKind_resultCollector] at hu
      simpa using hu
    have hclass {u : Signature} {v : String} (hu : u.unmet? e.properties = none)
        (hv : u.guard = some (.equals editorClass v)) : e.properties.get? editorClass = some v := by
      have hg := ((u.unmet?_eq_none_iff _).mp hu).2
      rw [hv] at hg
      simpa [Guard.accepts] using hg
    rcases hboth ht with rfl | rfl <;> rcases hboth (mem_forKind.mpr ⟨hs, rfl⟩) with rfl | rfl
    · rfl
    · exact absurd ((hclass hmet rfl).symm.trans (hclass hu rfl)) (by decide)
    · exact absurd ((hclass hmet rfl).symm.trans (hclass hu rfl)) (by decide)
    · rfl
  · obtain ⟨ht, htk⟩ := mem_forKind.mp ht
    refine List.inj_on_of_nodup_map nodup_kinds ?_ ?_ htk
    · exact List.mem_filter.mpr ⟨ht, decide_eq_true ⟨htk ▸ hkind, htk ▸ hr⟩⟩
    · exact List.mem_filter.mpr ⟨hs, decide_eq_true ⟨hkind, hr⟩⟩

end Registry

end FluentPlan
