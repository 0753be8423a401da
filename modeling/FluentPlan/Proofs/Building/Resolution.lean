import FluentPlan.Proofs.Building.Written
import FluentPlan.Proofs.Rebuilding.Form

/-!
The signature that is found for a built element is the one that built it. Building checks that the
element meets its signature; that no earlier one for the kind accepts it follows from the guards, and
for thread groups from what their forms write: each requires a property that those behind it do not
write.
-/

namespace FluentPlan

open Build Script Catalog Catalog.Plan

namespace Signature

/-- Whether a form requires a property that another one does not write. -/
def requiresBeyond (u t : Signature) : Bool :=
  u.allParams.any fun p => p.required && p.prop.any fun key =>
    !key.isEmpty && !inRegion t.region key && !t.guardKeys.contains key

theorem unmet?_of_absent {s : Signature} {p : Param} (hp : p ∈ s.allParams)
    (hr : p.required = true) {key : String} (hk : p.prop = some key) (hne : key.isEmpty = false)
    {props : Properties} (h : props.get? key = none) : s.unmet? props ≠ none := by
  intro hu
  have hall := List.all_eq_true.mp ((s.unmet?_eq_none_iff props).mp hu).1 p hp
  simp [hr, hk, hne, Properties.contains, h] at hall

end Signature

namespace Catalog.Plan

/-- Each form of a thread group requires a property that those behind it do not write. -/
theorem pairwise_requiresBeyond :
    threadGroupForms.Pairwise fun u t => u.requiresBeyond t = true := by
  decide

theorem kind_of_mem_threadGroupForms {s : Signature} (hs : s ∈ threadGroupForms) :
    s.kind = groupKind :=
  (Registry.mem_threadGroupForms (Registry.mem_signatures_of_mem_threadGroupForms hs)).mp hs

/-- The forms of a thread group but the first restore what they store. -/
theorem restorable_of_mem_tail {s : Signature} (hs : s ∈ threadGroupForms.tail) :
    s.Restorable := by
  have hmem : s ∈ Registry.standard.signatures :=
    Registry.mem_signatures_of_mem_threadGroupForms (List.mem_of_mem_tail hs)
  refine (Signature.restorable_of_mem hmem).resolve_left ?_
  rintro rfl
  have hlen : ∀ t ∈ threadGroupForms.tail, t.modifiers.length ≠ 1 := by decide
  exact hlen _ hs rfl

end Catalog.Plan

namespace Build.Makes

variable {s : Signature} {line : Nat} {name : String} {leading : List Expr}
  {children : List Operand} {chain : List (Invocation Operand)} {e : Element}

theorem kind_eq (h : Makes s line name leading children chain e) : e.kind = s.kind := by
  obtain ⟨values, -, hmade⟩ := h.values
  obtain ⟨_, _, _, _, _, _, _, _, _, rfl⟩ := exists_of_construct hmade
  rfl

/-- What a form of a thread group makes resolves to that form: it lacks what those before require. -/
theorem resolve?_of_mem_threadGroupForms (h : Makes s line name leading children chain e)
    (hs : s ∈ threadGroupForms) : Registry.standard.resolve? e = .ok s := by
  obtain ⟨before, behind, hforms⟩ := List.append_of_mem hs
  have hmem := Registry.mem_signatures_of_mem_threadGroupForms hs
  have hkind : e.kind = groupKind := h.kind_eq.trans (kind_of_mem_threadGroupForms hs)
  refine Registry.resolve?_of_forKind
    ((congrArg Registry.standard.forKind hkind).trans (Registry.forKind_threadGroup.trans hforms))
    (fun u hu => ?_) h.met
  -- the first form has none before it, so what it stores need not be known
  have htail : s ∈ threadGroupForms.tail := by
    cases before with
    | nil => cases hu
    | cons v before =>
      rw [hforms]
      exact List.mem_append_right _ List.mem_cons_self
  have hbeyond : u.requiresBeyond s = true := by
    have hpairs := pairwise_requiresBeyond
    rw [hforms] at hpairs
    exact (List.pairwise_append.mp hpairs).2.2 u hu s List.mem_cons_self
  obtain ⟨p, hp, hreq⟩ := List.any_eq_true.mp hbeyond
  simp only [Bool.and_eq_true, Option.any_eq_true, Bool.not_eq_true'] at hreq
  obtain ⟨hreq, key, hkey, ⟨hne, hregion⟩, hguard⟩ := hreq
  have hwritten := h.written (List.all_eq_true.mp Registry.isOrderly_standard s hmem)
  exact Signature.unmet?_of_absent hp hreq hkey hne
    ((restorable_of_mem_tail htail).get?_of_written hwritten hregion (by simpa using hguard))

/-- What a signature makes of a call resolves to it. -/
theorem resolve?_eq (h : Makes s line name leading children chain e)
    (hs : s ∈ Registry.standard.signatures) : Registry.standard.resolve? e = .ok s := by
  by_cases hform : s ∈ threadGroupForms
  · exact h.resolve?_of_mem_threadGroupForms hform
  · exact Registry.resolve?_of_met hs hform h.kind_eq h.met

end Build.Makes

namespace Build

/-- The element of a call resolves to the signature that made it. -/
theorem resolve?_of_makeCall {head : Invocation Operand} {chain : List (Invocation Operand)}
    {s : Signature} {e : Element}
    (h : (makeCall .standard head chain).outcome = .ok (s, e)) :
    Registry.standard.resolve? e = .ok s := by
  obtain ⟨hs, leading, children, -, hmakes⟩ := makes_of_makeCall h
  exact hmakes.resolve?_eq (Registry.mem_forMethod.mp hs).1

end Build

end FluentPlan
