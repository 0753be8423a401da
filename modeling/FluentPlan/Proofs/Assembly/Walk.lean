import Mathlib.Data.List.Basic
import Mathlib.Tactic.Common
import FluentPlan.Call

/-!
Calls as trees: induction over what is nested in a call, and the calls that a walk meets.
-/

namespace FluentPlan.Call

/-- What holds of a call if it holds of its children and of its chain holds of all calls. -/
theorem induction {P : Call → Prop}
    (step : ∀ c : Call, (∀ d ∈ c.children, P d) → (∀ d ∈ c.chain, P d) → P c) (c : Call) : P c := by
  obtain ⟨head, children, chain⟩ := c
  refine step _ (fun d hd => ?_) fun d hd => ?_
  · have := List.sizeOf_lt_of_mem hd
    exact induction step d
  · have := List.sizeOf_lt_of_mem hd
    exact induction step d
termination_by sizeOf c
decreasing_by
  all_goals
    simp only [mk.sizeOf_spec] at *
    omega

theorem walkAll_eq_flatMap (cs : List Call) : walkAll cs = cs.flatMap walk := by
  induction cs with
  | nil => exact walkAll_nil
  | cons c cs ih => rw [walkAll_cons, ih, List.flatMap_cons]

theorem walk_subset_walkAll {c : Call} {cs : List Call} (h : c ∈ cs) : c.walk ⊆ walkAll cs := by
  intro d hd
  rw [walkAll_eq_flatMap]
  exact List.mem_flatMap.mpr ⟨c, h, hd⟩

theorem walk_eq (c : Call) : c.walk = c :: walkAll c.children ++ walkAll c.chain := by
  cases c
  simp [walk]

/-- A walk meets the call itself, and what the walks of its children and of its chain meet. -/
theorem mem_walk_iff {c d : Call} :
    d ∈ c.walk ↔ d = c ∨ (∃ k ∈ c.children, d ∈ k.walk) ∨ ∃ l ∈ c.chain, d ∈ l.walk := by
  rw [walk_eq, List.cons_append, List.mem_cons, List.mem_append, walkAll_eq_flatMap,
    walkAll_eq_flatMap, List.mem_flatMap, List.mem_flatMap]

theorem walk_subset_of_mem_children {c k : Call} (hk : k ∈ c.children) : k.walk ⊆ c.walk :=
  fun _ hd => mem_walk_iff.mpr (.inr (.inl ⟨k, hk, hd⟩))

theorem walk_subset_of_mem_chain {c l : Call} (hl : l ∈ c.chain) : l.walk ⊆ c.walk :=
  fun _ hd => mem_walk_iff.mpr (.inr (.inr ⟨l, hl, hd⟩))

theorem walk_subset_of_mem_walk {c d : Call} (h : d ∈ c.walk) : d.walk ⊆ c.walk := by
  induction c using Call.induction with
  | step c hchildren hchain =>
    rcases mem_walk_iff.mp h with rfl | ⟨k, hk, hd⟩ | ⟨l, hl, hd⟩
    · exact List.Subset.refl _
    · exact List.Subset.trans (hchildren k hk hd) (walk_subset_of_mem_children hk)
    · exact List.Subset.trans (hchain l hl hd) (walk_subset_of_mem_chain hl)

end FluentPlan.Call
