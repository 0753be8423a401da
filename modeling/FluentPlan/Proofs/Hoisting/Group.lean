import Mathlib.Data.List.Basic
import Mathlib.Data.List.Nodup
import Mathlib.Tactic.Common
import FluentPlan.Call.Hoist

/-!
The groups of equal calls: one for each key that occurs, with the number of its occurrences. None is
picked only when each key occurs once.
-/

namespace FluentPlan.Helper

theorem tally_nil (c : Call) : tally [] c = [⟨c.key, c, 1⟩] := rfl

theorem tally_cons (g : Group) (gs : List Group) (c : Call) :
    tally (g :: gs) c =
      if g.key = c.key then { g with count := g.count + 1 } :: gs else g :: tally gs c := rfl

theorem keys_tally (gs : List Group) (c : Call) :
    (tally gs c).map Group.key =
      if c.key ∈ gs.map Group.key then gs.map Group.key else gs.map Group.key ++ [c.key] := by
  induction gs with
  | nil => rfl
  | cons g gs ih =>
    rw [tally_cons]
    by_cases hk : g.key = c.key
    · rw [if_pos hk, if_pos (by simp [hk])]
      rfl
    · rw [if_neg hk, List.map_cons, ih]
      have hmem : c.key ∈ (g :: gs).map Group.key ↔ c.key ∈ gs.map Group.key := by
        rw [List.map_cons, List.mem_cons, or_iff_right (Ne.symm hk)]
      split_ifs with h h' h'
      · rfl
      · exact absurd (hmem.mpr h) h'
      · exact absurd (hmem.mp h') h
      · rfl

/-- A group after a call is counted: one of another key, or that of its key, found or new. -/
theorem mem_tally {gs : List Group} {c : Call} (hn : (gs.map Group.key).Nodup) {g : Group}
    (hg : g ∈ tally gs c) :
    (g ∈ gs ∧ g.key ≠ c.key) ∨
      (∃ h ∈ gs, h.key = c.key ∧ g = { h with count := h.count + 1 }) ∨
      (c.key ∉ gs.map Group.key ∧ g = ⟨c.key, c, 1⟩) := by
  induction gs with
  | nil =>
    rw [tally_nil, List.mem_singleton] at hg
    exact .inr (.inr ⟨List.not_mem_nil, hg⟩)
  | cons f gs ih =>
    obtain ⟨hf, hn⟩ := List.nodup_cons.mp hn
    rw [tally_cons] at hg
    by_cases hk : f.key = c.key
    · rw [if_pos hk] at hg
      rcases List.mem_cons.mp hg with rfl | hg
      · exact .inr (.inl ⟨f, List.mem_cons_self, hk, rfl⟩)
      · refine .inl ⟨List.mem_cons_of_mem f hg, fun he => hf ?_⟩
        rw [hk, ← he]
        exact List.mem_map_of_mem hg
    · rw [if_neg hk] at hg
      rcases List.mem_cons.mp hg with rfl | hg
      · exact .inl ⟨List.mem_cons_self, hk⟩
      · rcases ih hn hg with ⟨hm, he⟩ | ⟨h, hm, he⟩ | ⟨hnew, he⟩
        · exact .inl ⟨List.mem_cons_of_mem f hm, he⟩
        · exact .inr (.inl ⟨h, List.mem_cons_of_mem f hm, he⟩)
        · refine .inr (.inr ⟨?_, he⟩)
          rw [List.map_cons, List.mem_cons, not_or]
          exact ⟨fun h => hk h.symm, hnew⟩

/-- The groups stand for the calls: each key has its group, and each group is one of the calls with
the number of its occurrences. -/
structure Counts (cs : List Call) (gs : List Group) : Prop where
  nodup : (gs.map Group.key).Nodup
  mem_iff : ∀ k, k ∈ gs.map Group.key ↔ k ∈ cs.map Call.key
  call : ∀ g ∈ gs, g.call ∈ cs ∧ g.call.key = g.key
  count : ∀ g ∈ gs, g.count = (cs.map Call.key).count g.key

theorem Counts.nil : Counts [] [] where
  nodup := List.nodup_nil
  mem_iff := fun _ => Iff.rfl
  call := fun _ hg => absurd hg List.not_mem_nil
  count := fun _ hg => absurd hg List.not_mem_nil

theorem Counts.tally {cs : List Call} {gs : List Group} (h : Counts cs gs) (c : Call) :
    Counts (cs ++ [c]) (tally gs c) where
  nodup := by
    rw [keys_tally]
    split_ifs with hm
    · exact h.nodup
    · exact List.nodup_append.mpr ⟨h.nodup, List.nodup_singleton _, fun k hk l hl he =>
        hm (by rwa [← List.mem_singleton.mp hl, ← he])⟩
  mem_iff := by
    intro k
    rw [keys_tally, List.map_append, List.mem_append, List.map_singleton, List.mem_singleton,
      ← h.mem_iff k]
    split_ifs with hm
    · exact ⟨.inl, fun hk => hk.elim id fun he => he ▸ hm⟩
    · rw [List.mem_append, List.mem_singleton]
  call := by
    intro g hg
    rcases mem_tally h.nodup hg with ⟨hm, -⟩ | ⟨f, hm, -, rfl⟩ | ⟨-, rfl⟩
    · exact ⟨List.mem_append_left _ (h.call g hm).1, (h.call g hm).2⟩
    · exact ⟨List.mem_append_left _ (h.call f hm).1, (h.call f hm).2⟩
    · exact ⟨List.mem_append_right _ List.mem_cons_self, rfl⟩
  count := by
    intro g hg
    rw [List.map_append, List.count_append, List.map_singleton]
    rcases mem_tally h.nodup hg with ⟨hm, he⟩ | ⟨f, hm, he, rfl⟩ | ⟨hnew, rfl⟩
    · rw [h.count g hm, List.count_singleton, if_neg (by simpa using Ne.symm he), Nat.add_zero]
    · rw [h.count f hm, ← he, List.count_singleton_self]
    · rw [List.count_eq_zero_of_not_mem (mt (h.mem_iff c.key).mpr hnew), List.count_singleton_self]

theorem counts_groups (roots : List Call) :
    Counts (roots.flatMap Call.candidates) (groups roots) := by
  have hfold (ds : List Call) : ∀ {cs : List Call} {gs : List Group}, Counts cs gs →
      Counts (cs ++ ds) (ds.foldl Helper.tally gs) := by
    induction ds with
    | nil =>
      intro cs gs h
      rwa [List.append_nil]
    | cons d ds ih =>
      intro cs gs h
      rw [List.foldl_cons, ← List.singleton_append, ← List.append_assoc]
      exact ih (h.tally d)
  exact hfold (roots.flatMap Call.candidates) .nil

theorem mem_of_pick {gs : List Group} {g : Group} (h : pick gs = some g) : g ∈ gs := by
  induction gs with
  | nil => cases h
  | cons f gs ih =>
    unfold pick at h
    cases hp : pick gs with
    | none =>
      rw [hp] at h
      simp only at h
      split_ifs at h
      cases h
      exact List.mem_cons_self
    | some b =>
      rw [hp] at h
      simp only at h
      split_ifs at h <;> cases h
      · exact List.mem_cons_self
      · exact List.mem_cons_of_mem f (ih hp)

theorem count_le_one_of_pick {gs : List Group} (h : pick gs = none) : ∀ g ∈ gs, g.count ≤ 1 := by
  induction gs with
  | nil => exact fun g hg => absurd hg List.not_mem_nil
  | cons f gs ih =>
    unfold pick at h
    cases hp : pick gs with
    | none =>
      rw [hp] at h
      simp only at h
      split_ifs at h with hf
      intro g hg
      rcases List.mem_cons.mp hg with rfl | hg
      · exact Nat.le_of_not_lt hf
      · exact ih hp g hg
    | some b =>
      rw [hp] at h
      simp only at h
      split_ifs at h

/-- The group that is picked repeats, and is as large as any that does. -/
theorem largest_of_pick {gs : List Group} {g : Group} (h : pick gs = some g) :
    1 < g.count ∧ ∀ f ∈ gs, 1 < f.count → f.call.size ≤ g.call.size := by
  induction gs generalizing g with
  | nil => cases h
  | cons f gs ih =>
    unfold pick at h
    cases hp : pick gs with
    | none =>
      rw [hp] at h
      simp only at h
      split_ifs at h with hf
      cases h
      refine ⟨hf, List.forall_mem_cons.mpr ⟨fun _ => Nat.le_refl _, fun e he hcount => ?_⟩⟩
      exact absurd hcount (Nat.not_lt.mpr (count_le_one_of_pick hp e he))
    | some b =>
      rw [hp] at h
      obtain ⟨hb, hmax⟩ := ih hp
      simp only [Bool.and_eq_true, decide_eq_true_eq] at h
      split_ifs at h with hf <;> cases h
      · exact ⟨hf.1, List.forall_mem_cons.mpr
          ⟨fun _ => Nat.le_refl _, fun e he hcount => Nat.le_trans (hmax e he hcount) hf.2⟩⟩
      · refine ⟨hb, List.forall_mem_cons.mpr ⟨fun hcount => ?_, hmax⟩⟩
        exact Nat.le_of_not_le fun hle => hf ⟨hcount, hle⟩

/-- A group that is picked is one of the places, under its key. -/
theorem mem_candidates_of_pick {roots : List Call} {g : Group} (h : pick (groups roots) = some g) :
    g.call.key = g.key ∧ ∃ c ∈ roots, g.call ∈ c.candidates := by
  obtain ⟨hm, hk⟩ := (counts_groups roots).call g (mem_of_pick h)
  exact ⟨hk, List.mem_flatMap.mp hm⟩

/-- Where no group is picked, no key repeats. -/
theorem nodup_of_pick {roots : List Call} (h : pick (groups roots) = none) :
    ((roots.flatMap Call.candidates).map Call.key).Nodup := by
  rw [List.nodup_iff_count_le_one]
  intro k
  have hc := counts_groups roots
  by_cases hk : k ∈ (groups roots).map Group.key
  · obtain ⟨g, hg, rfl⟩ := List.mem_map.mp hk
    rw [← hc.count g hg]
    exact count_le_one_of_pick h g hg
  · rw [List.count_eq_zero_of_not_mem (mt (hc.mem_iff k).mpr hk)]
    exact Nat.zero_le 1

end FluentPlan.Helper
