import Mathlib.Algebra.GroupWithZero.Nat
import Mathlib.Data.List.Basic
import Mathlib.Tactic.Common
import FluentPlan.Proofs.Hoisting.Key

/-!
Replacing all calls of a key: what is left of a call, what it means, and how many places remain
where a call can be hoisted.
-/

namespace FluentPlan.Call

variable {key : CallKey} {ref : Call}

/-- What a child becomes. -/
def replaced (key : CallKey) (ref : Call) (c : Call) : Call :=
  if c.key = key then ref else replace key ref c

theorem replaced_of_key_eq {c : Call} (h : c.key = key) : replaced key ref c = ref := if_pos h

theorem replaced_of_key_ne {c : Call} (h : c.key ≠ key) : replaced key ref c = replace key ref c :=
  if_neg h

theorem replaceChildren_eq_map (cs : List Call) :
    replaceChildren key ref cs = cs.map (replaced key ref) := by
  induction cs with
  | nil => simp [replaceChildren]
  | cons c cs ih => simp [replaceChildren, replaced, ih]

theorem replaceChain_eq_map (cs : List Call) :
    replaceChain key ref cs = cs.map (replace key ref) := by
  induction cs with
  | nil => simp [replaceChain]
  | cons c cs ih => simp [replaceChain, ih]

theorem replace_eq (c : Call) :
    replace key ref c =
      ⟨c.head, c.children.map (replaced key ref), c.chain.map (replace key ref)⟩ := by
  cases c
  simp [replace, replaceChildren_eq_map, replaceChain_eq_map]

@[simp] theorem head_replace (c : Call) : (replace key ref c).head = c.head := by rw [replace_eq]

@[simp] theorem children_replace (c : Call) :
    (replace key ref c).children = c.children.map (replaced key ref) := by rw [replace_eq]

@[simp] theorem chain_replace (c : Call) :
    (replace key ref c).chain = c.chain.map (replace key ref) := by rw [replace_eq]

@[simp] theorem isReference_replace (c : Call) :
    (replace key ref c).isReference = c.isReference := by simp [isReference]

@[simp] theorem isCandidate_replace (c : Call) :
    (replace key ref c).isCandidate = c.isCandidate := by
  simp [isCandidate, isReference, isEmpty, hasChildren, Function.comp_def]

/-- What a walk meets after replacing: the replacement, or what it met before, as it is now. -/
theorem mem_walk_replace (hw : ref.walk = [ref]) (c : Call) {d : Call}
    (hd : d ∈ (replace key ref c).walk) :
    d = ref ∨ ∃ e ∈ c.walk, d = replace key ref e := by
  induction c using Call.induction with
  | step c hchildren hchain =>
    rcases mem_walk_iff.mp hd with rfl | ⟨k', hk', hdk⟩ | ⟨l', hl', hdl⟩
    · exact .inr ⟨c, mem_walk_self c, rfl⟩
    · rw [children_replace] at hk'
      obtain ⟨k, hk, rfl⟩ := List.mem_map.mp hk'
      by_cases hkey : k.key = key
      · rw [replaced_of_key_eq hkey, hw, List.mem_singleton] at hdk
        exact .inl hdk
      · rw [replaced_of_key_ne hkey] at hdk
        rcases hchildren k hk hdk with hd | ⟨e, he, hd⟩
        · exact .inl hd
        · exact .inr ⟨e, walk_subset_of_mem_children hk he, hd⟩
    · rw [chain_replace] at hl'
      obtain ⟨l, hl, rfl⟩ := List.mem_map.mp hl'
      rcases hchain l hl hdl with hd | ⟨e, he, hd⟩
      · exact .inl hd
      · exact .inr ⟨e, walk_subset_of_mem_chain hl he, hd⟩

/-- The meaning stays where the replacement stands for what each replaced call means. -/
theorem keyIn_replace {ρ : String → CallKey} (c : Call)
    (h : ∀ d ∈ c.walk, d.key = key → ref.keyIn ρ = d.keyIn ρ) :
    (replace key ref c).keyIn ρ = c.keyIn ρ := by
  induction c using Call.induction with
  | step c hchildren hchain =>
    cases hr : c.isReference with
    | true =>
      rw [keyIn_of_isReference hr, keyIn_of_isReference (by rwa [isReference_replace]),
        head_replace]
    | false =>
      have hk : (c.children.map (replaced key ref)).map (keyIn ρ) = c.children.map (keyIn ρ) := by
        rw [List.map_map]
        refine List.map_congr_left fun k hk => ?_
        have hsub := walk_subset_of_mem_children hk
        by_cases hkey : k.key = key
        · rw [Function.comp_apply, replaced_of_key_eq hkey, h k (hsub (mem_walk_self k)) hkey]
        · rw [Function.comp_apply, replaced_of_key_ne hkey]
          exact hchildren k hk fun d hd => h d (hsub hd)
      have hl : (c.chain.map (replace key ref)).map (keyIn ρ) = c.chain.map (keyIn ρ) := by
        rw [List.map_map]
        refine List.map_congr_left fun l hl => hchain l hl fun d hd => ?_
        exact h d (walk_subset_of_mem_chain hl hd)
      rw [keyIn_eq (by rwa [isReference_replace]), keyIn_eq hr, children_replace, chain_replace, hk,
        hl, head_replace, isEmpty, isEmpty, head_replace]

/-! ### Places -/

theorem candidates_eq (c : Call) :
    c.candidates = c.children.filter isCandidate ++
      (c.children.flatMap candidates ++ c.chain.flatMap candidates) := by
  unfold candidates
  rw [walk_eq, List.cons_append, List.flatMap_cons, List.flatMap_append, walkAll_eq_flatMap,
    walkAll_eq_flatMap, List.flatMap_assoc, List.flatMap_assoc]

/-- The places that a child accounts for: its own, and those in it. -/
def places (c : Call) : Nat := (if c.isCandidate then 1 else 0) + c.candidates.length

theorem length_candidates (c : Call) :
    c.candidates.length =
      (c.children.map places).sum + (c.chain.map fun l => l.candidates.length).sum := by
  have hchildren (cs : List Call) : (cs.map places).sum =
      (cs.filter isCandidate).length + (cs.flatMap candidates).length := by
    induction cs with
    | nil => rfl
    | cons c cs ih =>
      rw [List.map_cons, List.sum_cons, ih, List.flatMap_cons, List.length_append, List.filter_cons,
        places]
      split_ifs
      · rw [List.length_cons]
        omega
      · omega
  have hchain := List.length_flatMap (f := candidates) (l := c.chain)
  rw [candidates_eq, List.length_append, List.length_append, hchildren, hchain]
  omega

theorem sum_map_le {f g : Call → Nat} {cs : List Call} (h : ∀ c ∈ cs, f c ≤ g c) :
    (cs.map f).sum ≤ (cs.map g).sum := by
  induction cs with
  | nil => exact Nat.le_refl _
  | cons c cs ih =>
    have hc := h c List.mem_cons_self
    have hcs := ih fun d hd => h d (List.mem_cons_of_mem c hd)
    rw [List.map_cons, List.map_cons, List.sum_cons, List.sum_cons]
    omega

theorem sum_map_add_le {f g : Call → Nat} {cs : List Call} (h : ∀ c ∈ cs, f c ≤ g c) {k : Call}
    (hk : k ∈ cs) {n : Nat} (hn : f k + n ≤ g k) : (cs.map f).sum + n ≤ (cs.map g).sum := by
  induction cs with
  | nil => cases hk
  | cons c cs ih =>
    have hc := h c List.mem_cons_self
    have hcs := fun d hd => h d (List.mem_cons_of_mem c hd)
    rw [List.map_cons, List.map_cons, List.sum_cons, List.sum_cons]
    rcases List.mem_cons.mp hk with rfl | hk
    · have := sum_map_le hcs
      omega
    · have := ih hcs hk
      omega

theorem le_sum_map {f : Call → Nat} {cs : List Call} {k : Call} (hk : k ∈ cs) :
    f k ≤ (cs.map f).sum := by
  have h := sum_map_add_le (f := fun _ => 0) (g := f) (fun _ _ => Nat.zero_le _) hk (n := f k)
    (Nat.le_of_eq (Nat.zero_add _))
  omega

theorem mem_candidates_iff {c x : Call} :
    x ∈ c.candidates ↔
      (x ∈ c.children ∧ x.isCandidate = true) ∨ (∃ k ∈ c.children, x ∈ k.candidates) ∨
        ∃ l ∈ c.chain, x ∈ l.candidates := by
  rw [candidates_eq, List.mem_append, List.mem_append, List.mem_filter, List.mem_flatMap,
    List.mem_flatMap]

theorem mem_walk_of_mem_candidates {c x : Call} (h : x ∈ c.candidates) :
    x ∈ c.walk ∧ x.isCandidate = true := by
  obtain ⟨d, hd, hx⟩ := List.mem_flatMap.mp h
  obtain ⟨hx, hcand⟩ := List.mem_filter.mp hx
  exact ⟨walk_subset_of_mem_walk hd (walk_subset_of_mem_children hx (mem_walk_self x)), hcand⟩

theorem places_of_isCandidate {c : Call} (h : c.isCandidate = true) :
    places c = c.candidates.length + 1 := by
  rw [places, if_pos h, Nat.add_comm]

theorem length_candidates_le_places (c : Call) : c.candidates.length ≤ places c :=
  Nat.le_add_left _ _

/-- A place in a call accounts for fewer places than the call. -/
theorem places_le_of_mem_candidates (c : Call) {x : Call} (hx : x ∈ c.candidates) :
    places x ≤ c.candidates.length := by
  induction c using Call.induction with
  | step c hchildren hchain =>
    rw [length_candidates c]
    rcases mem_candidates_iff.mp hx with ⟨hk, -⟩ | ⟨k, hk, hx⟩ | ⟨l, hl, hx⟩
    · have := le_sum_map (f := places) hk
      omega
    · have := hchildren k hk hx
      have := length_candidates_le_places k
      have := le_sum_map (f := places) hk
      omega
    · have := hchain l hl hx
      have := le_sum_map (f := fun l => l.candidates.length) hl
      omega

@[simp] theorem places_reference (name : String) (body : Call) :
    places (reference name body) = 0 := by
  rw [places, length_candidates]
  simp [isCandidate, isReference, reference]

section

variable (hr : places ref = 0)

include hr

/-- What stands at a place after replacing stood at one before, as it was then. -/
theorem exists_candidate_of_replace (c : Call) {x : Call}
    (hx : x ∈ (replace key ref c).candidates) : ∃ y ∈ c.candidates, x = replace key ref y := by
  have hnone : ref.candidates = [] :=
    List.length_eq_zero_iff.mp (Nat.le_zero.mp (hr ▸ length_candidates_le_places ref))
  have hcand : ref.isCandidate = false := by
    by_contra h
    rw [places_of_isCandidate (by simpa using h)] at hr
    cases hr
  induction c using Call.induction with
  | step c hchildren hchain =>
    rw [mem_candidates_iff, children_replace, chain_replace] at hx
    rcases hx with ⟨hm, hx⟩ | ⟨k', hk', hx⟩ | ⟨l', hl', hx⟩
    · obtain ⟨k, hk, rfl⟩ := List.mem_map.mp hm
      by_cases hkey : k.key = key
      · rw [replaced_of_key_eq hkey, hcand] at hx
        cases hx
      · rw [replaced_of_key_ne hkey] at hx ⊢
        rw [isCandidate_replace] at hx
        exact ⟨k, mem_candidates_iff.mpr (.inl ⟨hk, hx⟩), rfl⟩
    · obtain ⟨k, hk, rfl⟩ := List.mem_map.mp hk'
      by_cases hkey : k.key = key
      · rw [replaced_of_key_eq hkey, hnone] at hx
        cases hx
      · rw [replaced_of_key_ne hkey] at hx
        obtain ⟨y, hy, rfl⟩ := hchildren k hk hx
        exact ⟨y, mem_candidates_iff.mpr (.inr (.inl ⟨k, hk, hy⟩)), rfl⟩
    · obtain ⟨l, hl, rfl⟩ := List.mem_map.mp hl'
      obtain ⟨y, hy, rfl⟩ := hchain l hl hx
      exact ⟨y, mem_candidates_iff.mpr (.inr (.inr ⟨l, hl, hy⟩)), rfl⟩

theorem places_replaced_le {c : Call}
    (h : (replace key ref c).candidates.length ≤ c.candidates.length) :
    places (replaced key ref c) ≤ places c := by
  by_cases hk : c.key = key
  · rw [replaced_of_key_eq hk, hr]
    exact Nat.zero_le _
  · rw [replaced_of_key_ne hk, places, places, isCandidate_replace]
    omega

theorem length_candidates_replace_le (c : Call) :
    (replace key ref c).candidates.length ≤ c.candidates.length := by
  induction c using Call.induction with
  | step c hchildren hchain =>
    rw [length_candidates, length_candidates c, children_replace, chain_replace, List.map_map,
      List.map_map]
    have hk := sum_map_le fun k hk => places_replaced_le hr (hchildren k hk)
    have hl := sum_map_le hchain
    exact Nat.add_le_add hk hl

/-- Replacing a place does away with it and all places in it. -/
theorem length_candidates_replace_add (c : Call) {x : Call} (hx : x ∈ c.candidates)
    (hkey : x.key = key) :
    (replace key ref c).candidates.length + places x ≤ c.candidates.length := by
  induction c using Call.induction with
  | step c hchildren hchain =>
    have hle : ∀ d : Call, (replace key ref d).candidates.length ≤ d.candidates.length :=
      fun d => length_candidates_replace_le hr d
    have hk := fun k (_ : k ∈ c.children) => places_replaced_le hr (hle k)
    have hl := fun l (_ : l ∈ c.chain) => hle l
    rw [length_candidates, length_candidates c, children_replace, chain_replace, List.map_map,
      List.map_map]
    rcases mem_candidates_iff.mp hx with ⟨hm, -⟩ | ⟨k, hm, hx⟩ | ⟨l, hm, hx⟩
    · have hgap : places (replaced key ref x) + places x ≤ places x :=
        Nat.le_of_eq (by rw [replaced_of_key_eq hkey, hr, Nat.zero_add])
      have := sum_map_add_le hk hm hgap
      have := sum_map_le hl
      simp only [Function.comp_def] at *
      omega
    · have hgap : places (replaced key ref k) + places x ≤ places k := by
        by_cases hkk : k.key = key
        · rw [replaced_of_key_eq hkk, hr, Nat.zero_add]
          exact Nat.le_trans (places_le_of_mem_candidates k hx) (length_candidates_le_places k)
        · have := hchildren k hm hx
          rw [replaced_of_key_ne hkk, places.eq_def (replace key ref k), places.eq_def k,
            isCandidate_replace]
          omega
      have := sum_map_add_le hk hm hgap
      have := sum_map_le hl
      simp only [Function.comp_def] at *
      omega
    · have := sum_map_le hk
      have := sum_map_add_le hl hm (hchain l hm hx)
      simp only [Function.comp_def] at *
      omega

end

end FluentPlan.Call
