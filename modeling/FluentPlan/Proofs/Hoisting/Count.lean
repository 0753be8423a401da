import Mathlib.Algebra.BigOperators.Group.List.Basic
import Mathlib.Data.List.Basic
import Mathlib.Tactic.Common
import FluentPlan.Proofs.Hoisting.Replace

/-!
What replacing the calls of a key does to the number of other calls. A replacement of a new name
keeps calls apart that were apart before, so no key occurs more often than it did; and it is met once
for each place of the replaced calls.
-/

namespace FluentPlan.Call

variable {key' : CallKey} {ref : Call}

/-! ### Methods -/

/-- The methods that a call and all calls nested in it call. -/
def methods (c : Call) : List String := c.walk.map (·.head.method)

theorem methods_eq (c : Call) :
    c.methods = c.head.method :: (c.children.flatMap methods ++ c.chain.flatMap methods) := by
  unfold methods
  rw [walk_eq, List.cons_append, List.map_cons, List.map_append, walkAll_eq_flatMap,
    walkAll_eq_flatMap, List.map_flatMap, List.map_flatMap]

theorem mem_methods {c d : Call} (hd : d ∈ c.walk) : d.head.method ∈ c.methods :=
  List.mem_map_of_mem hd

theorem methods_subset {c d : Call} (hd : d ∈ c.walk) : d.methods ⊆ c.methods :=
  List.map_subset _ (walk_subset_of_mem_walk hd)

theorem methods_child {c k : Call} (hk : k ∈ c.children) : k.methods ⊆ c.methods :=
  List.map_subset _ (walk_subset_of_mem_children hk)

theorem methods_link {c l : Call} (hl : l ∈ c.chain) : l.methods ⊆ c.methods :=
  List.map_subset _ (walk_subset_of_mem_chain hl)

/-- The key of a call tells its methods, in their order. -/
theorem methods_eq_of_key_eq (c : Call) {d : Call} (h : c.key = d.key) :
    c.methods = d.methods := by
  induction c using Call.induction generalizing d with
  | step c hchildren hchain =>
    rw [key_eq, key_eq d, CallKey.mk.injEq] at h
    obtain ⟨hm, -, -, -, hks, hls⟩ := h
    have hk : c.children.map methods = d.children.map methods :=
      map_eq_of_map_eq (fun k hk k' _ => hchildren k hk) hks
    have hl : c.chain.map methods = d.chain.map methods :=
      map_eq_of_map_eq (fun l hl l' _ => hchain l hl) hls
    rw [methods_eq, methods_eq d, List.flatMap_def, List.flatMap_def, List.flatMap_def,
      List.flatMap_def, hm, hk, hl]

theorem length_methods (c : Call) : c.methods.length = c.size := List.length_map _

theorem size_eq_of_key_eq {c d : Call} (h : c.key = d.key) : c.size = d.size := by
  rw [← length_methods, methods_eq_of_key_eq c h, length_methods]

theorem size_child {c k : Call} (hk : k ∈ c.children) : k.size < c.size := by
  have hle : k.size ≤ (c.children.flatMap walk).length := by
    rw [List.length_flatMap]
    exact le_sum_map (f := size) hk
  rw [size.eq_def c, walk_eq, List.length_append, List.length_cons, walkAll_eq_flatMap]
  omega

theorem size_link {c l : Call} (hl : l ∈ c.chain) : l.size < c.size := by
  have hle : l.size ≤ (c.chain.flatMap walk).length := by
    rw [List.length_flatMap]
    exact le_sum_map (f := size) hl
  rw [size.eq_def c, walk_eq, List.length_append, List.length_cons, walkAll_eq_flatMap,
    walkAll_eq_flatMap]
  omega

/-- Nothing is replaced in a call that is no larger than what is replaced. -/
theorem replace_of_size_le {x : Call} (hx : x.key = key') (c : Call) (h : c.size ≤ x.size) :
    replace key' ref c = c := by
  induction c using Call.induction with
  | step c hchildren hchain =>
    have hk : c.children.map (replaced key' ref) = c.children := by
      refine (List.map_congr_left fun k hk => ?_).trans (List.map_id _)
      have hlt := size_child hk
      have hne : k.key ≠ key' := fun he => by
        have := size_eq_of_key_eq (he.trans hx.symm)
        omega
      rw [replaced_of_key_ne hne, id]
      exact hchildren k hk (by omega)
    have hl : c.chain.map (replace key' ref) = c.chain := by
      refine (List.map_congr_left fun l hl => ?_).trans (List.map_id _)
      have hlt := size_link hl
      exact hchain l hl (by omega)
    rw [replace_eq, hk, hl]
    cases c
    rfl

/-- Equal calls do not nest: nothing in a call has its key. -/
theorem replace_key_self (c : Call) : replace c.key ref c = c :=
  replace_of_size_le rfl c (Nat.le_refl _)

/-- No call that is at most as large as a candidate stands in it. -/
theorem size_lt_of_mem_candidates (c : Call) {x : Call} (hx : x ∈ c.candidates) :
    x.size < c.size := by
  induction c using Call.induction with
  | step c hchildren hchain =>
    rcases mem_candidates_iff.mp hx with ⟨hk, -⟩ | ⟨k, hk, hx⟩ | ⟨l, hl, hx⟩
    · exact size_child hk
    · exact Nat.lt_trans (hchildren k hk hx) (size_child hk)
    · exact Nat.lt_trans (hchain l hl hx) (size_link hl)

/-! ### Keys -/

/-- Calls that are equal where a new name stands for calls of a key were equal before. -/
theorem key_eq_of_key_replace_eq (c : Call) {d : Call} (hc : ref.head.method ∉ c.methods)
    (hd : ref.head.method ∉ d.methods) (h : (replace key' ref c).key = (replace key' ref d).key) :
    c.key = d.key := by
  have hmethod {k k' : Call} (h : k.key = (replace key' ref k').key) :
      k.head.method ∈ k'.methods := by
    rw [key_eq, key_eq (replace key' ref k'), CallKey.mk.injEq, head_replace] at h
    exact h.1 ▸ mem_methods (mem_walk_self k')
  induction c using Call.induction generalizing d with
  | step c hchildren hchain =>
    rw [key_eq, key_eq (replace key' ref d), CallKey.mk.injEq, head_replace, head_replace,
      children_replace, children_replace, chain_replace, chain_replace, List.map_map, List.map_map,
      List.map_map, List.map_map] at h
    obtain ⟨hm, hcom, hemp, hargs, hks, hls⟩ := h
    simp only [isEmpty, head_replace] at hemp
    have hk : c.children.map key = d.children.map key := by
      refine map_eq_of_map_eq (fun k hk k' hk' he => ?_) hks
      have hck := fun hm => hc (methods_child hk hm)
      have hdk := fun hm => hd (methods_child hk' hm)
      simp only [Function.comp_apply] at he
      by_cases hkey : k.key = key' <;> by_cases hkey' : k'.key = key'
      · exact hkey.trans hkey'.symm
      · rw [replaced_of_key_eq hkey, replaced_of_key_ne hkey'] at he
        exact absurd (hmethod he) hdk
      · rw [replaced_of_key_ne hkey, replaced_of_key_eq hkey'] at he
        exact absurd (hmethod he.symm) hck
      · rw [replaced_of_key_ne hkey, replaced_of_key_ne hkey'] at he
        exact hchildren k hk hck hdk he
    have hl : c.chain.map key = d.chain.map key :=
      map_eq_of_map_eq (fun l hl l' hl' he => hchain l hl (fun hm => hc (methods_link hl hm))
        (fun hm => hd (methods_link hl' hm)) he) hls
    rw [key_eq, key_eq d, isEmpty, isEmpty, hm, hcom, hemp, hargs, hk, hl]

theorem isEmpty_of_key_eq {c d : Call} (h : c.key = d.key) : c.isEmpty = d.isEmpty := by
  rw [key_eq, key_eq d, CallKey.mk.injEq] at h
  exact h.2.2.1

theorem hasChildren_of_key_eq {c d : Call} (h : c.key = d.key) :
    c.hasChildren = d.hasChildren := by
  have hempty {c d : Call} (h : c.key = d.key) : c.children.isEmpty = d.children.isEmpty := by
    rw [key_eq, key_eq d, CallKey.mk.injEq] at h
    rw [← List.isEmpty_map (f := key), h.2.2.2.2.1, List.isEmpty_map]
  have hchain : c.chain.map (!·.children.isEmpty) = d.chain.map (!·.children.isEmpty) := by
    have hkey := h
    rw [key_eq, key_eq d, CallKey.mk.injEq] at hkey
    exact map_eq_of_map_eq (fun l _ l' _ he => congrArg not (hempty he)) hkey.2.2.2.2.2
  have hany (cs : List Call) :
      (cs.any fun l => !l.children.isEmpty) = (cs.map (!·.children.isEmpty)).any id := by
    rw [List.any_map]
    rfl
  rw [hasChildren, hasChildren, hempty h, hany, hany, hchain]

section

variable {names : List String}

/-- Where references show in their names, the key tells whether there are any. -/
theorem plain_iff_methods {c : Call} (h : c.Tidy names) :
    (∀ d ∈ c.walk, d.isReference = false) ↔ ∀ m ∈ c.methods, m ∉ names := by
  rw [methods, List.forall_mem_map]
  refine forall₂_congr fun d hd => ?_
  rw [← h.named d hd, Bool.not_eq_true]

theorem isCandidate_of_key_eq {c d : Call} (hc : c.Tidy names) (hd : d.Tidy names)
    (h : c.key = d.key) : c.isCandidate = d.isCandidate := by
  have href : c.isReference = d.isReference := by
    have hmethod : c.head.method = d.head.method := by
      rw [key_eq, key_eq d, CallKey.mk.injEq] at h
      exact h.1
    rw [Bool.eq_iff_iff, hc.named c (mem_walk_self c), hd.named d (mem_walk_self d), hmethod]
  rw [isCandidate, isCandidate, href, isEmpty_of_key_eq h, hasChildren_of_key_eq h]

end

/-! ### Numbers -/

/-- How often a key occurs among the places in a call. -/
def occurrences (k : CallKey) (c : Call) : Nat := (c.candidates.map key).count k

/-- How often a key occurs among the places that a child accounts for. -/
def standing (k : CallKey) (c : Call) : Nat :=
  (if c.isCandidate = true ∧ c.key = k then 1 else 0) + occurrences k c

theorem occurrences_eq (k : CallKey) (c : Call) :
    occurrences k c = (c.children.map (standing k)).sum + (c.chain.map (occurrences k)).sum := by
  have hchildren (cs : List Call) : (cs.map (standing k)).sum =
      ((cs.filter isCandidate).map key).count k + ((cs.flatMap candidates).map key).count k := by
    induction cs with
    | nil => rfl
    | cons c cs ih =>
      rw [List.map_cons, List.sum_cons, ih, List.flatMap_cons, List.map_append, List.count_append,
        List.filter_cons, standing, occurrences]
      cases hc : c.isCandidate with
      | false =>
        rw [if_neg (by simp), if_neg (by simp)]
        omega
      | true =>
        rw [if_pos rfl, List.map_cons, List.count_cons]
        simp only [true_and, beq_iff_eq]
        omega
  have hchain (cs : List Call) :
      (cs.map (occurrences k)).sum = ((cs.flatMap candidates).map key).count k := by
    rw [List.map_flatMap, List.count_flatMap]
    rfl
  rw [occurrences, candidates_eq, List.map_append, List.map_append, List.count_append,
    List.count_append, hchildren, hchain]
  omega

theorem occurrences_of_size_le {x c : Call} (h : c.size ≤ x.size) : occurrences x.key c = 0 := by
  refine List.count_eq_zero_of_not_mem fun hm => ?_
  obtain ⟨y, hy, hkey⟩ := List.mem_map.mp hm
  have := size_lt_of_mem_candidates c hy
  have := size_eq_of_key_eq hkey
  omega

theorem standing_of_key_eq {x c : Call} (hc : c.isCandidate = true) (h : c.key = x.key) :
    standing x.key c = 1 := by
  rw [standing, if_pos ⟨hc, h⟩, occurrences_of_size_le (Nat.le_of_eq (size_eq_of_key_eq h))]

theorem standing_of_key_ne {k : CallKey} {c : Call} (h : c.key ≠ k) :
    standing k c = occurrences k c := by
  rw [standing, if_neg fun hk => h hk.2, Nat.zero_add]

theorem standing_of_places (k : CallKey) (h : places ref = 0) : standing k ref = 0 := by
  have hnone : ref.candidates = [] :=
    List.length_eq_zero_iff.mp (Nat.le_zero.mp (h ▸ length_candidates_le_places ref))
  have hcand : ref.isCandidate = false := by
    by_contra hc
    rw [places_of_isCandidate (by simpa using hc)] at h
    cases h
  rw [standing, occurrences, hnone, hcand]
  simp

/-- A replacement of a new name makes no key occur more often. -/
theorem occurrences_replace_le (hr : places ref = 0) {x : Call} (hx : ref.head.method ∉ x.methods)
    (c : Call) (hc : ref.head.method ∉ c.methods) :
    occurrences (replace key' ref x).key (replace key' ref c) ≤ occurrences x.key c := by
  induction c using Call.induction with
  | step c hchildren hchain =>
    rw [occurrences_eq, occurrences_eq x.key, children_replace, chain_replace, List.map_map,
      List.map_map]
    refine Nat.add_le_add (sum_map_le fun k hk => ?_) (sum_map_le fun l hl => ?_)
    · have hck := fun hm => hc (methods_child hk hm)
      rw [Function.comp_apply]
      by_cases hkey : k.key = key'
      · rw [replaced_of_key_eq hkey]
        exact standing_of_places _ hr ▸ Nat.zero_le _
      · rw [replaced_of_key_ne hkey, standing, standing, isCandidate_replace]
        refine Nat.add_le_add ?_ (hchildren k hk hck)
        split_ifs with h h'
        · exact Nat.le_refl _
        · exact absurd ⟨h.1, key_eq_of_key_replace_eq k hck hx h.2⟩ h'
        · exact Nat.zero_le _
        · exact Nat.le_refl _
    · exact hchain l hl fun hm => hc (methods_link hl hm)

theorem count_methods_eq (m : String) (c : Call) :
    c.methods.count m = [c.head.method].count m +
      ((c.children.map fun k => k.methods.count m).sum +
        (c.chain.map fun l => l.methods.count m).sum) := by
  rw [methods_eq, ← List.singleton_append, List.count_append, List.count_append, List.count_flatMap,
    List.count_flatMap]
  rfl

/-- A replacement is met once for each place, and no other method more or less often that what is
replaced does not call. -/
theorem count_methods_replace {x : Call} {m : String} (hw : ref.walk = [ref])
    (hm : m ∉ x.methods) (c : Call)
    (hcand : ∀ d ∈ c.walk, d.key = x.key → d.isCandidate = true) :
    (replace x.key ref c).methods.count m =
      c.methods.count m + if m = ref.head.method then occurrences x.key c else 0 := by
  induction c using Call.induction with
  | step c hchildren hchain =>
    have hk : (c.children.map (replaced x.key ref)).map (fun k => k.methods.count m) =
        c.children.map fun k =>
          k.methods.count m + if m = ref.head.method then standing x.key k else 0 := by
      rw [List.map_map]
      refine List.map_congr_left fun k hk => ?_
      have hsub := walk_subset_of_mem_children hk
      rw [Function.comp_apply]
      by_cases hkey : k.key = x.key
      · rw [replaced_of_key_eq hkey, methods_eq_of_key_eq k hkey, List.count_eq_zero_of_not_mem hm,
          standing_of_key_eq (hcand k (hsub (mem_walk_self k)) hkey) hkey, methods, hw,
          List.map_singleton, List.count_singleton, Nat.zero_add]
        exact if_congr (beq_iff_eq.trans eq_comm) rfl rfl
      · rw [replaced_of_key_ne hkey, standing_of_key_ne hkey]
        exact hchildren k hk fun d hd => hcand d (hsub hd)
    have hl : (c.chain.map (replace x.key ref)).map (fun l => l.methods.count m) =
        c.chain.map fun l =>
          l.methods.count m + if m = ref.head.method then occurrences x.key l else 0 := by
      rw [List.map_map]
      refine List.map_congr_left fun l hl => ?_
      exact hchain l hl fun d hd => hcand d (walk_subset_of_mem_chain hl hd)
    rw [count_methods_eq, count_methods_eq m c, head_replace, children_replace, chain_replace, hk,
      hl, List.sum_map_add, List.sum_map_add, occurrences_eq]
    by_cases heq : m = ref.head.method
    · simp only [if_pos heq]
      change _ + (_ + (c.children.map (standing x.key)).sum +
        (_ + (c.chain.map (occurrences x.key)).sum)) = _
      omega
    · simp [heq]

end FluentPlan.Call
