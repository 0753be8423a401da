import Mathlib.Data.List.Basic
import Mathlib.Tactic.Common
import FluentPlan.Call.Hoist
import FluentPlan.Proofs.Assembly.Walk

/-!
Keys in which references count as what they stand for. Such keys do not change when equal calls are
replaced by a reference to one of them, and the calls of a key that refers to others are larger than
these.
-/

namespace FluentPlan

/-- Values that count as the same are the same, or the same number. -/
theorem Value.number?_eq_of_key_eq {v w : Value} (h : v.key = w.key) :
    v = w ∨ v.number?.isSome = true ∧ v.number? = w.number? := by
  unfold Value.key at h
  rcases hv : v.number? with _ | ⟨m, e⟩ <;> rcases hw : w.number? with _ | ⟨n, f⟩ <;>
    rw [hv, hw] at h <;> cases h
  · exact .inl rfl
  · exact .inr ⟨rfl, rfl⟩

namespace Call

mutual

/-- The key of a call where a reference counts as what `ρ` has for its name. -/
def keyIn (ρ : String → CallKey) : Call → CallKey
  | ⟨head, children, chain⟩ =>
    if head.role = .reference then ρ head.method
    else ⟨head.method, head.commented, head.role = .empty, head.args.map Arg.key,
      keyInAll ρ children, keyInAll ρ chain⟩

def keyInAll (ρ : String → CallKey) : List Call → List CallKey
  | [] => []
  | c :: cs => keyIn ρ c :: keyInAll ρ cs

end

theorem keyInAll_eq_map (ρ : String → CallKey) (cs : List Call) :
    keyInAll ρ cs = cs.map (keyIn ρ) := by
  induction cs with
  | nil => simp [keyInAll]
  | cons c cs ih => simp [keyInAll, ih]

theorem key_eq (c : Call) :
    c.key = ⟨c.head.method, c.head.commented, c.isEmpty, c.head.args.map Arg.key,
      c.children.map key, c.chain.map key⟩ := by
  cases c
  simp [key, keyAll_eq_map, isEmpty]

theorem keyIn_of_isReference {ρ : String → CallKey} {c : Call} (h : c.isReference = true) :
    c.keyIn ρ = ρ c.head.method := by
  cases c
  simp_all [keyIn, isReference]

theorem keyIn_eq {ρ : String → CallKey} {c : Call} (h : c.isReference = false) :
    c.keyIn ρ = ⟨c.head.method, c.head.commented, c.isEmpty, c.head.args.map Arg.key,
      c.children.map (keyIn ρ), c.chain.map (keyIn ρ)⟩ := by
  cases c
  simp_all [keyIn, keyInAll_eq_map, isEmpty, isReference]

/-- Only what stands for the references in a call matters. -/
theorem keyIn_congr {ρ ρ' : String → CallKey} (c : Call)
    (h : ∀ d ∈ c.walk, d.isReference = true → ρ d.head.method = ρ' d.head.method) :
    c.keyIn ρ = c.keyIn ρ' := by
  induction c using Call.induction with
  | step c hchildren hchain =>
    cases hr : c.isReference with
    | true => rw [keyIn_of_isReference hr, keyIn_of_isReference hr, h c (mem_walk_self c) hr]
    | false =>
      rw [keyIn_eq hr, keyIn_eq hr]
      have hk : c.children.map (keyIn ρ) = c.children.map (keyIn ρ') :=
        List.map_congr_left fun k hk =>
          hchildren k hk fun d hd => h d (walk_subset_of_mem_children hk hd)
      have hl : c.chain.map (keyIn ρ) = c.chain.map (keyIn ρ') :=
        List.map_congr_left fun l hl =>
          hchain l hl fun d hd => h d (walk_subset_of_mem_chain hl hd)
      rw [hk, hl]

theorem keyIn_of_plain {ρ : String → CallKey} (c : Call)
    (h : ∀ d ∈ c.walk, d.isReference = false) : c.keyIn ρ = c.key := by
  induction c using Call.induction with
  | step c hchildren hchain =>
    rw [keyIn_eq (h c (mem_walk_self c)), key_eq]
    have hk : c.children.map (keyIn ρ) = c.children.map key :=
      List.map_congr_left fun k hk =>
        hchildren k hk fun d hd => h d (walk_subset_of_mem_children hk hd)
    have hl : c.chain.map (keyIn ρ) = c.chain.map key :=
      List.map_congr_left fun l hl => hchain l hl fun d hd => h d (walk_subset_of_mem_chain hl hd)
    rw [hk, hl]

/-! ### References -/

/-- A call in which references show in their names, and have nothing nested in them. -/
structure Tidy (names : List String) (c : Call) : Prop where
  named : ∀ d ∈ c.walk, d.isReference = true ↔ d.head.method ∈ names
  leaf : ∀ d ∈ c.walk, d.isReference = true → d.children = [] ∧ d.chain = []

theorem Tidy.of_mem_walk {names : List String} {c d : Call} (h : c.Tidy names) (hd : d ∈ c.walk) :
    d.Tidy names :=
  ⟨fun e he => h.named e (walk_subset_of_mem_walk hd he),
    fun e he => h.leaf e (walk_subset_of_mem_walk hd he)⟩

theorem Tidy.child {names : List String} {c k : Call} (h : c.Tidy names) (hk : k ∈ c.children) :
    k.Tidy names :=
  h.of_mem_walk (walk_subset_of_mem_children hk (mem_walk_self k))

theorem Tidy.link {names : List String} {c l : Call} (h : c.Tidy names) (hl : l ∈ c.chain) :
    l.Tidy names :=
  h.of_mem_walk (walk_subset_of_mem_chain hl (mem_walk_self l))

/-- What follows from the keys of single items follows from those of lists. -/
theorem map_eq_of_map_eq {α β γ : Type} {key : α → β} {f : α → γ} {xs ys : List α}
    (h : ∀ x ∈ xs, ∀ y ∈ ys, key x = key y → f x = f y) (hk : xs.map key = ys.map key) :
    xs.map f = ys.map f := by
  have hlen : xs.length = ys.length := by simpa using congrArg List.length hk
  refine List.ext_getElem (by simpa using hlen) fun i hi hj => ?_
  simp only [List.length_map] at hi hj
  rw [List.getElem_map, List.getElem_map]
  refine h _ (List.getElem_mem hi) _ (List.getElem_mem hj) ?_
  have := List.getElem_of_eq hk (by simpa using hi)
  simpa only [List.getElem_map] using this

/-- Calls with the same key mean the same, whatever the references in them stand for. -/
theorem keyIn_eq_of_key_eq {names : List String} {ρ : String → CallKey} (c : Call) {d : Call}
    (hc : c.Tidy names) (hd : d.Tidy names) (h : c.key = d.key) : c.keyIn ρ = d.keyIn ρ := by
  induction c using Call.induction generalizing d with
  | step c hchildren hchain =>
    have hkey := h
    rw [key_eq, key_eq d, CallKey.mk.injEq] at hkey
    obtain ⟨hm, hcom, hemp, hargs, hks, hls⟩ := hkey
    have href : c.isReference = d.isReference := by
      have hc' := hc.named c (mem_walk_self c)
      have hd' := hd.named d (mem_walk_self d)
      rw [Bool.eq_iff_iff, hc', hd', hm]
    cases hr : c.isReference with
    | true =>
      rw [keyIn_of_isReference hr, keyIn_of_isReference (href ▸ hr), hm]
    | false =>
      rw [keyIn_eq hr, keyIn_eq (href ▸ hr), hm, hcom, hemp, hargs,
        map_eq_of_map_eq (fun k hk k' hk' => hchildren k hk (hc.child hk) (hd.child hk')) hks,
        map_eq_of_map_eq (fun l hl l' hl' => hchain l hl (hc.link hl) (hd.link hl')) hls]

/-! ### Sizes -/

/-- What a reference in a call stands for is smaller than what the call means. -/
theorem sizeOf_keyIn_reference {names : List String} {ρ : String → CallKey} (c : Call)
    (hc : c.Tidy names) (hr : c.isReference = false) {d : Call} (hd : d ∈ c.walk)
    (hdr : d.isReference = true) : sizeOf (ρ d.head.method) < sizeOf (c.keyIn ρ) := by
  induction c using Call.induction with
  | step c hchildren hchain =>
    have hsub (k : Call) (hk : k.Tidy names) (hdk : d ∈ k.walk)
        (ih : k.isReference = false → sizeOf (ρ d.head.method) < sizeOf (k.keyIn ρ)) :
        sizeOf (ρ d.head.method) ≤ sizeOf (k.keyIn ρ) := by
      cases hkr : k.isReference with
      | false => exact Nat.le_of_lt (ih hkr)
      | true =>
        obtain ⟨hnil, hnil'⟩ := hk.leaf k (mem_walk_self k) hkr
        rcases mem_walk_iff.mp hdk with rfl | ⟨e, he, -⟩ | ⟨e, he, -⟩
        · exact Nat.le_of_eq (by rw [keyIn_of_isReference hkr])
        · exact absurd he (by simp [hnil])
        · exact absurd he (by simp [hnil'])
    rw [keyIn_eq hr, CallKey.mk.sizeOf_spec]
    rcases mem_walk_iff.mp hd with rfl | ⟨k, hk, hdk⟩ | ⟨l, hl, hdl⟩
    · rw [hr] at hdr
      cases hdr
    · have hle := hsub k (hc.child hk) hdk fun h => hchildren k hk (hc.child hk) h hdk
      have hm := List.sizeOf_lt_of_mem (List.mem_map_of_mem hk (f := keyIn ρ))
      omega
    · have hle := hsub l (hc.link hl) hdl fun h => hchain l hl (hc.link hl) h hdl
      have hm := List.sizeOf_lt_of_mem (List.mem_map_of_mem hl (f := keyIn ρ))
      omega

end Call

end FluentPlan
