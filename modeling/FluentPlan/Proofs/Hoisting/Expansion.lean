import Mathlib.Data.List.Basic
import Mathlib.Logic.Relation
import Mathlib.Order.Basic
import Mathlib.Order.WellFounded
import Mathlib.Tactic.Common
import FluentPlan.Proofs.Hoisting.Run

/-!
Putting the bodies of helper methods in place of the references to them. No helper method refers to
itself through others, so this ends, and it gives a call that means what the references did.
-/

namespace FluentPlan

namespace Call

mutual

/-- Puts what `f` has for its name in place of each reference. -/
def substitute (f : String → Option Call) : Call → Call
  | ⟨head, children, chain⟩ =>
    if head.role = .reference then (f head.method).getD ⟨head, children, chain⟩
    else ⟨head, substituteAll f children, substituteAll f chain⟩

def substituteAll (f : String → Option Call) : List Call → List Call
  | [] => []
  | c :: cs => substitute f c :: substituteAll f cs

end

/-- Whether there is no reference in a call. -/
def Plain (c : Call) : Prop := ∀ d ∈ c.walk, d.isReference = false

theorem substituteAll_eq_map (f : String → Option Call) (cs : List Call) :
    substituteAll f cs = cs.map (substitute f) := by
  induction cs with
  | nil => simp [substituteAll]
  | cons c cs ih => simp [substituteAll, ih]

theorem substitute_of_isReference {f : String → Option Call} {c : Call}
    (h : c.isReference = true) : substitute f c = (f c.head.method).getD c := by
  cases c
  simp_all [substitute, isReference]

theorem substitute_eq {f : String → Option Call} {c : Call} (h : c.isReference = false) :
    substitute f c = ⟨c.head, c.children.map (substitute f), c.chain.map (substitute f)⟩ := by
  cases c
  simp_all [substitute, substituteAll_eq_map, isReference]

theorem plain_mk {c : Call} (h : c.isReference = false) (hk : ∀ k ∈ c.children, k.Plain)
    (hl : ∀ l ∈ c.chain, l.Plain) : c.Plain := by
  intro d hd
  rcases mem_walk_iff.mp hd with rfl | ⟨k, hm, hd⟩ | ⟨l, hm, hd⟩
  · exact h
  · exact hk k hm d hd
  · exact hl l hm d hd

/-- With a call for each reference that means what it does, no reference is left and the call means
what it did. -/
theorem substitute_spec {f : String → Option Call} {ρ : String → CallKey} (c : Call)
    (h : ∀ d ∈ c.walk, d.isReference = true →
      ∃ e, f d.head.method = some e ∧ e.Plain ∧ e.key = ρ d.head.method) :
    (substitute f c).Plain ∧ (substitute f c).key = c.keyIn ρ := by
  induction c using Call.induction with
  | step c hchildren hchain =>
    cases hr : c.isReference with
    | true =>
      obtain ⟨e, he, hplain, hkey⟩ := h c (mem_walk_self c) hr
      rw [substitute_of_isReference hr, he, keyIn_of_isReference hr]
      exact ⟨hplain, hkey⟩
    | false =>
      have hk := fun k hk => hchildren k hk fun d hd => h d (walk_subset_of_mem_children hk hd)
      have hl := fun l hl => hchain l hl fun d hd => h d (walk_subset_of_mem_chain hl hd)
      rw [substitute_eq hr]
      constructor
      · refine plain_mk hr (fun k' hk' => ?_) fun l' hl' => ?_
        · obtain ⟨k, hm, rfl⟩ := List.mem_map.mp hk'
          exact (hk k hm).1
        · obtain ⟨l, hm, rfl⟩ := List.mem_map.mp hl'
          exact (hl l hm).1
      · have hkeys : (c.children.map (substitute f)).map key = c.children.map (keyIn ρ) := by
          rw [List.map_map]
          exact List.map_congr_left fun k hm => (hk k hm).2
        have hlinks : (c.chain.map (substitute f)).map key = c.chain.map (keyIn ρ) := by
          rw [List.map_map]
          exact List.map_congr_left fun l hm => (hl l hm).2
        rw [key_eq, keyIn_eq hr, hkeys, hlinks]
        rfl

theorem substitute_congr {f g : String → Option Call} (c : Call)
    (h : ∀ d ∈ c.walk, d.isReference = true → f d.head.method = g d.head.method) :
    substitute f c = substitute g c := by
  induction c using Call.induction with
  | step c hchildren hchain =>
    cases hr : c.isReference with
    | true =>
      rw [substitute_of_isReference hr, substitute_of_isReference hr, h c (mem_walk_self c) hr]
    | false =>
      have hk : c.children.map (substitute f) = c.children.map (substitute g) :=
        List.map_congr_left fun k hk =>
          hchildren k hk fun d hd => h d (walk_subset_of_mem_children hk hd)
      have hl : c.chain.map (substitute f) = c.chain.map (substitute g) :=
        List.map_congr_left fun l hl =>
          hchain l hl fun d hd => h d (walk_subset_of_mem_chain hl hd)
      rw [substitute_eq hr, substitute_eq hr, hk, hl]

theorem substitute_none (c : Call) : substitute (fun _ => none) c = c := by
  induction c using Call.induction with
  | step c hchildren hchain =>
    cases hr : c.isReference with
    | true => rw [substitute_of_isReference hr, Option.getD_none]
    | false =>
      have hk : c.children.map (substitute fun _ => none) = c.children :=
        (List.map_congr_left hchildren).trans (List.map_id _)
      have hl : c.chain.map (substitute fun _ => none) = c.chain :=
        (List.map_congr_left hchain).trans (List.map_id _)
      rw [substitute_eq hr, hk, hl]
      cases c
      rfl

end Call

open Call

namespace Helper

/-- The body of the helper method with a name. -/
def bodyOf? (helpers : List Helper) (name : String) : Option Call :=
  (helpers.find? fun h => h.name = name).map (·.body)

/-- A call with bodies of helper methods in place of references, and so on in the bodies, up to a
depth. -/
def expand (helpers : List Helper) : (depth : Nat) → Call → Call
  | 0, c => c
  | depth + 1, c => c.substitute fun name => (bodyOf? helpers name).map (expand helpers depth)

/-- Whether the helper method `a` calls the helper method `b`. -/
def Refers (helpers : List Helper) (a b : String) : Prop :=
  ∃ h ∈ helpers, h.name = a ∧ ∃ d ∈ h.body.walk, d.isReference = true ∧ d.head.method = b

theorem bodyOf?_of_mem {helpers : List Helper} {name : String}
    (hm : name ∈ helpers.map (·.name)) :
    ∃ h ∈ helpers, h.name = name ∧ bodyOf? helpers name = some h.body := by
  obtain ⟨h, hh, rfl⟩ := List.mem_map.mp hm
  cases hf : helpers.find? fun g => g.name = h.name with
  | none => exact absurd (List.find?_eq_none.mp hf h hh) (by simp)
  | some g =>
    refine ⟨g, List.mem_of_find?_eq_some hf, ?_, by rw [bodyOf?, hf]; rfl⟩
    simpa using List.find?_some hf

theorem countP_lt_countP {α : Type} {p q : α → Bool} {xs : List α} (h : ∀ x, p x → q x) {x : α}
    (hx : x ∈ xs) (hp : p x = false) (hq : q x = true) : xs.countP p < xs.countP q := by
  induction xs with
  | nil => cases hx
  | cons y xs ih =>
    have hle : xs.countP p ≤ xs.countP q := List.countP_mono_left fun z _ => h z
    rw [List.countP_cons, List.countP_cons]
    rcases List.mem_cons.mp hx with rfl | hx
    · rw [hp, hq]
      simp only [Bool.false_eq_true, if_false, if_true]
      omega
    · have := ih hx
      split_ifs with hpy hqy
      · omega
      · exact absurd (h y hpy) hqy
      · omega
      · omega

namespace Hoisting

/-- How many helper methods mean nothing larger than a name does. -/
noncomputable def rank (s : Hoisting) (ρ : String → CallKey) (name : String) : Nat :=
  s.names.countP fun n => sizeOf (ρ n) ≤ sizeOf (ρ name)

theorem rank_le (s : Hoisting) (ρ : String → CallKey) (name : String) :
    s.rank ρ name ≤ s.helpers.length := by
  have hlen : s.names.length = s.helpers.length := List.length_map _
  rw [← hlen]
  exact List.countP_le_length

section

variable {original : CallKey} {ρ : String → CallKey} {s : Hoisting} (h : Sound original ρ s)

include h

/-- A helper method means more than each that it calls. -/
theorem sizeOf_lt_of_refers {a b : String} (hr : Refers s.helpers a b) :
    sizeOf (ρ b) < sizeOf (ρ a) := by
  obtain ⟨f, hf, rfl, d, hd, hdr, rfl⟩ := hr
  obtain ⟨hplain, hbody⟩ := h.body f hf
  have hroot : f.body ∈ s.roots := List.mem_cons_of_mem _ (List.mem_map_of_mem hf)
  rw [← hbody]
  exact sizeOf_keyIn_reference f.body (h.tidy _ hroot) hplain hd hdr

theorem wellFounded_refers : WellFounded fun b a => Refers s.helpers a b :=
  Subrelation.wf (fun hr => sizeOf_lt_of_refers h hr)
    (InvImage.wf (fun name => sizeOf (ρ name)) wellFounded_lt)

theorem not_reaches_self (a : String) : ¬ Relation.TransGen (Refers s.helpers) a a := by
  have hlt {a b : String} (hr : Relation.TransGen (Refers s.helpers) a b) :
      sizeOf (ρ b) < sizeOf (ρ a) := by
    induction hr with
    | single hr => exact sizeOf_lt_of_refers h hr
    | tail _ hr ih => exact Nat.lt_trans (sizeOf_lt_of_refers h hr) ih
  exact fun hr => Nat.lt_irrefl _ (hlt hr)

theorem mem_names_of_isReference {c : Call} (hc : c ∈ s.roots) {d : Call} (hd : d ∈ c.walk)
    (hr : d.isReference = true) : d.head.method ∈ s.names :=
  ((h.tidy c hc).named d hd).mp hr

/-- Each reference names one helper method. -/
theorem existsUnique_helper {c : Call} (hc : c ∈ s.roots) {d : Call} (hd : d ∈ c.walk)
    (hr : d.isReference = true) : ∃! f, f ∈ s.helpers ∧ f.name = d.head.method := by
  obtain ⟨f, hf, hname⟩ := List.mem_map.mp (mem_names_of_isReference h hc hd hr)
  refine ⟨f, ⟨hf, hname⟩, ?_⟩
  rintro g ⟨hg, hname'⟩
  exact List.inj_on_of_nodup_map h.nodup hg hf (hname'.trans hname.symm)

/-- A reference in a body is of a lower rank than those to the helper method. -/
theorem rank_lt {name : String} (hn : name ∈ s.names) {b : String} (hr : Refers s.helpers name b) :
    s.rank ρ b < s.rank ρ name := by
  have hlt := sizeOf_lt_of_refers h hr
  refine countP_lt_countP (fun n hle => ?_) hn (by simpa using hlt) (by simp)
  simp only [decide_eq_true_eq] at hle ⊢
  omega

theorem plain_of_rank {c : Call} (hc : c ∈ s.roots)
    (hd : ∀ d ∈ c.walk, d.isReference = true → s.rank ρ d.head.method ≤ 0) : c.Plain := by
  intro d hm
  by_contra hr
  have hr : d.isReference = true := by simpa using hr
  have hpos : 0 < s.rank ρ d.head.method :=
    List.countP_pos_iff.mpr ⟨_, mem_names_of_isReference h hc hm hr, by simp⟩
  have := hd d hm hr
  omega

/-- What a reference stands for, and the lower ranks of the references in it. -/
theorem exists_body {c : Call} (hc : c ∈ s.roots) {d : Call} (hd : d ∈ c.walk)
    (hr : d.isReference = true) {depth : Nat} (hdepth : s.rank ρ d.head.method ≤ depth + 1) :
    ∃ b ∈ s.roots, bodyOf? s.helpers d.head.method = some b ∧ b.keyIn ρ = ρ d.head.method ∧
      ∀ e ∈ b.walk, e.isReference = true → s.rank ρ e.head.method ≤ depth := by
  have hname := mem_names_of_isReference h hc hd hr
  obtain ⟨f, hf, hfn, hbody⟩ := bodyOf?_of_mem hname
  refine ⟨f.body, List.mem_cons_of_mem _ (List.mem_map_of_mem hf), hbody, ?_, fun e he her => ?_⟩
  · rw [(h.body f hf).2, hfn]
  · have := rank_lt h hname ⟨f, hf, hfn, e, he, her, rfl⟩
    omega

/-- Expansion as deep as the helper methods in a call are nested leaves no reference. -/
theorem expand_spec {depth : Nat} {c : Call} (hc : c ∈ s.roots)
    (hd : ∀ d ∈ c.walk, d.isReference = true → s.rank ρ d.head.method ≤ depth) :
    (expand s.helpers depth c).Plain ∧ (expand s.helpers depth c).key = c.keyIn ρ := by
  induction depth generalizing c with
  | zero =>
    have hplain := plain_of_rank h hc hd
    exact ⟨hplain, (keyIn_of_plain c hplain).symm⟩
  | succ depth ih =>
    refine substitute_spec c fun d hm hr => ?_
    obtain ⟨b, hb, hbody, hkey, hlower⟩ := exists_body h hc hm hr (hd d hm hr)
    obtain ⟨hplain, hexpanded⟩ := ih hb hlower
    exact ⟨_, by rw [hbody]; rfl, hplain, hexpanded.trans hkey⟩

/-- Expansion to a greater depth changes nothing. -/
theorem expand_succ {depth : Nat} {c : Call} (hc : c ∈ s.roots)
    (hd : ∀ d ∈ c.walk, d.isReference = true → s.rank ρ d.head.method ≤ depth) :
    expand s.helpers (depth + 1) c = expand s.helpers depth c := by
  induction depth generalizing c with
  | zero =>
    have hplain := plain_of_rank h hc hd
    refine (substitute_congr c fun d hm hr => ?_).trans (substitute_none c)
    rw [hplain d hm] at hr
    cases hr
  | succ depth ih =>
    refine substitute_congr c fun d hm hr => ?_
    obtain ⟨b, hb, hbody, -, hlower⟩ := exists_body h hc hm hr (hd d hm hr)
    rw [hbody, Option.map_some, Option.map_some, ih hb hlower]

theorem expand_eq {c : Call} (hc : c ∈ s.roots) {depth : Nat} (hd : s.helpers.length ≤ depth) :
    expand s.helpers depth c = expand s.helpers s.helpers.length c := by
  induction depth, hd using Nat.le_induction with
  | base => rfl
  | succ depth hle ih =>
    rw [expand_succ h hc fun d _ _ => Nat.le_trans (rank_le s ρ d.head.method) hle, ih]

end

end Hoisting

end Helper

end FluentPlan
