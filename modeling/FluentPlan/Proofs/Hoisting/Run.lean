import Mathlib.Data.List.Basic
import Mathlib.Logic.Function.Basic
import Mathlib.Tactic.Common
import FluentPlan.Proofs.Hoisting.Group
import FluentPlan.Proofs.Hoisting.Name
import FluentPlan.Proofs.Hoisting.Replace

/-!
The loop that hoists. Each helper method that it makes leaves the meaning of the call as it was, and
fewer places than there were; so it ends where nothing repeats.
-/

namespace FluentPlan

open Call

namespace Call

theorem Tidy.append {names : List String} {c : Call} (h : c.Tidy names) {name : String}
    (hn : ∀ d ∈ c.walk, d.head.method ≠ name) : c.Tidy (names ++ [name]) where
  named := by
    intro d hd
    rw [h.named d hd, List.mem_append, List.mem_singleton, or_iff_left (hn d hd)]
  leaf := h.leaf

theorem Tidy.replace {names : List String} {c : Call} (h : c.Tidy names) {name : String}
    (hn : name ∈ names) (key : CallKey) (body : Call) :
    (Call.replace key (reference name body) c).Tidy names where
  named := by
    intro d hd
    rcases mem_walk_replace (walk_reference name body) c hd with rfl | ⟨e, he, rfl⟩
    · simpa [isReference, reference] using hn
    · rw [isReference_replace, head_replace]
      exact h.named e he
  leaf := by
    intro d hd hr
    rcases mem_walk_replace (walk_reference name body) c hd with rfl | ⟨e, he, rfl⟩
    · exact ⟨rfl, rfl⟩
    · obtain ⟨hk, hl⟩ := h.leaf e he (by rwa [isReference_replace] at hr)
      rw [children_replace, chain_replace, hk, hl]
      exact ⟨rfl, rfl⟩

end Call

namespace Helper.Hoisting

def names (s : Hoisting) : List String := s.helpers.map (·.name)

/-- The names of helper methods differ, and they are among the names that no other may take, as all
methods are that are called. -/
structure Fresh (s : Hoisting) : Prop where
  nodup : s.names.Nodup
  names_taken : ∀ name ∈ s.names, name ∈ s.taken
  methods_taken : ∀ c ∈ s.roots, ∀ d ∈ c.walk, d.head.method ∈ s.taken

/-- What holds of every state of the loop. Names stand for what the bodies of their helper methods
mean, and the root means what it meant at first. -/
structure Sound (original : CallKey) (ρ : String → CallKey) (s : Hoisting) : Prop
    extends Fresh s where
  tidy : ∀ c ∈ s.roots, c.Tidy s.names
  root : s.root.keyIn ρ = original
  body : ∀ h ∈ s.helpers, h.body.isReference = false ∧ h.body.keyIn ρ = ρ h.name

theorem fresh_start (root : Call) : Fresh (start root) where
  nodup := List.nodup_nil
  names_taken := fun _ hn => absurd hn List.not_mem_nil
  methods_taken := by
    intro c hc d hd
    obtain rfl := List.mem_singleton.mp hc
    exact List.mem_map_of_mem hd

theorem sound_start (ρ : String → CallKey) {root : Call}
    (h : ∀ d ∈ root.walk, d.isReference = false) : Sound root.key ρ (start root) where
  toFresh := fresh_start root
  tidy := by
    intro c hc
    obtain rfl := List.mem_singleton.mp hc
    exact ⟨fun d hd => by simp [h d hd, names, start], fun d hd hr => by simp [h d hd] at hr⟩
  root := keyIn_of_plain root h
  body := fun _ hh => absurd hh List.not_mem_nil

theorem roots_extract (s : Hoisting) (g : Group) :
    (s.extract g).roots =
      s.roots.map (Call.replace g.key (reference (s.nameFor g.call) g.call)) ++ [g.call] := by
  simp [roots, extract, Function.comp_def]

theorem names_extract (s : Hoisting) (g : Group) :
    (s.extract g).names = s.names ++ [s.nameFor g.call] := by
  simp [names, extract, Function.comp_def]

theorem ne_nameFor {s : Hoisting} {name : String} (hn : name ∈ s.taken) (c : Call) : name ≠ s.nameFor c := by
  rintro rfl
  exact Java.uniqueName_not_mem _ _ hn

theorem mem_taken_extract {s : Hoisting} {name : String} (h : name ∈ s.taken) (g : Group) :
    name ∈ (s.extract g).taken :=
  List.mem_append_left _ h

theorem Fresh.extract {s : Hoisting} (h : Fresh s) {g : Group} {c : Call} (hc : c ∈ s.roots)
    (hg : g.call ∈ c.walk) : Fresh (s.extract g) where
  nodup := by
    rw [names_extract]
    refine List.nodup_append.mpr ⟨h.nodup, List.nodup_singleton _, fun n hn m hm => ?_⟩
    rw [List.mem_singleton.mp hm]
    exact ne_nameFor (h.names_taken n hn) g.call
  names_taken := by
    intro n hn
    rw [names_extract] at hn
    rcases List.mem_append.mp hn with hn | hn
    · exact mem_taken_extract (h.names_taken n hn) g
    · exact List.mem_append_right _ hn
  methods_taken := by
    intro b hb d hd
    rw [roots_extract] at hb
    rcases List.mem_append.mp hb with hb | hb
    · obtain ⟨a, ha, rfl⟩ := List.mem_map.mp hb
      rcases mem_walk_replace (walk_reference _ _) a hd with rfl | ⟨e, he, rfl⟩
      · exact List.mem_append_right _ List.mem_cons_self
      · rw [head_replace]
        exact mem_taken_extract (h.methods_taken a ha e he) g
    · rw [List.mem_singleton.mp hb] at hd
      exact mem_taken_extract (h.methods_taken c hc d (walk_subset_of_mem_walk hg hd)) g

/-- What names stand for once a helper method has been made of a group. -/
def meaning (s : Hoisting) (g : Group) (ρ : String → CallKey) : String → CallKey :=
  Function.update ρ (s.nameFor g.call) (g.call.keyIn ρ)

theorem meaning_nameFor (s : Hoisting) (g : Group) (ρ : String → CallKey) :
    s.meaning g ρ (s.nameFor g.call) = g.call.keyIn ρ := Function.update_self _ _ _

section

variable {original : CallKey} {ρ : String → CallKey} {s : Hoisting} (h : Sound original ρ s)

include h

/-- What is there already means what it meant. -/
theorem keyIn_meaning {b : Call} (hb : b ∈ s.roots) {d : Call} (hd : d ∈ b.walk) (g : Group) :
    d.keyIn (s.meaning g ρ) = d.keyIn ρ := by
  refine keyIn_congr d fun e he _ => Function.update_of_ne ?_ _ _
  exact ne_nameFor (h.methods_taken b hb e (walk_subset_of_mem_walk hd he)) g.call

variable {g : Group} {c : Call} (hc : c ∈ s.roots) (hg : g.call ∈ c.walk)

include hc hg

/-- A reference in place of the calls of the group means what they meant. -/
theorem keyIn_replace_reference (hkey : g.call.key = g.key) {b : Call} (hb : b ∈ s.roots) :
    (Call.replace g.key (reference (s.nameFor g.call) g.call) b).keyIn (s.meaning g ρ) =
      b.keyIn ρ := by
  rw [keyIn_replace, keyIn_meaning h hb (mem_walk_self b)]
  intro d hd hdk
  have heq : g.call.keyIn ρ = d.keyIn ρ := keyIn_eq_of_key_eq g.call
    ((h.tidy c hc).of_mem_walk hg) ((h.tidy b hb).of_mem_walk hd) (hkey.trans hdk.symm)
  rw [keyIn_meaning h hb hd, keyIn_of_isReference rfl, ← heq]
  exact s.meaning_nameFor g ρ

theorem tidy_extract {b : Call} (hb : b ∈ (s.extract g).roots) : b.Tidy (s.extract g).names := by
  have happend {a : Call} (ha : a ∈ s.roots) : a.Tidy (s.names ++ [s.nameFor g.call]) :=
    (h.tidy a ha).append fun d hd => ne_nameFor (h.methods_taken a ha d hd) g.call
  rw [roots_extract] at hb
  rw [names_extract]
  rcases List.mem_append.mp hb with hb | hb
  · obtain ⟨a, ha, rfl⟩ := List.mem_map.mp hb
    exact (happend ha).replace (List.mem_append_right _ List.mem_cons_self) g.key g.call
  · rw [List.mem_singleton.mp hb]
    exact (happend hc).of_mem_walk hg

theorem sound_extract (hkey : g.call.key = g.key) (hr : g.call.isReference = false) :
    Sound original (s.meaning g ρ) (s.extract g) where
  toFresh := h.toFresh.extract hc hg
  tidy := fun _ hb => tidy_extract h hc hg hb
  root := (keyIn_replace_reference h hc hg hkey List.mem_cons_self).trans h.root
  body := by
    intro b hb
    rcases List.mem_append.mp hb with hb | hb
    · obtain ⟨a, ha, rfl⟩ := List.mem_map.mp hb
      obtain ⟨hplain, hbody⟩ := h.body a ha
      have hroot : a.body ∈ s.roots := List.mem_cons_of_mem _ (List.mem_map_of_mem ha)
      have hne := ne_nameFor (h.names_taken a.name (List.mem_map_of_mem ha)) g.call
      refine ⟨by rwa [isReference_replace], ?_⟩
      rw [keyIn_replace_reference h hc hg hkey hroot, hbody]
      exact (Function.update_of_ne hne _ _).symm
    · rw [List.mem_singleton.mp hb]
      exact ⟨hr, (keyIn_meaning h hc hg g).trans (s.meaning_nameFor g ρ).symm⟩

end

/-- Making a helper method leaves fewer places than there were. -/
theorem length_candidates_extract {s : Hoisting} {g : Group} (hkey : g.call.key = g.key) {c : Call}
    (hc : c ∈ s.roots) (hg : g.call ∈ c.candidates) :
    ((s.extract g).roots.flatMap candidates).length < (s.roots.flatMap candidates).length := by
  have hzero : places (reference (s.nameFor g.call) g.call) = 0 := places_reference _ _
  have hle := sum_map_add_le (fun b _ => length_candidates_replace_le hzero b) hc
    (length_candidates_replace_add hzero c hg hkey)
  have hplaces := places_of_isCandidate (mem_walk_of_mem_candidates hg).2
  rw [roots_extract, List.length_flatMap, List.length_flatMap, List.map_append, List.sum_append,
    List.map_map, List.map_singleton, List.sum_singleton]
  simp only [Function.comp_def]
  omega

theorem outcome_run_succ (fuel : Nat) (s : Hoisting) :
    (run (fuel + 1) s).outcome =
      match pick (groups s.roots) with
      | none => .ok s
      | some g => (run fuel (s.extract g)).outcome := by
  rw [run]
  cases pick (groups s.roots) with
  | none => rfl
  | some g => rw [Logged.outcome_bind]; rfl

/-- The loop always comes to an end. -/
theorem exists_outcome_run (fuel : Nat) (s : Hoisting) : ∃ t, (run fuel s).outcome = .ok t := by
  induction fuel generalizing s with
  | zero => exact ⟨s, rfl⟩
  | succ fuel ih =>
    rw [outcome_run_succ]
    split
    · exact ⟨s, rfl⟩
    · exact ih _

/-- What a helper method made of the group that is picked keeps holds where the loop ends. -/
theorem run_induction_of_pick {P : Hoisting → Prop}
    (step : ∀ s g, P s → pick (groups s.roots) = some g → P (s.extract g)) {fuel : Nat}
    {s t : Hoisting} (hs : P s) (h : (run fuel s).outcome = .ok t) : P t := by
  induction fuel generalizing s with
  | zero =>
    cases h
    exact hs
  | succ fuel ih =>
    rw [outcome_run_succ] at h
    cases hp : pick (groups s.roots) with
    | none =>
      rw [hp] at h
      cases h
      exact hs
    | some g =>
      rw [hp] at h
      exact ih (step s g hs hp) h

/-- What a helper method made of one of the places keeps holds where the loop ends. -/
theorem run_induction {P : Hoisting → Prop}
    (step : ∀ s g, P s → g.call.key = g.key → ∀ c ∈ s.roots, g.call ∈ c.candidates →
      P (s.extract g)) {fuel : Nat} {s t : Hoisting} (hs : P s) (h : (run fuel s).outcome = .ok t) :
    P t := by
  refine run_induction_of_pick (fun s g hs hp => ?_) hs h
  obtain ⟨hkey, c, hc, hg⟩ := mem_candidates_of_pick hp
  exact step s g hs hkey c hc hg

/-- As many steps as there are places are enough for the loop to end. -/
theorem run_sound {original : CallKey} {fuel : Nat} {ρ : String → CallKey} {s : Hoisting}
    (h : Sound original ρ s) (hf : (s.roots.flatMap candidates).length ≤ fuel) :
    ∃ t ρ', (run fuel s).outcome = .ok t ∧ Sound original ρ' t ∧ pick (groups t.roots) = none := by
  induction fuel generalizing s ρ with
  | zero =>
    have hnil : s.roots.flatMap candidates = [] := List.length_eq_zero_iff.mp (by omega)
    refine ⟨s, ρ, rfl, h, ?_⟩
    rw [groups, hnil]
    rfl
  | succ fuel ih =>
    rw [outcome_run_succ]
    cases hp : pick (groups s.roots) with
    | none => exact ⟨s, ρ, rfl, h, hp⟩
    | some g =>
      obtain ⟨hkey, c, hc, hg⟩ := mem_candidates_of_pick hp
      have hlt := length_candidates_extract hkey hc hg
      obtain ⟨hwalk, hcand⟩ := mem_walk_of_mem_candidates hg
      simp only [isCandidate, Bool.and_eq_true, Bool.not_eq_true'] at hcand
      exact ih (sound_extract h hc hwalk hkey hcand.1.1) (by omega)

end Helper.Hoisting

open Helper in
/-- What hoisting gives is where the loop ends. -/
theorem Call.exists_run_of_hoist {root root' : Call} {helpers : List Helper}
    (h : root.hoist.outcome = .ok (root', helpers)) :
    ∃ t, (Hoisting.run root.candidates.length (.start root)).outcome = .ok t ∧ t.root = root' ∧
      t.helpers = helpers := by
  obtain ⟨t, ht⟩ := Hoisting.exists_outcome_run root.candidates.length (.start root)
  rw [hoist, Logged.outcome_bind, ht] at h
  cases h
  exact ⟨t, ht, rfl, rfl⟩

end FluentPlan
