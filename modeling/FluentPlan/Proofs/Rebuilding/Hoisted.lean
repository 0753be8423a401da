import FluentPlan.Proofs.Hoisting.Minimal
import FluentPlan.Proofs.Rebuilding.Composed
import FluentPlan.Proofs.Requirement.Hoisting

/-!
Hoisting and calls that are taken. A method tells the parameters of its values, so calls with one key
are taken alike; and so all calls of a plan are taken exactly if all are that remain of it and in the
bodies of its helper methods.
-/

namespace FluentPlan

open Call Catalog Catalog.Plan

/-! ### Parameters by methods -/

/-- The parameters that calls of builders and modifiers say values of, with the methods of the calls. -/
def Registry.places (r : Registry) : List (String × Param) :=
  r.signatures.flatMap fun s => s.scalarParams.map (fun p => (s.method, p)) ++
    s.modifiers.flatMap fun m => m.params.map fun p => (m.method, p)

/-- What a key keeps of a parameter tells it from the others of its method. -/
theorem Registry.eq_of_mem_places : ∀ x ∈ standard.places, ∀ y ∈ standard.places, x.1 = y.1 →
    x.2.prop = y.2.prop → x.2.kind.name = y.2.kind.name → x.2 = y.2 := by
  decide +kernel

/-- Whether all values that a call says are of parameters of its method. -/
def CallHead.IsKnown (h : CallHead) : Prop :=
  ∀ p v, Arg.scalar p v ∈ h.args → (h.method, p) ∈ Registry.standard.places

theorem Element.isKnown_assemble {o : Options} {path : String} {e : Element} {c : Call}
    (h : (e.assemble .standard o path).outcome = .ok c) : ∀ d ∈ c.walk, d.head.IsKnown := by
  refine forall_head_assemble { empty := ?_, place := ?_, own := ?_, link := ?_ } e h
  · intro category p v hp
    cases hp
  · intro children p v hp
    cases List.mem_singleton.mp hp
  · intro s hs e vs hv p v hp
    have hmem := (mem_of_valuesOf hv ((mem_placeArgs_iff hv).mp hp)).1
    exact List.mem_flatMap.mpr ⟨s, hs, List.mem_append_left _ (List.mem_map_of_mem hmem)⟩
  · intro s hs m hm e cs hcs c hc p v hp
    rw [method_of_modifierCalls hcs hc]
    have hmem := List.mem_map_of_mem (f := fun p => (m.method, p)) (mem_params_of_modifierCalls hcs hc hp)
    exact List.mem_flatMap.mpr ⟨s, hs, List.mem_append_right _ (List.mem_flatMap.mpr ⟨m, hm, hmem⟩)⟩

namespace Call

/-! ### Values by keys -/

/-- Calls with one key say values of the same parameters, and these have the same keys. -/
theorem exists_scalar_of_key_eq {c d : Call} (hc : c.head.IsKnown) (hd : d.head.IsKnown)
    (h : c.key = d.key) {p : Param} {v : Option Value} (hp : .scalar p v ∈ d.head.args) :
    ∃ w, .scalar p w ∈ c.head.args ∧ w.map Value.key = v.map Value.key := by
  obtain ⟨hmethod, -, hargs⟩ := sameKey_of_key_eq h
  have hkey : (Arg.scalar p v).key ∈ c.head.args.map Arg.key := hargs ▸ List.mem_map_of_mem hp
  obtain ⟨a, hmem, heq⟩ := List.mem_map.mp hkey
  cases a with
  | children => cases heq
  | scalar q w =>
    simp only [Arg.key, ArgKey.scalar.injEq] at heq
    obtain rfl : q = p := Registry.eq_of_mem_places (c.head.method, q) (hc q w hmem)
      (d.head.method, p) (hd p v hp) hmethod heq.2.1 heq.1
    exact ⟨w, hmem, heq.2.2.2⟩

/-- A duration has a key of its own. -/
theorem eq_duration_of_key_eq {v w : Option Value} (h : v.map Value.key = w.map Value.key) {t : Int}
    (hw : w = some (.duration t)) : v = some (.duration t) := by
  subst hw
  obtain ⟨x, rfl, hx⟩ := Option.map_eq_some_iff.mp h
  rcases Value.number?_eq_of_key_eq hx with rfl | ⟨hsome, hnumber⟩
  · rfl
  · rw [hnumber] at hsome
    cases hsome

theorem runTime_eq_of_key_eq {r r' x x' : Option Value} (hr : r.map Value.key = r'.map Value.key)
    (hx : x.map Value.key = x'.map Value.key) : runTime r x = runTime r' x' := by
  have hramp (t : Int) : r = some (.duration t) ↔ r' = some (.duration t) :=
    ⟨eq_duration_of_key_eq hr.symm, eq_duration_of_key_eq hr⟩
  have hhold (t : Int) : x = some (.duration t) ↔ x' = some (.duration t) :=
    ⟨eq_duration_of_key_eq hx.symm, eq_duration_of_key_eq hx⟩
  unfold runTime
  split <;> split <;> simp_all

/-! ### Calls by keys -/

/-- Whether all values in a call are of parameters of the methods that say them. -/
def IsKnown (c : Call) : Prop := ∀ d ∈ c.walk, d.head.IsKnown

theorem exists_mem_of_map_key_eq {cs ds : List Call} (h : cs.map key = ds.map key) {d : Call}
    (hd : d ∈ ds) : ∃ c ∈ cs, c.key = d.key := by
  have hmem : d.key ∈ cs.map key := h ▸ List.mem_map_of_mem hd
  obtain ⟨c, hc, hkey⟩ := List.mem_map.mp hmem
  exact ⟨c, hc, hkey⟩

/-- Calls with one key are made of calls with the same keys. -/
theorem exists_mem_walk_of_key_eq (c : Call) {d : Call} (h : d.key = c.key) :
    ∀ e ∈ c.walk, ∃ f ∈ d.walk, f.key = e.key := by
  induction c using Call.induction generalizing d with
  | step c hchildren hchain =>
    have hparts := h
    rw [key_eq, key_eq, CallKey.mk.injEq] at hparts
    obtain ⟨-, -, -, -, hkids, hlinks⟩ := hparts
    intro e he
    rcases mem_walk_iff.mp he with rfl | ⟨k, hk, he⟩ | ⟨l, hl, he⟩
    · exact ⟨d, mem_walk_self d, h⟩
    · obtain ⟨j, hj, hkey⟩ := exists_mem_of_map_key_eq hkids hk
      obtain ⟨f, hf, hfe⟩ := hchildren k hk hkey e he
      exact ⟨f, walk_subset_of_mem_children hj hf, hfe⟩
    · obtain ⟨j, hj, hkey⟩ := exists_mem_of_map_key_eq hlinks hl
      obtain ⟨f, hf, hfe⟩ := hchain l hl hkey e he
      exact ⟨f, walk_subset_of_mem_chain hj hf, hfe⟩

/-- Of two calls with one key both are taken or none. -/
theorem IsTaken.of_key_eq {c d : Call} (ht : c.IsTaken) (hc : c.IsKnown) (hd : d.IsKnown)
    (h : c.key = d.key) : d.IsTaken := by
  have hself {p : Param} {v : Option Value} (hp : .scalar p v ∈ d.head.args) :=
    exists_scalar_of_key_eq (hc c (mem_walk_self c)) (hd d (mem_walk_self d)) h hp
  have hparts := h
  rw [key_eq, key_eq, CallKey.mk.injEq] at hparts
  obtain ⟨hmethod, -, -, -, -, hlinks⟩ := hparts
  refine ⟨fun p hp => ?_, fun hm => ?_, fun r hr => ?_, fun r x hr hx => ?_⟩
  · obtain ⟨w, hw, hkey⟩ := hself hp
    obtain rfl : w = none := Option.map_eq_none_iff.mp hkey
    exact ht.given p hw
  · obtain ⟨f, hf, n, hn⟩ := ht.counted (hmethod.trans hm)
    rcases List.mem_cons.mp hf with rfl | hf
    · obtain ⟨m, hm, -⟩ := exists_scalar_of_key_eq (hd d (mem_walk_self d))
        (hc f (mem_walk_self f)) h.symm hn
      exact ⟨d, List.mem_cons_self, m, hm⟩
    · obtain ⟨g, hg, hkey⟩ := exists_mem_of_map_key_eq hlinks.symm hf
      obtain ⟨m, hm, -⟩ := exists_scalar_of_key_eq
        (hd g (walk_subset_of_mem_chain hg (mem_walk_self g)))
        (hc f (walk_subset_of_mem_chain hf (mem_walk_self f))) hkey hn
      exact ⟨g, List.mem_cons_of_mem _ hg, m, hm⟩
  · obtain ⟨w, hw, hkey⟩ := hself hr
    obtain ⟨hzero, hsecond⟩ := ht.ramps w hw
    exact ⟨fun h => hzero (eq_duration_of_key_eq hkey h), fun h => hsecond (eq_duration_of_key_eq hkey h)⟩
  · obtain ⟨w, hw, hkey⟩ := hself hr
    obtain ⟨y, hy, hkey'⟩ := hself hx
    rw [← runTime_eq_of_key_eq hkey hkey']
    exact ht.runs w y hw hy

theorem IsKnown.of_subset {c d : Call} (h : c.IsKnown) (hw : d.walk ⊆ c.walk) : d.IsKnown :=
  fun _ he => h _ (hw he)

/-- Of two calls with one key all calls in both are taken or not all in either. -/
theorem AllTaken.of_key_eq {names : List String} {c d : Call} (ht : c.AllTaken) (hc : c.IsKnown)
    (hd : d.IsKnown) (htc : c.Tidy names) (htd : d.Tidy names) (h : c.key = d.key) :
    d.AllTaken := by
  intro e he hr
  obtain ⟨f, hf, hkey⟩ := exists_mem_walk_of_key_eq d h e he
  have hown : f.isReference = false := by
    rw [Bool.eq_false_iff, Ne, htc.named f hf, (sameKey_of_key_eq hkey).1, ← htd.named e he, hr]
    exact Bool.false_ne_true
  exact (ht f hf hown).of_key_eq (hc.of_subset (walk_subset_of_mem_walk hf))
    (hd.of_subset (walk_subset_of_mem_walk he)) hkey

/-! ### References in place of calls -/

theorem isTaken_congr {c d : Call} (hh : c.head = d.head)
    (hl : c.chain.map (·.head) = d.chain.map (·.head)) : c.IsTaken ↔ d.IsTaken := by
  have hcounted : (∃ f ∈ c :: c.chain, ∃ n, Arg.scalar threadCount n ∈ f.head.args) ↔
      ∃ f ∈ d :: d.chain, ∃ n, Arg.scalar threadCount n ∈ f.head.args := by
    have hiff (b : Call) : (∃ f ∈ b :: b.chain, ∃ n, Arg.scalar threadCount n ∈ f.head.args) ↔
        ∃ head ∈ b.head :: b.chain.map (·.head), ∃ n, Arg.scalar threadCount n ∈ head.args := by
      simp
    rw [hiff, hiff, hh, hl]
  constructor
  · rintro ⟨hgiven, hc, hramps, hruns⟩
    exact ⟨hh ▸ hgiven, fun hm => hcounted.mp (hc (hh ▸ hm)), hh ▸ hramps, hh ▸ hruns⟩
  · rintro ⟨hgiven, hd, hramps, hruns⟩
    exact ⟨hh ▸ hgiven, fun hm => hcounted.mpr (hd (hh ▸ hm)), hh ▸ hramps, hh ▸ hruns⟩

section

variable {k : CallKey} {ref : Call}

theorem isTaken_replace (c : Call) : (replace k ref c).IsTaken ↔ c.IsTaken :=
  isTaken_congr (head_replace c) (by simp [Function.comp_def])

/-- References in place of calls leave the calls around them as taken as they were. -/
theorem AllTaken.replace {c : Call} (h : c.AllTaken) (hw : ref.walk = [ref])
    (hr : ref.isReference = true) : (Call.replace k ref c).AllTaken := by
  intro d hd hown
  rcases mem_walk_replace hw c hd with rfl | ⟨e, he, rfl⟩
  · rw [hr] at hown
    cases hown
  · rw [isReference_replace] at hown
    exact (isTaken_replace e).mpr (h e he hown)

/-- All calls are taken if all are that references replace and all that are left. -/
theorem allTaken_of_replace (c : Call) (h : ∀ d ∈ c.walk, d.key = k → d.AllTaken)
    (ht : (Call.replace k ref c).AllTaken) : c.AllTaken := by
  induction c using Call.induction with
  | step c hchildren hchain =>
    intro d hd hown
    rcases mem_walk_iff.mp hd with rfl | ⟨j, hj, hd⟩ | ⟨l, hl, hd⟩
    · exact (isTaken_replace d).mp (ht _ (mem_walk_self _) (by rwa [isReference_replace]))
    · have hsub := walk_subset_of_mem_children hj
      by_cases hkey : j.key = k
      · exact h j (hsub (mem_walk_self j)) hkey d hd hown
      · refine hchildren j hj (fun e he => h e (hsub he)) (fun e he => ?_) d hd hown
        refine ht e (walk_subset_of_mem_children ?_ he)
        rw [children_replace, ← replaced_of_key_ne hkey]
        exact List.mem_map_of_mem hj
    · have hsub := walk_subset_of_mem_chain hl
      refine hchain l hl (fun e he => h e (hsub he)) (fun e he => ?_) d hd hown
      refine ht e (walk_subset_of_mem_chain ?_ he)
      rw [chain_replace]
      exact List.mem_map_of_mem hl

end

end Call

/-! ### The loop -/

namespace Helper.Hoisting

/-- What holds of every state of the loop: what is left of the plan and the bodies of its helper methods
are composed calls, and all calls in them are taken exactly if all in the plan are. -/
structure Taking (o : Options) (root : Call) (s : Hoisting) : Prop where
  sound : ∃ ρ, Sound root.key ρ s
  minimal : Minimal s
  head : s.root.head = root.head
  composed : ∀ c ∈ s.roots, c.Composed o
  known : ∀ c ∈ s.roots, c.IsKnown
  bodies : ∀ h ∈ s.helpers, h.body.isEmpty = false
  taken : (∀ c ∈ s.roots, c.AllTaken) ↔ root.AllTaken

variable {o : Options} {root : Call}

theorem taking_start (hp : root.Plain) (hc : root.Composed o) (hk : root.IsKnown) :
    Taking o root (start root) where
  sound := ⟨fun _ => root.key, sound_start _ hp⟩
  minimal := minimal_start hp
  head := rfl
  composed := List.forall_mem_singleton.mpr hc
  known := List.forall_mem_singleton.mpr hk
  bodies := fun _ hh => absurd hh List.not_mem_nil
  taken := List.forall_mem_singleton

variable {s : Hoisting} (h : Taking o root s) {g : Group} (hp : pick (groups s.roots) = some g)

include h hp

theorem forall_allTaken_extract :
    (∀ b ∈ (s.extract g).roots, b.AllTaken) ↔ ∀ b ∈ s.roots, b.AllTaken := by
  obtain ⟨hkey, c, hc, hg⟩ := mem_candidates_of_pick hp
  obtain ⟨ρ, hs⟩ := h.sound
  have hwalk := (mem_walk_of_mem_candidates hg).1
  have hsub := walk_subset_of_mem_walk hwalk
  rw [roots_extract, List.forall_mem_append, List.forall_mem_map, List.forall_mem_singleton]
  constructor
  · rintro ⟨hrest, hbody⟩ b hb
    refine allTaken_of_replace b (fun d hd hdk => ?_) (hrest b hb)
    exact hbody.of_key_eq ((h.known c hc).of_subset hsub)
      ((h.known b hb).of_subset (walk_subset_of_mem_walk hd)) ((hs.tidy c hc).of_mem_walk hwalk)
      ((hs.tidy b hb).of_mem_walk hd) (hkey.trans hdk.symm)
  · intro hall
    exact ⟨fun b hb => (hall b hb).replace (walk_reference _ _) rfl,
      fun d hd => hall c hc d (hsub hd)⟩

theorem taking_extract : Taking o root (s.extract g) := by
  obtain ⟨hkey, c, hc, hg⟩ := mem_candidates_of_pick hp
  obtain ⟨ρ, hs⟩ := h.sound
  obtain ⟨hwalk, hcand⟩ := mem_walk_of_mem_candidates hg
  simp only [isCandidate, Bool.and_eq_true, Bool.not_eq_true'] at hcand
  refine {
    sound := ⟨_, sound_extract hs hc hwalk hkey hcand.1.1⟩
    minimal := minimal_extract hs h.minimal hp
    head := (head_replace s.root).trans h.head
    composed := ?_
    known := forall_head_extract h.known (fun _ p v hp => absurd hp List.not_mem_nil) hc hwalk
    bodies := ?_
    taken := (forall_allTaken_extract h hp).trans h.taken }
  · rw [roots_extract, List.forall_mem_append, List.forall_mem_map, List.forall_mem_singleton]
    exact ⟨fun b hb => (h.composed b hb).replace _ _ _, (h.composed c hc).of_mem_candidates hg⟩
  · intro f hf
    rcases List.mem_append.mp hf with hf | hf
    · obtain ⟨b, hb, rfl⟩ := List.mem_map.mp hf
      have hbody := h.bodies b hb
      rwa [isEmpty, ← head_replace b.body] at hbody
    · rw [List.mem_singleton.mp hf]
      exact hcand.1.2

end Helper.Hoisting

open Helper in
/-- What code is generated from: the plan itself, or what hoisting leaves of it. -/
theorem Call.exists_taking_of_generate {o : Options} {root : Call} (hp : root.Plain)
    (hc : root.Composed o) (hk : root.IsKnown) {indent : List Char} {g : Generated}
    (hg : (root.generate o indent).outcome = .ok g) :
    ∃ t fuel, g = .ofCall ⟨o.indent.toList, o.textBlocks⟩ indent t.root t.helpers ∧
      (Hoisting.run fuel (.start root)).outcome = .ok t ∧ Hoisting.Taking o root t := by
  obtain ⟨root', helpers, rfl, ⟨rfl, rfl⟩ | h⟩ := exists_of_generate hg
  · exact ⟨.start root', 0, rfl, rfl, Hoisting.taking_start hp hc hk⟩
  · obtain ⟨t, ht, rfl, rfl⟩ := exists_run_of_hoist h
    exact ⟨t, _, rfl, ht, Hoisting.run_induction_of_pick
      (fun s g hs hp => Hoisting.taking_extract hs hp) (Hoisting.taking_start hp hc hk) ht⟩

end FluentPlan
