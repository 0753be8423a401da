import FluentPlan.Proofs.Hoisting.Count
import FluentPlan.Proofs.Hoisting.Meaning

/-!
Hoisting makes no more helper methods than it has to. The largest calls that repeat go first, so what
repeats later is too small to have a reference in it. No reference is then lost: each helper method
keeps the two references that it was made for, and its body refers only to later ones.
-/

namespace FluentPlan

open Call

namespace Helper

/-- How often a key occurs among the places in a call and in the bodies of helper methods. -/
def Hoisting.repeats (s : Hoisting) (k : CallKey) : Nat :=
  ((s.roots.flatMap candidates).map key).count k

/-- Whether references are only to helper methods further behind. -/
def Forward (helpers : List Helper) : Prop :=
  ∀ before f behind, helpers = before ++ f :: behind →
    ∀ d ∈ f.body.walk, d.isReference = true → d.head.method ∈ behind.map (·.name)

namespace Hoisting

theorem repeats_eq (s : Hoisting) (k : CallKey) :
    s.repeats k = (s.roots.map (occurrences k)).sum := by
  rw [repeats, List.map_flatMap, List.count_flatMap]
  rfl

/-- What is picked repeats, and is as large as anything that does. -/
theorem largest_of_pick {s : Hoisting} {g : Group} (h : pick (groups s.roots) = some g) :
    1 < s.repeats g.key ∧
      ∀ d ∈ s.roots.flatMap candidates, 1 < s.repeats d.key → d.size ≤ g.call.size := by
  have hc := counts_groups s.roots
  obtain ⟨hcount, hmax⟩ := Helper.largest_of_pick h
  refine ⟨by rwa [repeats, ← hc.count g (mem_of_pick h)], fun d hd hrep => ?_⟩
  obtain ⟨f, hf, hkey⟩ := List.mem_map.mp ((hc.mem_iff d.key).mpr (List.mem_map_of_mem hd))
  have hfcount : 1 < f.count := by rwa [hc.count f hf, hkey]
  rw [← size_eq_of_key_eq ((hc.call f hf).2.trans hkey)]
  exact hmax f hf hfcount

/-- What holds of every state of the loop about references: none stands in a call that repeats, two
are left to each helper method, and none leads back. -/
structure Minimal (s : Hoisting) : Prop where
  plain : ∀ c ∈ s.roots.flatMap candidates, 1 < s.repeats c.key → c.Plain
  twice : ∀ name ∈ s.names, 1 < (s.roots.flatMap methods).count name
  forward : Forward s.helpers

theorem minimal_start {root : Call} (h : root.Plain) : Minimal (start root) where
  plain := by
    intro c hc _ d hd
    have hsub := walk_subset_of_mem_walk (mem_walk_of_mem_candidates (c := root) (by
      simpa [roots, start] using hc)).1
    exact h d (hsub hd)
  twice := fun _ hn => absurd hn List.not_mem_nil
  forward := by
    rintro (_ | ⟨_, _⟩) _ _ h <;> cases h

theorem plain_of_pick {s : Hoisting} {g : Group} (h : Minimal s)
    (hp : pick (groups s.roots) = some g) : g.call.Plain := by
  obtain ⟨hkey, c, hc, hg⟩ := mem_candidates_of_pick hp
  exact h.plain g.call (List.mem_flatMap.mpr ⟨c, hc, hg⟩) (hkey ▸ (largest_of_pick hp).1)

theorem forward_extract {s : Hoisting} {g : Group} (h : Forward s.helpers) (hg : g.call.Plain) :
    Forward (s.extract g).helpers := by
  have hlast : (s.extract g).helpers = s.helpers.map (fun f => ⟨f.name, Call.replace g.key
      (reference (s.nameFor g.call) g.call) f.body⟩) ++ [⟨s.nameFor g.call, g.call⟩] := rfl
  intro before f behind heq d hd hr
  rw [hlast] at heq
  rcases List.eq_nil_or_concat behind with rfl | ⟨behind, last, rfl⟩
  · -- the new helper method, whose body has no reference
    obtain ⟨-, hf⟩ := List.append_inj' heq rfl
    cases hf
    rw [hg d hd] at hr
    cases hr
  · rw [List.concat_eq_append, ← List.cons_append, ← List.append_assoc] at heq
    obtain ⟨hold, hnew⟩ := List.append_inj' heq rfl
    obtain rfl := (List.cons.inj hnew).1
    obtain ⟨before', rest, hsplit, -, hrest⟩ := List.map_eq_append_iff.mp hold
    obtain ⟨f', behind', rfl, rfl, rfl⟩ := List.map_eq_cons_iff.mp hrest
    rw [List.concat_eq_append, List.map_append, List.map_map, List.mem_append]
    rcases mem_walk_replace (walk_reference _ _) f'.body hd with rfl | ⟨e, he, rfl⟩
    · exact .inr List.mem_cons_self
    · rw [isReference_replace] at hr
      rw [head_replace]
      exact .inl (h before' f' behind' hsplit e he hr)

section

variable {original : CallKey} {ρ : String → CallKey} {s : Hoisting} {g : Group}
  (hs : Sound original ρ s) (h : Minimal s) (hp : pick (groups s.roots) = some g)

include hs

theorem nameFor_not_mem_methods {b : Call} (hb : b ∈ s.roots) (c : Call) :
    s.nameFor c ∉ b.methods := by
  intro hm
  obtain ⟨d, hd, hname⟩ := List.mem_map.mp hm
  exact ne_nameFor (hs.methods_taken b hb d hd) c hname

include hp

/-- References to the new helper method take the places of its group, and those to the others stay
where they are. -/
theorem count_methods_extract {m : String} (hm : m ∉ g.call.methods) :
    (s.roots.flatMap methods).count m +
        (if m = s.nameFor g.call then s.repeats g.key else 0) ≤
      ((s.extract g).roots.flatMap methods).count m := by
  obtain ⟨hkey, c, hc, hg⟩ := mem_candidates_of_pick hp
  obtain ⟨hwalk, hcand⟩ := mem_walk_of_mem_candidates hg
  have htidy := (hs.tidy c hc).of_mem_walk hwalk
  have heach (b : Call) (hb : b ∈ s.roots) :
      b.methods.count m + (if m = s.nameFor g.call then occurrences g.key b else 0) ≤
        (Call.replace g.key (reference (s.nameFor g.call) g.call) b).methods.count m := by
    rw [← hkey, count_methods_replace (walk_reference _ _) hm b fun d hd hdk => ?_]
    · exact Nat.le_refl _
    · rw [isCandidate_of_key_eq ((hs.tidy b hb).of_mem_walk hd) htidy hdk]
      exact hcand
  have hsum := sum_map_le heach
  rw [List.sum_map_add] at hsum
  rw [roots_extract, List.flatMap_append, List.count_append, List.count_flatMap, List.flatMap_map,
    List.count_flatMap, repeats_eq]
  refine Nat.le_trans ?_ (Nat.le_add_right _ _)
  by_cases heq : m = s.nameFor g.call
  · simpa only [if_pos heq, Function.comp_def] using hsum
  · simpa [heq, Function.comp_def] using hsum

include h

/-- What repeats after a step and is not met in the new body repeated before, and is still the same.
-/
theorem plain_replace {a x : Call} (ha : a ∈ s.roots)
    (hx : x ∈ (Call.replace g.key (reference (s.nameFor g.call) g.call) a).candidates)
    (hrep : 1 < (s.roots.map fun b => occurrences x.key
      (Call.replace g.key (reference (s.nameFor g.call) g.call) b)).sum) : x.Plain := by
  obtain ⟨hkey, -⟩ := mem_candidates_of_pick hp
  have hzero := places_reference (s.nameFor g.call) g.call
  obtain ⟨y, hy, rfl⟩ := exists_candidate_of_replace hzero a hx
  have hya := (mem_walk_of_mem_candidates hy).1
  have hnew {b : Call} (hb : b ∈ s.roots) := nameFor_not_mem_methods hs hb g.call
  have hbefore : 1 < s.repeats y.key := by
    rw [repeats_eq]
    refine Nat.lt_of_lt_of_le hrep (sum_map_le fun b hb => ?_)
    exact occurrences_replace_le hzero (fun hm => hnew ha (methods_subset hya hm)) b (hnew hb)
  have hmem : y ∈ s.roots.flatMap candidates := List.mem_flatMap.mpr ⟨a, ha, hy⟩
  rw [replace_of_size_le hkey y ((largest_of_pick hp).2 y hmem hbefore)]
  exact h.plain y hmem hbefore

theorem plain_extract {x : Call} (hx : x ∈ (s.extract g).roots.flatMap candidates)
    (hrep : 1 < (s.extract g).repeats x.key) : x.Plain := by
  obtain ⟨hkey, c, hc, hg⟩ := mem_candidates_of_pick hp
  obtain ⟨hwalk, hcand⟩ := mem_walk_of_mem_candidates hg
  by_cases hbody : x.key ∈ g.call.candidates.map key
  · obtain ⟨y, hy, hyx⟩ := List.mem_map.mp hbody
    have hyg := (mem_walk_of_mem_candidates hy).1
    have hy : y.Plain := fun d hd =>
      plain_of_pick h hp d (walk_subset_of_mem_walk hyg hd)
    obtain ⟨b, hb, hxb⟩ := List.mem_flatMap.mp hx
    have htidy := (tidy_extract hs hc hwalk hb).of_mem_walk (mem_walk_of_mem_candidates hxb).1
    have hroot : g.call ∈ (s.extract g).roots := by
      rw [roots_extract]
      exact List.mem_append_right _ List.mem_cons_self
    have htidy' := (tidy_extract hs hc hwalk hroot).of_mem_walk hyg
    refine (plain_iff_methods htidy).mpr ?_
    rw [← methods_eq_of_key_eq y hyx]
    exact (plain_iff_methods htidy').mp hy
  · have hnone : occurrences x.key g.call = 0 := List.count_eq_zero_of_not_mem hbody
    rw [repeats_eq, roots_extract, List.map_append, List.sum_append, List.map_singleton,
      List.sum_singleton, hnone, Nat.add_zero, List.map_map] at hrep
    rw [roots_extract, List.flatMap_append] at hx
    rcases List.mem_append.mp hx with hx | hx
    · obtain ⟨a', ha', hx⟩ := List.mem_flatMap.mp hx
      obtain ⟨a, ha, rfl⟩ := List.mem_map.mp ha'
      exact plain_replace hs h hp ha hx hrep
    · rw [List.flatMap_singleton] at hx
      exact absurd (List.mem_map_of_mem hx) hbody

theorem twice_extract {name : String} (hn : name ∈ (s.extract g).names) :
    1 < ((s.extract g).roots.flatMap methods).count name := by
  obtain ⟨hkey, c, hc, hg⟩ := mem_candidates_of_pick hp
  have hwalk := (mem_walk_of_mem_candidates hg).1
  have hplain := (plain_iff_methods ((hs.tidy c hc).of_mem_walk hwalk)).mp
    (plain_of_pick h hp)
  rw [names_extract] at hn
  rcases List.mem_append.mp hn with hn | hn
  · have hcount := count_methods_extract hs hp fun hm => hplain name hm hn
    exact Nat.lt_of_lt_of_le (h.twice name hn) (Nat.le_trans (Nat.le_add_right _ _) hcount)
  · rw [List.mem_singleton.mp hn]
    have hnew := nameFor_not_mem_methods hs hc g.call
    have hcount := count_methods_extract hs hp fun hm => hnew (methods_subset hwalk hm)
    rw [if_pos rfl] at hcount
    exact Nat.lt_of_lt_of_le (largest_of_pick hp).1 (Nat.le_trans (Nat.le_add_left _ _) hcount)

theorem minimal_extract : Minimal (s.extract g) where
  plain := fun _ hx hrep => plain_extract hs h hp hx hrep
  twice := fun _ hn => twice_extract hs h hp hn
  forward := forward_extract h.forward (plain_of_pick h hp)

end

/-- Whatever is hoisted from a call without references, the loop ends with what no step can undo. -/
theorem exists_minimal {root : Call} (h : root.Plain) :
    ∃ (t : Hoisting) (ρ : String → CallKey), root.hoist.outcome = .ok (t.root, t.helpers) ∧
      Sound root.key ρ t ∧ Minimal t ∧ pick (groups t.roots) = none := by
  have hstart : Sound root.key (fun _ => root.key) (start root) := sound_start _ h
  have hplaces : ((start root).roots.flatMap candidates).length = root.candidates.length := by
    simp [roots, start]
  obtain ⟨t, ρ, hrun, hsound, hpick⟩ := run_sound hstart (Nat.le_of_eq hplaces)
  have hkept := run_induction_of_pick
    (P := fun s => (∃ ρ, Sound root.key ρ s) ∧ Minimal s) (fun s g hs hp => by
      obtain ⟨⟨ρ, hs⟩, hm⟩ := hs
      obtain ⟨hkey, c, hc, hg⟩ := mem_candidates_of_pick hp
      obtain ⟨hwalk, hcand⟩ := mem_walk_of_mem_candidates hg
      simp only [isCandidate, Bool.and_eq_true, Bool.not_eq_true'] at hcand
      exact ⟨⟨_, sound_extract hs hc hwalk hkey hcand.1.1⟩, minimal_extract hs hm hp⟩)
    ⟨⟨_, hstart⟩, minimal_start h⟩ hrun
  refine ⟨t, ρ, ?_, hsound, hkept.2, hpick⟩
  rw [hoist, Logged.outcome_bind, hrun]
  rfl

theorem count_references {original : CallKey} {ρ : String → CallKey} {s : Hoisting}
    (hs : Sound original ρ s) {name : String} (hn : name ∈ s.names) :
    (s.roots.flatMap walk).countP (fun d => d.isReference && d.head.method = name) =
      (s.roots.flatMap methods).count name := by
  have hmethods : s.roots.flatMap methods = (s.roots.flatMap walk).map (·.head.method) := by
    rw [List.map_flatMap]
    rfl
  rw [hmethods, List.count, List.countP_map]
  refine List.countP_congr fun d hd => ?_
  obtain ⟨c, hc, hd⟩ := List.mem_flatMap.mp hd
  have hnamed := (hs.tidy c hc).named d hd
  simp only [Bool.and_eq_true, decide_eq_true_eq, Function.comp_apply, beq_iff_eq, hnamed]
  exact and_iff_right_of_imp fun h => h ▸ hn

end Hoisting

end Helper

open Helper

/-- Hoisting of a plan ends where no two places hold equal calls. It makes only helper methods that
are referred to at least twice, and each refers only to those made after it. -/
theorem minimal_hoist_assemble {r : Registry} {o : Options} {path : String} {e : Element}
    {root : Call} (h : (e.assemble r o path).outcome = .ok root) :
    ∃ (root' : Call) (helpers : List Helper), root.hoist.outcome = .ok (root', helpers) ∧
      (((root' :: helpers.map (·.body)).flatMap candidates).map key).Nodup ∧
      (∀ f ∈ helpers, 2 ≤ ((root' :: helpers.map (·.body)).flatMap walk).countP
        fun d => d.isReference && d.head.method = f.name) ∧
      ∀ before f behind, helpers = before ++ f :: behind →
        ∀ d ∈ f.body.walk, d.isReference = true → d.head.method ∈ behind.map (·.name) := by
  obtain ⟨t, ρ, hout, hsound, hminimal, hpick⟩ :=
    Hoisting.exists_minimal (Element.plain_assemble h)
  refine ⟨t.root, t.helpers, hout, nodup_of_pick hpick, fun f hf => ?_, hminimal.forward⟩
  have hn : f.name ∈ t.names := List.mem_map_of_mem hf
  exact (Hoisting.count_references hsound hn).symm ▸ hminimal.twice f.name hn

/-- A group that repeats, also inside another that does: the helper method of the outer one calls that
of the inner one, which calls none. -/
theorem minimal_hoist_assemble_nested :
    let o : Options := {}
    let once : Element := ⟨"OnceOnlyController", none, true, .empty, []⟩
    let fetch : Element := ⟨"GenericController", some "Fetch", true, .empty, [once]⟩
    let visit : Element := ⟨"GenericController", some "Visit", true, .empty, [fetch]⟩
    let e : Element := ⟨"TestPlan", none, true, .empty, [visit, visit, fetch]⟩
    ∃ (root root' outer inner : Call), (e.assemble .standard o e.label).outcome = .ok root ∧
      root.hoist.outcome = .ok (root', [⟨"visit", outer⟩, ⟨"fetch", inner⟩]) ∧
      (∀ d ∈ outer.walk, d.isReference = true → d.head.method = "fetch") ∧
      (∀ d ∈ inner.walk, d.isReference = false) ∧
      2 ≤ ([root', outer, inner].flatMap walk).countP
        fun d => d.isReference && d.head.method = "fetch" := by
  intro o once fetch visit e
  have horder (c : Call) : Call.order o.categories [c] = [c] := List.mergeSort_singleton c
  let head (g : Element) (name : String) : CallHead :=
    Element.ownHead o Catalog.Controller.simpleController g
      [.scalar (.name "Simple Controller") (some (.text name)), .children]
  let once' : Call :=
    ⟨Element.ownHead o Catalog.Controller.onceOnlyController once [.children], [], []⟩
  let fetch' : Call := ⟨head fetch "Fetch", [once'], []⟩
  let visit' : Call := ⟨head visit "Visit", [fetch'], []⟩
  let root : Call := ⟨Element.ownHead o Catalog.Plan.testPlan e [.children],
    [visit', visit', fetch'], []⟩
  have ronce : Registry.standard.resolve? once = .ok Catalog.Controller.onceOnlyController :=
    Registry.resolve?_of_first rfl rfl rfl
  have rfetch : Registry.standard.resolve? fetch = .ok Catalog.Controller.simpleController :=
    Registry.resolve?_of_first rfl rfl rfl
  have rvisit : Registry.standard.resolve? visit = .ok Catalog.Controller.simpleController :=
    Registry.resolve?_of_first rfl rfl rfl
  have rplan : Registry.standard.resolve? e = .ok Catalog.Plan.testPlan :=
    Registry.resolve?_of_first rfl rfl rfl
  have honce (path : String) : (once.assemble .standard o path).outcome = .ok once' :=
    Element.assemble_of_ownCall ronce (by rfl) (by rfl)
  have hfetch (path : String) : (fetch.assemble .standard o path).outcome = .ok fetch' := by
    rw [Element.assemble_of_ownCall rfetch (by rfl)
      (Element.assembleAll_cons_of_assemble rfl rfl (honce _) (by rfl)), Element.withChildren,
      Element.attach, horder]
    rfl
  have hvisit (path : String) : (visit.assemble .standard o path).outcome = .ok visit' := by
    rw [Element.assemble_of_ownCall rvisit (by rfl)
      (Element.assembleAll_cons_of_assemble rfl rfl (hfetch _) (by rfl)), Element.withChildren,
      Element.attach, horder]
    rfl
  have hroot : (e.assemble .standard o e.label).outcome = .ok root := by
    have horder : Call.order o.categories [visit', visit', fetch'] = [visit', visit', fetch'] :=
      List.mergeSort_of_pairwise (by decide)
    rw [Element.assemble_of_ownCall rplan (by rfl)
      (Element.assembleAll_cons_of_assemble rfl rfl (hvisit _)
        (Element.assembleAll_cons_of_assemble rfl rfl (hvisit _)
          (Element.assembleAll_cons_of_assemble rfl rfl (hfetch _) (by rfl)))),
      Element.withChildren, Element.attach, horder]
    rfl
  obtain ⟨root', helpers, hout, -, htwice, hforward⟩ := minimal_hoist_assemble hroot
  have hnames : (root.hoist.outcome.toOption.map fun x => x.2.map (·.name)) =
      some ["visit", "fetch"] := by decide
  rw [hout] at hnames
  have hnames : helpers.map (·.name) = ["visit", "fetch"] := Option.some.inj hnames
  obtain ⟨f, fs, rfl, hf, hfs⟩ := List.map_eq_cons_iff.mp hnames
  obtain ⟨g, gs, rfl, hg, hgs⟩ := List.map_eq_cons_iff.mp hfs
  obtain rfl := List.map_eq_nil_iff.mp hgs
  refine ⟨root, root', f.body, g.body, hroot, ?_, fun d hd hr => ?_, fun d hd => ?_, ?_⟩
  · rw [hout, ← hf, ← hg]
  · have := hforward [] f [g] rfl d hd hr
    rwa [List.map_singleton, List.mem_singleton, hg] at this
  · by_contra hr
    exact absurd (hforward [f] g [] rfl d hd (by simpa using hr)) List.not_mem_nil
  · simpa [hg] using htwice g (by simp)

end FluentPlan
