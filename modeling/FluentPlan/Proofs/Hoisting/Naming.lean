import FluentPlan.Proofs.Hoisting.Name
import FluentPlan.Proofs.Hoisting.Run

/-!
What the names of helper methods do not clash with. They differ from each other and from the methods
of all calls that are left, so that only references call helper methods; and they are words of the
language in one case only.
-/

namespace FluentPlan

open Call

namespace Helper.Hoisting

/-- What holds of every state of the loop about names: helper methods are called by references only,
and each has a unique name for its label. -/
structure Named (s : Hoisting) : Prop extends Fresh s where
  called : ∀ c ∈ s.roots, ∀ d ∈ c.walk, d.head.method ∈ s.names → d.isReference = true
  label : ∀ f ∈ s.helpers, ∃ taken,
    f.name = Java.uniqueName (Java.methodName f.body.labelOrMethod) taken

theorem named_start (root : Call) : Named (start root) where
  toFresh := fresh_start root
  called := fun _ _ _ _ hn => absurd hn List.not_mem_nil
  label := fun _ hf => absurd hf List.not_mem_nil

theorem labelOrMethod_replace (key : CallKey) (ref c : Call) :
    (Call.replace key ref c).labelOrMethod = c.labelOrMethod := by
  simp [labelOrMethod]

theorem named_extract {s : Hoisting} (h : Named s) {g : Group} {c : Call} (hc : c ∈ s.roots)
    (hg : g.call ∈ c.walk) : Named (s.extract g) where
  toFresh := h.toFresh.extract hc hg
  called := by
    -- a method that was called before is not the new name
    have hold {b d : Call} (hb : b ∈ s.roots) (hd : d ∈ b.walk)
        (hn : d.head.method ∈ (s.extract g).names) : d.isReference = true := by
      rw [names_extract, List.mem_append, List.mem_singleton] at hn
      exact h.called b hb d hd (hn.resolve_right (ne_nameFor (h.methods_taken b hb d hd) g.call))
    intro b hb d hd hn
    rw [roots_extract] at hb
    rcases List.mem_append.mp hb with hb | hb
    · obtain ⟨a, ha, rfl⟩ := List.mem_map.mp hb
      rcases mem_walk_replace (walk_reference _ _) a hd with rfl | ⟨e, he, rfl⟩
      · rfl
      · rw [head_replace] at hn
        rw [isReference_replace]
        exact hold ha he hn
    · rw [List.mem_singleton.mp hb] at hd
      exact hold hc (walk_subset_of_mem_walk hg hd) hn
  label := by
    intro f hf
    rcases List.mem_append.mp hf with hf | hf
    · obtain ⟨f', hf', rfl⟩ := List.mem_map.mp hf
      rw [labelOrMethod_replace]
      exact h.label f' hf'
    · rw [List.mem_singleton.mp hf]
      exact ⟨s.taken, rfl⟩

end Helper.Hoisting

open Helper

/-- Hoisting gives its helper methods different names, which no builder or chained call that is left
has for its method. A name is a word of the language only if the label asks for `_`. -/
theorem names_hoist (root : Call) :
    ∃ (root' : Call) (helpers : List Helper), root.hoist.outcome = .ok (root', helpers) ∧
      (helpers.map (·.name)).Nodup ∧
      (∀ f ∈ helpers, f.name ∈ Java.keywords →
        f.name = "_" ∧ Java.methodName f.body.labelOrMethod = "_") ∧
      ∀ c ∈ root' :: helpers.map (·.body), ∀ d ∈ c.walk,
        d.head.method ∈ helpers.map (·.name) → d.isReference = true := by
  obtain ⟨t, hrun⟩ := Hoisting.exists_outcome_run root.candidates.length (.start root)
  have h : Hoisting.Named t := Hoisting.run_induction
    (fun s g hs _ c hc hg => Hoisting.named_extract hs hc (mem_walk_of_mem_candidates hg).1)
    (Hoisting.named_start root) hrun
  refine ⟨t.root, t.helpers, ?_, h.nodup, fun f hf hword => ?_, h.called⟩
  · rw [hoist, Logged.outcome_bind, hrun]
    rfl
  · obtain ⟨taken, hname⟩ := h.label f hf
    rw [hname] at hword ⊢
    exact Java.eq_underscore_of_mem_keywords hword

/-- The label `_` names a helper method `_`, which Java does not let be called so. -/
theorem exists_helper_underscore :
    let once : Call := ⟨{ method := "onceOnlyController" }, [], []⟩
    let group : Call := ⟨{ method := "simpleController", label := some "_" }, [once], []⟩
    let root : Call := ⟨{ method := "testPlan" }, [group, group], []⟩
    (root.hoist.outcome.toOption.map fun x => x.2.map (·.name)) = some ["_"] ∧
      "_" ∈ Java.keywords := by
  decide

end FluentPlan
