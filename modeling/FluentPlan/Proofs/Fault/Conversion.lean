import FluentPlan.Conversion
import FluentPlan.Proofs.Code.Agreement
import FluentPlan.Proofs.Fault.Within
import FluentPlan.Proofs.Hoisting.Meaning

/-!
How conversions end. A conversion ends with code, or with a problem that it keeps, or with one of the
two faults that reading an element can end with; these leave it where it assembles calls.
-/

namespace FluentPlan

open Call

/-! ### Comparable signatures -/

/-- Whether it can be told of all values of a signature whether they are defaults. -/
def Signature.isComparable (s : Signature) : Bool := s.allParams.all Param.isComparable

theorem Registry.isComparable_standard :
    Registry.standard.signatures.all Signature.isComparable = true := by decide

namespace Element

theorem failsWithin_indexIn? (base key : String) :
    FailsWithin [.indexWithoutValue] (indexIn? base key) := by
  unfold indexIn?
  split
  · exact .ok _
  · simp only
    split
    · exact (Param.failsWithin_indexValue _).map _
    · exact .ok _

theorem failsWithin_indices (props : Properties) (each lead : String) :
    FailsWithin readFaults (indices props each lead) := by
  refine FailsWithin.bind ?_ fun _ _ => .ok _
  exact FailsWithin.mapM fun key _ => (failsWithin_indexIn? _ key).mono (by simp [readFaults])

theorem failsWithin_valuesOf (e : Element) (lead : String) (ps : List Param) :
    FailsWithin readFaults (valuesOf e lead ps) :=
  FailsWithin.mapM fun p _ => (p.failsWithin_valueOf e lead).bind fun _ _ => .ok _

theorem exists_allDefault {values : List (Param × Option Value)}
    (h : ∀ x ∈ values, x.1.isComparable = true) : ∃ b, allDefault values = .ok b := by
  induction values with
  | nil => exact ⟨true, rfl⟩
  | cons x values ih =>
    obtain ⟨p, v⟩ := x
    obtain ⟨b, hb⟩ := Param.exists_isDefault? (h (p, v) List.mem_cons_self) v
    obtain ⟨c, hc⟩ := ih fun y hy => h y (List.mem_cons_of_mem _ hy)
    unfold allDefault
    rw [hb]
    cases b with
    | true => exact ⟨c, hc⟩
    | false => exact ⟨false, rfl⟩

theorem failsWithin_allDefault {e : Element} {lead : String} {ps : List Param}
    (hp : ∀ p ∈ ps, p.isComparable = true) {values : List (Param × Option Value)}
    (hv : valuesOf e lead ps = .ok values) : FailsWithin readFaults (allDefault values) := by
  obtain ⟨b, hb⟩ := exists_allDefault fun x hx => hp x.1 (mem_of_valuesOf hv hx).1
  rw [hb]
  exact .ok b

theorem failsWithin_modifierCalls {e : Element} {m : Modifier}
    (hp : ∀ p ∈ m.params, p.isComparable = true) :
    FailsWithin readFaults (modifierCalls e m) := by
  unfold modifierCalls
  split
  · exact .ok _
  · split
    · refine (failsWithin_indices _ _ _).bind fun found _ => FailsWithin.mapM fun i _ => ?_
      exact (failsWithin_valuesOf _ _ _).bind fun _ _ => .ok _
    · refine (failsWithin_valuesOf _ _ _).bind fun values hv => ?_
      refine (failsWithin_allDefault hp hv).bind fun b _ => ?_
      split
      · exact .ok _
      · simp only
        split <;> exact .ok _

theorem failsWithin_ownCall {o : Options} {s : Signature} (hs : s.isComparable = true)
    (e : Element) : FailsWithin readFaults (ownCall o s e) := by
  have hp := List.all_eq_true.mp hs
  have hscalar : ∀ p ∈ s.scalarParams, p.isComparable = true :=
    fun p hm => hp p (List.mem_append_left _ (List.mem_of_mem_filter hm))
  have hchain : FailsWithin readFaults (s.modifiers.mapM (modifierCalls e)) :=
    FailsWithin.mapM fun m hm => failsWithin_modifierCalls fun p hpm =>
      hp p (List.mem_append_right _ (List.mem_flatMap.mpr ⟨m, hm, hpm⟩))
  refine FailsWithin.bind (failsWithin_valuesOf _ _ _) fun values hv => ?_
  split
  · refine (failsWithin_allDefault hscalar hv).bind fun b _ => ?_
    split
    · exact .ok _
    · exact hchain.bind fun _ _ => .ok _
  · exact hchain.bind fun _ _ => .ok _

theorem failsWithin_resolve? (r : Registry) (e : Element) {faults : List Fault} :
    FailsWithin faults (r.resolve? e) := by
  unfold Registry.resolve?
  simp only
  split
  · exact .report _
  · split
    · exact .ok _
    · exact .report _
    · split <;> exact .report _

mutual

theorem failsWithin_resolve (r : Registry) (o : Options) : (e : Element) → (path : String) →
    FailsWithin [] (resolve r o path e).outcome
  | ⟨kind, name, enabled, properties, children⟩, path => by
    unfold resolve
    simp only [Logged.outcome_bind, Logged.outcome_mapFailure, Registry.outcome_resolve]
    exact ((failsWithin_resolve? r _).withPath path).bind fun _ _ =>
      failsWithin_resolveAll r o children path

theorem failsWithin_resolveAll (r : Registry) (o : Options) : (es : List Element) →
    (path : String) → FailsWithin [] (resolveAll r o path es).outcome
  | [], _ => .ok _
  | e :: es, path => by
    unfold resolveAll
    split
    · exact failsWithin_resolveAll r o es path
    · rw [Logged.outcome_bind]
      exact (failsWithin_resolve r o e _).bind fun _ _ => failsWithin_resolveAll r o es path

end

mutual

/-- Assembly fails with a problem, or because a value of an element could not be read. -/
theorem failsWithin_assemble {r : Registry} (hr : r.signatures.all Signature.isComparable = true)
    (o : Options) : (e : Element) → (path : String) →
      FailsWithin readFaults (assemble r o path e).outcome
  | ⟨kind, name, enabled, properties, children⟩, path => by
    unfold assemble
    simp only [Logged.outcome_mapFailure, Logged.outcome_bind, Logged.outcome_ofExcept]
    refine FailsWithin.withPath ((failsWithin_resolve? r _).bind fun s hs => ?_) path
    have hcomp := List.all_eq_true.mp hr s (Registry.resolve?_eq_ok hs).1
    refine (failsWithin_ownCall hcomp _).bind fun own _ => ?_
    split
    · exact .ok _
    · simp only [Logged.outcome_bind]
      refine (failsWithin_assembleAll hr o s children path).bind fun calls _ => ?_
      split <;> exact .ok _

theorem failsWithin_assembleAll {r : Registry}
    (hr : r.signatures.all Signature.isComparable = true) (o : Options) (s : Signature) :
    (es : List Element) → (path : String) →
      FailsWithin readFaults (assembleAll r o s path es).outcome
  | [], _ => .ok _
  | e :: es, path => by
    unfold assembleAll
    split
    · rw [Logged.outcome_bind]
      exact failsWithin_assembleAll hr o s es path
    · split
      · intro f h
        cases h
        trivial
      · simp only [Logged.outcome_bind]
        refine (failsWithin_assemble hr o e _).bind fun c _ => ?_
        exact (failsWithin_assembleAll hr o s es path).bind fun _ _ => .ok _

end

end Element

/-! ### Generation -/

theorem forM_eq_ok {α : Type} {f : α → Except Failure Unit} {xs : List α}
    (h : ∀ x ∈ xs, f x = .ok ()) : xs.forM f = .ok () := by
  induction xs with
  | nil => rfl
  | cons x xs ih =>
    change (f x >>= fun _ => xs.forM f) = .ok ()
    rw [h x List.mem_cons_self, ok_bind]
    exact ih fun y hy => h y (List.mem_cons_of_mem x hy)

/-- Of all arguments of an assembled call it can be told whether they appear in code. -/
theorem Element.check_assemble {r : Registry}
    (hr : r.signatures.all Signature.isComparable = true) {o : Options} {path : String}
    {e : Element} {c : Call} (h : (e.assemble r o path).outcome = .ok c) : c.check = .ok () := by
  have hscalar {s : Signature} (hs : s ∈ r.signatures) {p : Param} (hp : p ∈ s.allParams)
      (v : Option Value) : (Arg.scalar p v).check = .ok () := by
    obtain ⟨b, hb⟩ :=
      Param.exists_isDefault? (List.all_eq_true.mp (List.all_eq_true.mp hr s hs) p hp) v
    simp only [Arg.check, hb]
    split <;> rfl
  have hall : ∀ d ∈ c.walk, ∀ a ∈ d.head.args, a.check = .ok () := by
    refine forall_head_assemble (P := fun head => ∀ a ∈ head.args, a.check = .ok ())
      { empty := ?_, place := ?_, own := ?_, link := ?_ } e h
    · exact fun _ a ha => absurd ha List.not_mem_nil
    · exact fun _ a ha => List.mem_singleton.mp ha ▸ rfl
    · intro s hs e values hv a ha
      rcases mem_placeArgs ha with rfl | ⟨x, hx, rfl⟩
      · rfl
      · have hp := List.mem_of_mem_filter (mem_of_valuesOf hv hx).1
        exact hscalar hs (List.mem_append_left _ hp) x.2
    · intro s hs m hm e cs hcs c hc a ha
      obtain ⟨args, rfl, hargs⟩ := exists_chained_of_modifierCalls hcs hc
      obtain ⟨lead, values, hv, ha⟩ := hargs a ha
      rcases mem_argsOf ha with rfl | ⟨x, hx, rfl⟩
      · rfl
      · have hp := List.mem_flatMap.mpr ⟨m, hm, (mem_of_valuesOf hv hx).1⟩
        exact hscalar hs (List.mem_append_right _ hp) x.2
  exact forM_eq_ok fun d hd => forM_eq_ok (hall d (List.mem_of_mem_filter hd))

/-- Once a call is assembled there is nothing that its code could fail for. -/
theorem Call.exists_generate (o : Options) (indent : List Char) {root : Call}
    (h : root.check = .ok ()) : ∃ g, (root.generate o indent).outcome = .ok g := by
  obtain ⟨t, ht⟩ := Helper.Hoisting.exists_outcome_run root.candidates.length (.start root)
  have hhoist : root.hoist.outcome = .ok (t.root, t.helpers) := by
    rw [hoist, Logged.outcome_bind, ht]
    rfl
  unfold generate
  rw [Logged.outcome_bind, Logged.outcome_ofExcept, h, ok_bind]
  cases o.hoist with
  | false => exact ⟨_, rfl⟩
  | true =>
    simp only [if_true, Logged.outcome_bind, hhoist, ok_bind]
    exact ⟨_, rfl⟩

/-! ### Conversions -/

namespace Conversion

/-- A conversion that could not go on has kept the problem and failed, or it stays in its phase with a
fault that it does not keep. -/
theorem stop_cases {c : Conversion} {phase : Phase} {f : Failure} {faults : List Fault}
    (hf : f.Within faults) (log : List LogLine) :
    (∃ p path, (c.stop phase f log).2.outcome = .error (.problem p path) ∧
      (c.stop phase f log).1.phase = .failed ∧
      (c.stop phase f log).1.failure = some (.problem p path)) ∨
    ∃ x ∈ faults, (c.stop phase f log).2.outcome = .error (.fault x) ∧
      (c.stop phase f log).1.phase = phase ∧ (c.stop phase f log).1.failure = c.failure := by
  cases f with
  | problem p path => exact .inl ⟨p, path, rfl, rfl, rfl⟩
  | fault x => exact .inr ⟨x, hf, rfl, rfl, rfl⟩

/-- How a fresh conversion ends: done with code, failed with a problem that it keeps, or else between
the two, with a fault met while it assembled calls. -/
theorem run_cases (o : Options) (e : Element) (base : String) :
    let ended := (⟨.standard, o, .idle, none⟩ : Conversion).run e base
    (∃ g, ended.2.outcome = .ok g ∧ ended.1.phase = .done ∧ ended.1.failure = none) ∨
    (∃ p path, ended.2.outcome = .error (.problem p path) ∧ ended.1.phase = .failed ∧
      ended.1.failure = some (.problem p path)) ∨
    ∃ f ∈ readFaults, ended.2.outcome = .error (.fault f) ∧ ended.1.phase = .assembling ∧
      ended.1.failure = none := by
  intro ended
  have hresolve := Element.failsWithin_resolve .standard o e e.label
  have hassemble := Element.failsWithin_assemble Registry.isComparable_standard o e e.label
  simp only [ended, run, ne_eq, not_true_eq_false, if_false]
  cases hr : (e.resolve .standard o e.label).outcome with
  | error f =>
    rcases stop_cases (hresolve f hr) _ with hstop | ⟨x, hx, -⟩
    · exact .inr (.inl hstop)
    · cases hx
  | ok u =>
    dsimp only
    cases ha : (e.assemble .standard o e.label).outcome with
    | error f => exact .inr (stop_cases (hassemble f ha) _)
    | ok root =>
      obtain ⟨g, hg⟩ := Call.exists_generate o base.toList
        (Element.check_assemble Registry.isComparable_standard ha)
      dsimp only
      rw [hg]
      exact .inl ⟨g, rfl, rfl, rfl⟩

end Conversion

end FluentPlan
