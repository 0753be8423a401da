import FluentPlan.Proofs.Rebuilding.Retold

/-!
Forms that a round trip keeps. Every element of the tree that is built from the code of a plan has the
form of the element whose call it was built from, with one exception: of a thread group that says how
often it runs by a reference to a variable the code says, to the builder, how long it runs.
-/

namespace FluentPlan

open Build Script Text Element Catalog.Plan

/-- Whether each node of a tree resolves to the form that takes the code of the node in its place. -/
inductive KeepsForm (o : Options) : Element → Element → Prop
  | node {e e' : Element} {s : Signature} (h : Registry.standard.resolve? e = .ok s)
    (h' : Registry.standard.resolve? e' = .ok (formAgain s e))
    (hc : List.Forall₂ (KeepsForm o) (spoken .standard o e.children) e'.children) :
    KeepsForm o e e'

/-- Every element that is built from the code of a plan resolves to the form of the element whose call it
was built from, or, where that is a thread group with a reference for a number of loops, to the form with
a duration. The elements of the plan are enabled; their calls are in the order of their categories, without
those that have no effect. -/
theorem keepsForm_ofSource_run {o : Options} (ho : o.hasProperIndent = true) (hh : o.hoist = false)
    {c : Conversion} (hc : Conversion.create .standard o = .ok c) {e : Element}
    (he : e.allEnabled = true) {base : String} (hb : base.toList.all isIndent = true) {g : Generated}
    (hg : (c.run e base).2.outcome = .ok g)
    (hd : ∀ root, (e.assemble .standard o e.label).outcome = .ok root → root.HasDottedClasses)
    {e' : Element} (hbuilt : (Element.ofSource .standard g.toSource).outcome = .ok e') :
    KeepsForm o e e' := by
  refine related_ofSource_run (fun hs hmade hchildren => ?_) ho hh hc he hb hg hd hbuilt
  obtain ⟨-, -, hform, hmakes⟩ := hmade
  exact .node hs (hmakes.resolve?_eq hform) hchildren

/-! ### A group that loses its form -/

/-- A thread group that runs as often as a variable says. -/
def loopingGroup : Element :=
  ⟨"ThreadGroup", none, true, .ofList
    [("ThreadGroup.num_threads", "1"), (loopCount, "$\x7bn\x7d")], []⟩

/-- A thread group that runs as long as the variable says. -/
def timedGroup : Element :=
  ⟨"ThreadGroup", some "Thread Group", true, .ofList
    [("ThreadGroup.num_threads", "1"), ("ThreadGroup.duration", "$\x7bn\x7d"),
      ("ThreadGroup.scheduler", "true")], []⟩

/-- The call of the group, which says no more of the variable than that it is one. -/
def loopingCall (o : Options) : Call :=
  ⟨Element.ownHead o threadGroup loopingGroup
    [.scalar threadGroupName (some (.text "Thread Group")), .scalar threadCount (some (.integer 1)),
      .scalar groupLoops (some (.dynamic "$\x7bn\x7d")), .children], [], []⟩

/-- A thread group resolves to the first of the forms that it meets. -/
theorem resolve?_of_forms {before behind : List Signature} {s : Signature}
    (hforms : threadGroupForms = before ++ s :: behind) {e : Element} (hk : e.kind = groupKind)
    (hb : ∀ t ∈ before,
      (t.hasRequired e.properties && t.guard.all (·.accepts e.properties)) = false)
    (hs : (s.hasRequired e.properties && s.guard.all (·.accepts e.properties)) = true) :
    Registry.standard.resolve? e = .ok s := by
  refine Registry.resolve?_of_forKind (hk ▸ Registry.forKind_threadGroup.trans hforms) (fun t ht hmet => ?_)
    ((s.unmet?_eq_none_iff _).mpr (Bool.and_eq_true_iff.mp hs))
  have hrefused := hb t ht
  rw [Bool.and_eq_true_iff.mpr ((t.unmet?_eq_none_iff _).mp hmet)] at hrefused
  cases hrefused

theorem resolve?_loopingGroup : Registry.standard.resolve? loopingGroup = .ok threadGroup :=
  resolve?_of_forms (show _ = [rampHoldThreadGroup, rampThreadGroup, durationThreadGroup] ++ _ from rfl)
    rfl (by decide) (by decide)

theorem resolve?_timedGroup : Registry.standard.resolve? timedGroup = .ok durationThreadGroup :=
  resolve?_of_forms (show _ = [rampHoldThreadGroup, rampThreadGroup] ++ _ from rfl)
    rfl (by decide) (by decide)

theorem assemble_loopingGroup (o : Options) (path : String) :
    (loopingGroup.assemble .standard o path).outcome = .ok (loopingCall o) :=
  Element.assemble_of_ownCall resolve?_loopingGroup (by rfl) (by rfl)

/-- What the code of the group comes to, wherever it stands. -/
theorem evaluate_loopingGroup {scope : Scope} (hr : scope.registry = .standard)
    (hd : scope.program.definitions = []) (pos count loops : Position) :
    (evaluate scope (.call ⟨pos, "threadGroup",
      [.number count "1", .text loops "$\x7bn\x7d"]⟩ [])).outcome = .ok timedGroup := by
  rw [evaluate]
  simp only [Scope.call, Program.definition?, hd, List.find?_nil, hr]
  refine ofCall_of_makeCall (s := durationThreadGroup) (makeCall_of_forms Registry.forMethod_threadGroup
    (show _ = Except.ok ([.number count "1", .text loops "$\x7bn\x7d"], []) from rfl) ?_)
  rw [tryForms_of_refused _ _ _ _ rfl rfl, tryForms_of_refused _ _ _ _ rfl rfl]
  exact tryForms_of_met _ _ rfl rfl rfl ((Signature.unmet?_eq_none_iff _ _).mpr ⟨rfl, rfl⟩)

/-- The code of a thread group with a reference for a number of loops builds another form. -/
theorem exists_form_lost :
    let o : Options := { hoist := false }
    ∃ g : Generated,
      ((⟨.standard, o, .idle, none⟩ : Conversion).run loopingGroup "").2.outcome = .ok g ∧
      g.toSource = "threadGroup(1, \"$\x7bn\x7d\")\n" ∧
      (Element.ofSource .standard g.toSource).outcome = .ok timedGroup ∧
      Registry.standard.resolve? loopingGroup = .ok threadGroup ∧
      Registry.standard.resolve? timedGroup = .ok durationThreadGroup ∧
      durationThreadGroup ≠ threadGroup := by
  intro o
  let g : Generated := .ofCall ⟨o.indent.toList, o.textBlocks⟩ "".toList (loopingCall o) []
  have hres : (loopingGroup.resolve .standard o loopingGroup.label).outcome = .ok () :=
    Element.resolve_of_resolve? resolve?_loopingGroup (by rfl)
  have hcall : (loopingCall o).code ⟨o.indent.toList, o.textBlocks⟩ "".toList false true =
      "threadGroup(1, \"$\x7bn\x7d\")".toList := by
    subst o
    decide +kernel
  have hcode : g.toSource = "threadGroup(1, \"$\x7bn\x7d\")\n" := by
    rw [Generated.toSource_ofCall, hcall]
    rfl
  have hparse : parse g.toSource = .ok
      ⟨[], .call ⟨⟨1, 1⟩, "threadGroup", [.number ⟨1, 13⟩ "1", .text ⟨1, 16⟩ "$\x7bn\x7d"]⟩ []⟩ := by
    rw [Generated.toSource_ofCall, hcall]
    cbv
  have hbuilt : (Element.ofSource .standard g.toSource).outcome = .ok timedGroup :=
    (outcome_ofSource hparse).trans (evaluate_loopingGroup rfl rfl _ _ _)
  exact ⟨g, Conversion.run_of_generate rfl hres (assemble_loopingGroup o _) (by rfl), hcode, hbuilt,
    resolve?_loopingGroup, resolve?_timedGroup, by decide⟩

/-- Two thread groups of a plan, of which one keeps its form. -/
theorem keepsForm_ofSource_run_groupPlan :
    let o : Options := { hoist := false }
    let fixed : Element := ⟨"ThreadGroup", none, true, .ofList
      [("ThreadGroup.num_threads", "2"), (loopCount, "3")], []⟩
    let e : Element := ⟨"TestPlan", none, true, .empty, [loopingGroup, fixed]⟩
    let c : Conversion := ⟨.standard, o, .idle, none⟩
    let fixedCall : Call := ⟨Element.ownHead o threadGroup fixed
      [.scalar threadGroupName (some (.text "Thread Group")), .scalar threadCount (some (.integer 2)),
        .scalar groupLoops (some (.integer 3)), .children], [], []⟩
    let root : Call := ⟨Element.ownHead o testPlan e [.children], [loopingCall o, fixedCall], []⟩
    let g : Generated := .ofCall ⟨o.indent.toList, o.textBlocks⟩ "".toList root []
    let fixed' : Element := ⟨"ThreadGroup", some "Thread Group", true, .ofList
      [("ThreadGroup.num_threads", "2"), (loopCount, "3")], []⟩
    let e' : Element := ⟨"TestPlan", some "Test Plan", true, .ofList
      [("TestPlan.serialize_threadgroups", "false"), ("TestPlan.tearDown_on_shutdown", "true")],
      [timedGroup, fixed']⟩
    (o.hasProperIndent = true ∧ o.hoist = false ∧ Conversion.create .standard o = .ok c ∧
      e.allEnabled = true ∧ "".toList.all isIndent = true ∧ (c.run e "").2.outcome = .ok g ∧
      (∀ r, (e.assemble .standard o e.label).outcome = .ok r → r.HasDottedClasses) ∧
      (Element.ofSource .standard g.toSource).outcome = .ok e') ∧ KeepsForm o e e' := by
  intro o fixed e c fixedCall root g fixed' e'
  have hfixed : Registry.standard.resolve? fixed = .ok threadGroup :=
    resolve?_of_forms (show _ = [rampHoldThreadGroup, rampThreadGroup, durationThreadGroup] ++ _ from rfl)
      rfl (by decide) (by decide)
  have he : Registry.standard.resolve? e = .ok testPlan := Registry.resolve?_of_first rfl rfl rfl
  have hroot : (e.assemble .standard o e.label).outcome = .ok root := by
    have hcall (path : String) : (fixed.assemble .standard o path).outcome = .ok fixedCall :=
      Element.assemble_of_ownCall hfixed (by rfl) (by rfl)
    have horder : Call.order o.categories [loopingCall o, fixedCall] = [loopingCall o, fixedCall] :=
      List.mergeSort_of_pairwise (by simp [loopingCall, fixedCall, Element.ownHead])
    rw [Element.assemble_of_ownCall he (by rfl)
      (Element.assembleAll_cons_of_assemble rfl rfl (assemble_loopingGroup o _)
        (Element.assembleAll_cons_of_assemble rfl rfl (hcall _) (by rfl)))]
    unfold Element.withChildren Element.attach
    rw [horder]
    rfl
  have hres : (e.resolve .standard o e.label).outcome = .ok () :=
    Element.resolve_of_resolve? he (Element.resolveAll_cons_of_resolve rfl
      (Element.resolve_of_resolve? resolve?_loopingGroup (by rfl)) (Element.resolveAll_cons_of_resolve rfl
        (Element.resolve_of_resolve? hfixed (by rfl)) (by rfl)))
  have hrun : (c.run e "").2.outcome = .ok g :=
    Conversion.run_of_generate rfl hres hroot (by rfl)
  have hd : ∀ r, (e.assemble .standard o e.label).outcome = .ok r → r.HasDottedClasses := by
    intro r hr
    rw [hroot] at hr
    cases hr
    have hname : threadGroupName.kind ≠ .classRef := by decide
    simp [Call.HasDottedClasses, root, fixedCall, loopingCall, Call.walk, Element.ownHead,
      Arg.HasDottedClass, hname]
  -- what the code says, node by node
  let looping : Expr :=
    .call ⟨⟨2, 3⟩, "threadGroup", [.number ⟨2, 15⟩ "1", .text ⟨2, 18⟩ "$\x7bn\x7d"]⟩ []
  let counted : Expr := .call ⟨⟨3, 3⟩, "threadGroup", [.number ⟨3, 15⟩ "2", .number ⟨3, 18⟩ "3"]⟩ []
  let program : Program := ⟨[], .call ⟨⟨1, 1⟩, "testPlan", [looping, counted]⟩ []⟩
  let scope : Scope :=
    ⟨.standard, program, [], fun d => .fail (problem (.recursive d.line ([] ++ [d.name])))⟩
  have hparse : parse g.toSource = .ok program := by
    have hcode : root.code ⟨o.indent.toList, o.textBlocks⟩ "".toList false true =
        "testPlan(\n  threadGroup(1, \"$\x7bn\x7d\"),\n  threadGroup(2, 3)\n)".toList := by
      subst root fixedCall e fixed o
      decide +kernel
    rw [Generated.toSource_ofCall, hcode]
    cbv
  have hcounted : (evaluate scope counted).outcome = .ok fixed' := by
    refine ofCall_of_makeCall (s := threadGroup) (makeCall_of_forms Registry.forMethod_threadGroup
      (show _ = Except.ok ([.number ⟨3, 15⟩ "2", .number ⟨3, 18⟩ "3"], []) from rfl) ?_)
    rw [tryForms_of_refused _ _ _ _ rfl rfl, tryForms_of_refused _ _ _ _ rfl rfl,
      tryForms_of_refused _ _ _ _ rfl rfl]
    exact tryForms_of_met _ _ rfl rfl rfl ((Signature.unmet?_eq_none_iff _ _).mpr ⟨rfl, rfl⟩)
  have hchildren : (elements (operands scope [looping, counted])).outcome =
      .ok [timedGroup, fixed'] := by
    have hlooping : (evaluate scope looping).outcome = .ok timedGroup :=
      evaluate_loopingGroup rfl rfl _ _ _
    simp only [operands, elements, Logged.outcome_bind, hlooping, hcounted, ok_bind]
    rfl
  have hchild : ∀ a ∈ operands scope [looping, counted], a.isChild = true := by
    have hpoint : '.' ∉ "threadGroup".toList := by decide +kernel
    intro a ha
    simp only [operands, List.mem_cons, List.not_mem_nil, or_false] at ha
    rcases ha with rfl | rfl <;> exact isChild_call hpoint _ _ _ _
  have hplan : (evaluate scope (.call ⟨⟨1, 1⟩, "testPlan", [looping, counted]⟩ [])).outcome = .ok e' :=
    evaluate_testPlan rfl rfl _ hchild hchildren
  have hbuilt : (Element.ofSource .standard g.toSource).outcome = .ok e' :=
    (outcome_ofSource hparse).trans hplan
  have ho : o.hasProperIndent = true := by decide
  have hc : Conversion.create .standard o = .ok c := rfl
  exact ⟨⟨ho, rfl, hc, rfl, rfl, hrun, hd, hbuilt⟩,
    keepsForm_ofSource_run ho rfl hc rfl rfl hrun hd hbuilt⟩

end FluentPlan
