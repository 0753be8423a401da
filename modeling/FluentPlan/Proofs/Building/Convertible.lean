import FluentPlan.Proofs.Building.Origin
import FluentPlan.Proofs.Building.Times

/-!
What code builds can be converted. Each node was met by the signature that made it, resolves to that
signature again and has a call by it; and it has children only if the signature takes some. The
induction is on how the tree was created.
-/

namespace FluentPlan

open Build Script Catalog

namespace Build

/-! ### Nodes -/

theorem enabled_of_construct {s : Signature} {values : List (Param × Option Value)}
    {children : List Operand} {chain : List (Invocation Operand)} {e : Element}
    (h : (construct s values children chain).outcome = .ok e) : e.enabled = true := by
  obtain ⟨_, _, _, _, _, -, -, -, -, rfl⟩ := exists_of_construct h
  rfl

theorem acceptsChildren_of_checkLeading {s : Signature} {children : List Operand}
    (h : checkLeading s children = .ok ()) (hne : children ≠ []) : s.acceptsChildren = true := by
  cases children with
  | nil => exact absurd rfl hne
  | cons a as =>
    unfold checkLeading at h
    split_ifs at h with ha
    · cases h
    · cases h
    · simpa using ha

theorem acceptsChildren_of_checkChain {s : Signature} {chain : List (Invocation Operand)}
    (h : checkChain s chain = .ok ()) {c : Invocation Operand} (hc : c ∈ chain)
    (hn : c.name = childrenMethod) : s.acceptsChildren = true := by
  induction chain with
  | nil => cases hc
  | cons d chain ih =>
    rw [checkChain] at h
    split_ifs at h with hd ha
    · obtain ⟨-, -, h⟩ := exists_of_bind_eq_ok h
      rcases List.mem_cons.mp hc with rfl | hc
      · exact absurd hn hd
      · exact ih h hc
    · cases h
    · simpa using ha

/-- Only signatures that take children make elements with some. -/
theorem Makes.acceptsChildren {s : Signature} {line : Nat} {name : String} {leading : List Expr}
    {children : List Operand} {chain : List (Invocation Operand)} {e : Element}
    (h : Makes s line name leading children chain e) (hne : e.children ≠ []) :
    s.acceptsChildren = true := by
  have hes := elements_of_makes h
  obtain ⟨values, -, hmade⟩ := h.values
  by_cases hchildren : children = []
  · -- then there are children in a chained call
    have hchained : chainedChildren chain ≠ [] := by
      intro hnil
      rw [hchildren, hnil] at hes
      exact hne (Except.ok.inj hes).symm
    obtain ⟨a, ha⟩ := List.exists_mem_of_ne_nil _ hchained
    obtain ⟨c, hc, -⟩ := List.mem_flatMap.mp ha
    obtain ⟨hc, hn⟩ := List.mem_filter.mp hc
    exact acceptsChildren_of_checkChain h.chained hc (of_decide_eq_true hn)
  · exact acceptsChildren_of_checkLeading (checkLeading_of_construct hmade) hchildren

/-- What a signature made has a call by the signature. -/
theorem Makes.exists_ownCall {s : Signature} (hs : s ∈ Registry.standard.signatures) {line : Nat}
    {name : String} {leading : List Expr} {children : List Operand}
    {chain : List (Invocation Operand)} {e : Element}
    (h : Makes s line name leading children chain e) (o : Options) :
    ∃ r, Element.ownCall o s e = .ok r := by
  rcases Signature.restorable_of_mem hs with rfl | hr
  · exact exists_ownCall_rampHoldThreadGroup h o
  · exact hr.exists_ownCall (List.all_eq_true.mp Registry.isUnmixed_standard s hs)
      (List.all_eq_true.mp Registry.numbersAll_standard s hs)
      (List.all_eq_true.mp Registry.isComparable_standard s hs) o
      (h.written (List.all_eq_true.mp Registry.isOrderly_standard s hs))

/-- A created element is enabled, so that no options drop it. -/
theorem Creates.enabled {r : Registry} {p : Program} {depth : Nat} {stack : List String} {x : Expr}
    {e : Element} {t : Origin} : Creates r p depth stack x e t → e.enabled = true
  | .helper _ _ h => h.enabled
  | .call _ _ hm _ => by
    obtain ⟨-, leading, children, -, hmakes⟩ := makes_of_makeCall hm
    obtain ⟨values, -, hmade⟩ := hmakes.values
    exact enabled_of_construct hmade

theorem Creates.drops_eq {r : Registry} {p : Program} {depth : Nat} {stack : List String} {x : Expr}
    {e : Element} {t : Origin} (h : Creates r p depth stack x e t) (o : Options) :
    o.drops e = false := by
  rw [Options.drops, h.enabled]
  rfl

/-! ### Trees -/

variable {p : Program} {o : Options}

mutual

/-- All nodes of a created tree have signatures. -/
theorem Creates.outcome_resolve {depth : Nat} {stack : List String} {x : Expr} {e : Element}
    {t : Origin} (path : String) : Creates .standard p depth stack x e t →
      (e.resolve .standard o path).outcome = .ok ()
  | .helper _ _ h => h.outcome_resolve path
  | .call _ _ hm hc =>
    Element.resolve_of_resolve? (resolve?_of_makeCall hm) (hc.outcome_resolveAll path)

theorem CreatesAll.outcome_resolveAll {depth : Nat} {stack : List String} {xs : List Expr}
    {es : List Element} {ts : List Origin} (path : String) :
    CreatesAll .standard p depth stack xs es ts →
      (Element.resolveAll .standard o path es).outcome = .ok ()
  | .nil => rfl
  | .cons h hs =>
    Element.resolveAll_cons_of_resolve (h.drops_eq o) (h.outcome_resolve _)
      (hs.outcome_resolveAll path)

end

mutual

/-- A created tree has a call. -/
theorem Creates.exists_assemble {depth : Nat} {stack : List String} {x : Expr} {e : Element}
    {t : Origin} (path : String) : Creates .standard p depth stack x e t →
      ∃ c, (e.assemble .standard o path).outcome = .ok c
  | .helper _ _ h => h.exists_assemble path
  | .call (s := s) _ _ hm hc => by
    obtain ⟨hs, leading, children, -, hmakes⟩ := makes_of_makeCall hm
    obtain ⟨own, hown⟩ := hmakes.exists_ownCall (Registry.mem_forMethod.mp hs).1 o
    have hresolved := resolve?_of_makeCall hm
    cases own with
    | none => exact ⟨_, Element.assemble_of_ownCall_none hresolved hown⟩
    | some own =>
      obtain ⟨calls, hcalls⟩ := hc.exists_assembleAll s hmakes.acceptsChildren path
      exact ⟨_, Element.assemble_of_ownCall hresolved hown hcalls⟩

theorem CreatesAll.exists_assembleAll {depth : Nat} {stack : List String} {xs : List Expr}
    {es : List Element} {ts : List Origin} (s : Signature) (ha : es ≠ [] → s.acceptsChildren = true)
    (path : String) : CreatesAll .standard p depth stack xs es ts →
      ∃ calls, (Element.assembleAll .standard o s path es).outcome = .ok calls
  | .nil => ⟨[], rfl⟩
  | .cons h hs => by
    have haccepts := ha (List.cons_ne_nil _ _)
    obtain ⟨c, hc⟩ := h.exists_assemble _
    obtain ⟨cs, hcs⟩ := hs.exists_assembleAll s (fun _ => haccepts) path
    exact ⟨c :: cs, Element.assembleAll_cons_of_assemble (h.drops_eq o) haccepts hc hcs⟩

end

end Build

/-! ### Conversions -/

/-- A fresh conversion of what a source text builds is done with code, whatever the options. -/
theorem Conversion.exists_run_of_ofSource {source : String} {e : Element}
    (h : (Element.ofSource .standard source).outcome = .ok e) (o : Options) (base : String) :
    let ended := (⟨.standard, o, .idle, none⟩ : Conversion).run e base
    ∃ g, ended.2.outcome = .ok g ∧ ended.1.phase = .done ∧ ended.1.failure = none := by
  intro ended
  obtain ⟨p, -, ⟨t, ht⟩, -⟩ := Element.resolves_of_ofSource h
  obtain ⟨root, hroot⟩ := ht.exists_assemble (o := o) e.label
  obtain ⟨g, hg⟩ := Call.exists_generate o base.toList
    (Element.check_assemble Registry.isComparable_standard hroot)
  have hcode : ended.2.outcome = .ok g :=
    Conversion.run_of_generate rfl (ht.outcome_resolve _) hroot hg
  rcases Conversion.run_cases o e base with hdone | ⟨_, _, hfail, -⟩ | ⟨_, _, hfail, -⟩
  · exact hdone
  · cases hcode.symm.trans hfail
  · cases hcode.symm.trans hfail

theorem Conversion.outcome_ofRegistry_standard :
    (Conversion.ofRegistry .standard {}).outcome = .ok ⟨.standard, {}, .idle, none⟩ := by
  rfl

/-- What a source text builds is converted into code with default options: there is a conversion for them,
and it is done with code. -/
theorem Element.converts_of_ofSource {source : String} {e : Element}
    (h : (Element.ofSource .standard source).outcome = .ok e) (base : String) :
    ∃ c, (Conversion.ofRegistry .standard {}).outcome = .ok c ∧
      ∃ g, (c.run e base).2.outcome = .ok g ∧ (c.run e base).1.phase = .done ∧
        (c.run e base).1.failure = none :=
  ⟨_, Conversion.outcome_ofRegistry_standard, Conversion.exists_run_of_ofSource h {} base⟩

/-- A group that ramps up and holds; what it holds is stored behind what it ramps up, in whole seconds. -/
theorem Element.converts_of_ofSource_rampedGroup :
    let source := "threadGroup().rampToAndHold(2, Duration.ofMillis(2500), Duration.ofSeconds(5))"
    let e : Element := ⟨"ThreadGroup", some "Thread Group", true, .ofList
      [("ThreadGroup.num_threads", "2"), (Catalog.Plan.rampTime, "2"), ("ThreadGroup.duration", "7"),
        ("ThreadGroup.scheduler", "true")], []⟩
    (Element.ofSource .standard source).outcome = .ok e ∧
      ∃ c, (Conversion.ofRegistry .standard {}).outcome = .ok c ∧
        ∃ g, (c.run e "").2.outcome = .ok g ∧ (c.run e "").1.phase = .done ∧
          (c.run e "").1.failure = none := by
  intro source e
  let program : Program := ⟨[], .call ⟨⟨1, 1⟩, "threadGroup", []⟩
    [⟨⟨1, 15⟩, "rampToAndHold", [.number ⟨1, 29⟩ "2",
      .call ⟨⟨1, 32⟩, "Duration.ofMillis", [.number ⟨1, 50⟩ "2500"]⟩ [],
      .call ⟨⟨1, 57⟩, "Duration.ofSeconds", [.number ⟨1, 76⟩ "5"]⟩ []]⟩]⟩
  have hparse : parse source = .ok program := by
    subst source
    cbv
  let d : Draft := ⟨.ofList [("ThreadGroup.num_threads", "2"), (Catalog.Plan.rampTime, "2"),
    ("ThreadGroup.duration", "7")], []⟩
  have hgroup : (ofProgram .standard program).outcome = .ok e := by
    refine ofCall_of_makeCall (s := Catalog.Plan.rampHoldThreadGroup)
      (makeCall_of_forms Registry.forMethod_threadGroup (show _ = Except.ok ([], []) from rfl) ?_)
    refine tryForms_of_met _ _ (show _ = Except.ok [(Catalog.Plan.threadGroupName, _)] from rfl) rfl ?_
      ((Signature.unmet?_eq_none_iff _ _).mpr ⟨rfl, by decide⟩)
    exact outcome_construct rfl rfl (show _ = Except.ok [] from rfl)
      (show _ = Except.ok (d, []) from rfl) (show _ = Except.ok d.props from rfl)
  have hbuilt : (Element.ofSource .standard source).outcome = .ok e :=
    (outcome_ofSource hparse).trans hgroup
  exact ⟨hbuilt, Element.converts_of_ofSource hbuilt ""⟩

end FluentPlan
