import FluentPlan.Proofs.Building.Origin
import FluentPlan.Proofs.Rebuilding.FixedPoint
import FluentPlan.Proofs.Rebuilding.GroupForm

/-!
What is told again. The code of a plan is read element by element: what it builds of the call of an
element is made by the form that takes the code of the element, from its arguments and from what is
built of its children. So what each step of this keeps is kept of the whole plan.
-/

namespace FluentPlan

open Build Script Text Element Catalog.Plan

namespace Element

/-- Whether an element has no effect, so that its call is left out of code. -/
def isSilent (r : Registry) (o : Options) (e : Element) : Bool :=
  match r.resolve? e with
  | .ok s =>
    match ownCall o s e with
    | .ok none => true
    | _ => false
  | .error _ => false

/-- The category of the call of an element. -/
def category (r : Registry) (e : Element) : String :=
  match r.resolve? e with
  | .ok s => s.category
  | .error _ => ""

/-- The elements that have calls in code, in the order of the calls. -/
def spoken (r : Registry) (o : Options) (es : List Element) : List Element :=
  (orderBy (category r) o.categories es).filter fun e => !e.isSilent r o

end Element

/-! ### Order -/

/-- What relates two lists item by item, and their items by category, relates their orders. -/
theorem forall₂_orderBy {α β : Type} {R : α → β → Prop} {f : α → String} {g : β → String}
    (hcat : ∀ a b, R a b → f a = g b) {as : List α} {bs : List β} (h : List.Forall₂ R as bs)
    (categories : List String) :
    List.Forall₂ R (orderBy f categories as) (orderBy g categories bs) := by
  obtain ⟨ps, rfl, rfl⟩ : ∃ ps : List {p : α × β // R p.1 p.2},
      ps.map (fun p => p.1.1) = as ∧ ps.map (fun p => p.1.2) = bs := by
    induction h with
    | nil => exact ⟨[], rfl, rfl⟩
    | @cons a b as bs hab _ ih =>
      obtain ⟨ps, rfl, rfl⟩ := ih
      exact ⟨⟨(a, b), hab⟩ :: ps, rfl, rfl⟩
  have hsame : (fun p : {p : α × β // R p.1 p.2} => f p.1.1) = fun p => g p.1.2 :=
    funext fun p => hcat _ _ p.2
  rw [← orderBy_map (fun p : {p : α × β // R p.1 p.2} => p.1.1) f,
    ← orderBy_map (fun p : {p : α × β // R p.1 p.2} => p.1.2) g, hsame]
  rw [List.forall₂_map_left_iff, List.forall₂_map_right_iff]
  exact List.forall₂_same.mpr fun p _ => p.2

/-- What is next to the same items is related as they say. -/
theorem forall₂_of_both {α β γ : Type} {R : α → β → Prop} {Q : β → γ → Prop} {as : List α}
    {bs : List β} (hr : List.Forall₂ R as bs) {cs : List γ}
    (hq : List.Forall₂ (fun a c => ∀ b, R a b → Q b c) as cs) : List.Forall₂ Q bs cs := by
  induction hr generalizing cs with
  | nil =>
    cases hq
    exact .nil
  | @cons a b as bs hab _ ih =>
    obtain ⟨c, cs, hac, hcs, rfl⟩ := List.forall₂_cons_left_iff.mp hq
    exact .cons (hac b hab) (ih hcs)

/-! ### Calls -/

/-- Whether a call is that of an element: what says it builds only elements to which the element is
related. -/
structure Call.Retells (R : Element → Element → Prop) (o : Options) (c : Call) (e : Element) :
    Prop where
  silent : c.isEmpty = e.isSilent .standard o
  category : c.head.category = e.category .standard
  plain : c.isEmpty = false → isPlainName c.head.method = true
  related : c.isEmpty = false → ∀ {scope : Scope}, scope.registry = .standard →
    scope.program.definitions = [] → ∀ {x : Expr}, x.unplaced = c.toExpr → ∀ {e' : Element},
      (evaluate scope x).outcome = .ok e' → R e e'

/-- Whether an element is made by the form that takes the code of another one, from its arguments. -/
inductive MadeAgain (s : Signature) (e e' : Element) : Prop
  | intro {vs : List (Param × Option Value)} {leading : List Expr} {line : Nat}
    {children : List Operand} {chain : List (Invocation Operand)} (hv : scalarValues s e = .ok vs)
    (hl : leading.map Expr.unplaced = vs.flatMap fun x => (Arg.scalar x.1 x.2).exprs)
    (hs : formAgain s e ∈ Registry.standard.signatures)
    (h : Makes (formAgain s e) line s.method leading children chain e')

/-- Whether elements are related to what is made again of them, if their children are. -/
def LiftsTo (o : Options) (R : Element → Element → Prop) : Prop :=
  ∀ {e e' : Element} {s : Signature}, Registry.standard.resolve? e = .ok s → MadeAgain s e e' →
    List.Forall₂ R (spoken .standard o e.children) e'.children → R e e'

theorem chainedChildren_append {invs tail : List (Invocation Operand)}
    (hi : ∀ inv ∈ invs, inv.name ≠ childrenMethod) (ht : IsTail tail) :
    chainedChildren (invs ++ tail) = tail.flatMap (·.args) := by
  have hnone : invs.filter (fun c => c.name = childrenMethod) = [] := by
    simpa [List.filter_eq_nil_iff] using hi
  have htail : tail.filter (fun c => c.name = childrenMethod) = tail := by
    rcases ht with rfl | ⟨inv, rfl, hname⟩
    · rfl
    · simp [hname]
  rw [chainedChildren, List.filter_append, hnone, htail, List.nil_append]

namespace Element

variable {R : Element → Element → Prop} {o : Options}

theorem forall₂_spoken {cs : List Call} {es : List Element}
    (h : List.Forall₂ (Call.Retells R o) cs es) :
    List.Forall₂ (Call.Retells R o)
      ((Call.order o.categories cs).filter fun c => !c.isEmpty) (spoken .standard o es) :=
  List.rel_filter (fun c e hce => by simp only [hce.silent])
    (forall₂_orderBy (fun c e hce => hce.category) h o.categories)

/-- The call of an element retells it if those of its children retell them. -/
theorem retells_withChildren (hR : LiftsTo o R) {e : Element} {s : Signature}
    (hs : Registry.standard.resolve? e = .ok s) {head : CallHead} {chain : List Call}
    (hown : ownCall o s e = .ok (some (head, chain))) {calls : List Call}
    (hc : List.Forall₂ (Call.Retells R o) calls e.children) :
    (withChildren o s head chain calls).Retells R o e := by
  have hmem := (Registry.resolve?_eq_ok hs).1
  obtain ⟨vs, hv, ⟨-, -, hnone⟩ | ⟨hdef, links, hlinks, hsome⟩⟩ := ownCall_eq_ok hown
  · cases hnone
  cases hsome
  obtain ⟨blocks, hm, hflat, hb⟩ := exists_blocks hlinks
  rw [← hflat]
  refine ⟨?_, ?_, fun _ => isPlainName_withChildren hmem, fun _ {scope} hr hd {x} hx {e'} he => ?_⟩
  · rw [Call.isEmpty, head_withChildren, isSilent, hs]
    simp only [hown]
    rfl
  · rw [head_withChildren, category, hs]
    rfl
  · have hplain : ∀ c ∈ calls, c.isEmpty = false → isPlainName c.head.method = true := by
      intro c hc' hne
      obtain ⟨e, -, hce⟩ := exists_of_forall₂ hc.flip hc'
      exact hce.plain hne
    obtain ⟨t, line, leading, children, invs, tail, kids, hfirst, hl, hi, htail, hchildren, hk⟩ :=
      exists_makesFirst hmem hv hm hb hplain hr hd hx he
    obtain rfl := eq_formAgain hv hl hm hb hi htail hmem hfirst
    have hnames : ∀ inv ∈ invs, inv.name ≠ childrenMethod := by
      intro inv hinv
      obtain ⟨c, hc, hsaid⟩ := exists_of_forall₂ hi.flip hinv
      obtain ⟨b, hb', hc⟩ := List.mem_flatMap.mp hc
      rw [hsaid.1, method_of_modifierCalls (hb b hb') hc]
      exact (Registry.modifiers_standard s hmem b.1 (hm ▸ List.mem_map_of_mem hb')).1
    have hes := elements_of_makes hfirst.makes
    rw [chainedChildren_append hnames htail, hchildren] at hes
    have hmade : MadeAgain s e e' :=
      .intro hv hl (Registry.mem_forMethod.mp hfirst.mem).1 hfirst.makes
    refine hR hs hmade (forall₂_of_both (forall₂_spoken hc)
      (forall₂_of_elements (fun c hc _ hx _ he b hcb => ?_) hk hes))
    exact hcb.related (by simpa using (List.mem_filter.mp hc).2) hr hd hx he

theorem enabled_of_allEnabled {e : Element} (h : e.allEnabled = true) : e.enabled = true := by
  cases e
  exact (Bool.and_eq_true_iff.mp h).1

mutual

/-- The call of an element retells it. -/
theorem retells_assemble (hR : LiftsTo o R) : (e : Element) → e.allEnabled = true →
    ∀ {path : String} {c : Call}, (assemble .standard o path e).outcome = .ok c → c.Retells R o e
  | ⟨kind, name, enabled, properties, children⟩ => by
    intro hen path c h
    obtain ⟨hen, hkids⟩ := Bool.and_eq_true_iff.mp hen
    obtain ⟨s, hs, ⟨hown, rfl⟩ | ⟨head, chain, calls, hown, hcalls, rfl⟩⟩ := assemble_eq_ok h
    · refine ⟨?_, ?_, nofun, nofun⟩
      · simp only [isSilent, hs, hown]
        rfl
      · simp only [category, hs]
        rfl
    · exact retells_withChildren hR hs hown (retells_assembleAll hR children hkids hcalls)

theorem retells_assembleAll (hR : LiftsTo o R) {s : Signature} : (es : List Element) →
    allEnabledAll es = true → ∀ {path : String} {calls : List Call},
      (assembleAll .standard o s path es).outcome = .ok calls →
        List.Forall₂ (Call.Retells R o) calls es
  | [] => by
    intro _ path calls h
    cases h
    exact .nil
  | e :: es => by
    intro hen path calls h
    obtain ⟨hen, hrest⟩ := Bool.and_eq_true_iff.mp hen
    rcases assembleAll_cons_eq_ok h with ⟨hdrop, -⟩ | ⟨-, -, c, cs, hc, hcs, rfl⟩
    · rw [Options.drops, enabled_of_allEnabled hen] at hdrop
      cases hdrop
    · exact .cons (retells_assemble hR e hen hc) (retells_assembleAll hR es hrest hcs)

end

end Element

/-- A plan is related to what is built from its code if elements are related to what is made again of
them. The elements of the plan are enabled; their calls are in the order of their categories, without
those that have no effect. -/
theorem related_ofSource_run {R : Element → Element → Prop} {o : Options} (hR : LiftsTo o R)
    (ho : o.hasProperIndent = true) (hh : o.hoist = false)
    {c : Conversion} (hc : Conversion.create .standard o = .ok c) {e : Element}
    (he : e.allEnabled = true) {base : String} (hb : base.toList.all isIndent = true) {g : Generated}
    (hg : (c.run e base).2.outcome = .ok g)
    (hd : ∀ root, (e.assemble .standard o e.label).outcome = .ok root → root.HasDottedClasses)
    {e' : Element} (hbuilt : (Element.ofSource .standard g.toSource).outcome = .ok e') : R e e' := by
  obtain rfl := Conversion.create_eq_ok hc
  obtain ⟨-, root, hroot, hgen⟩ := Conversion.exists_root_of_run hg
  obtain ⟨-, rfl⟩ := Call.generate_eq_ok hh hgen
  rw [Generated.toSource_ofCall] at hbuilt
  have hindent : (Style.mk o.indent.toList o.textBlocks).indent.all isIndent = true := ho
  obtain ⟨hempty, scope, hr, hdefs, x, hx, hx'⟩ :=
    Element.exists_evaluate_of_ofSource he hroot (hd root hroot) hindent hb hbuilt
  exact (retells_assemble hR e he hroot).related hempty hr hdefs hx hx'

/-! ### Plans without settings -/

namespace Build

theorem isChild_call {name : String} (h : '.' ∉ name.toList) (pos : Position) (args : List Expr)
    (chain : List (Invocation Expr)) (element : Unit → Logged Element) :
    Operand.isChild ⟨.call ⟨pos, name, args⟩ chain, element⟩ = true := by
  simpa [Operand.isChild] using h

/-- What the code of a plan comes to that says no more than its children. -/
theorem evaluate_testPlan {scope : Scope} (hr : scope.registry = .standard)
    (hd : scope.program.definitions = []) (pos : Position) {args : List Expr}
    (hchild : ∀ a ∈ operands scope args, a.isChild = true) {es : List Element}
    (hes : (elements (operands scope args)).outcome = .ok es) :
    (evaluate scope (.call ⟨pos, "testPlan", args⟩ [])).outcome =
      .ok ⟨"TestPlan", some "Test Plan", true, .ofList
        [("TestPlan.serialize_threadgroups", "false"), ("TestPlan.tearDown_on_shutdown", "true")],
        es⟩ := by
  have hleading : checkLeading testPlan (operands scope args) = .ok () := by
    cases operands scope args <;> rfl
  rw [evaluate]
  simp only [Scope.call, Program.definition?, hd, List.find?_nil, hr]
  refine ofCall_of_first (show _ = testPlan :: [] from rfl)
    (divide_append (fun a ha => absurd ha List.not_mem_nil) hchild) rfl rfl ?_
    ((Signature.unmet?_eq_none_iff _ _).mpr ⟨rfl, rfl⟩)
  rw [outcome_construct rfl hleading hes (show _ = Except.ok (⟨.empty, []⟩, []) from rfl)
    (show _ = Except.ok (.ofList [("TestPlan.serialize_threadgroups", "false"),
      ("TestPlan.tearDown_on_shutdown", "true")]) from rfl), List.append_nil]
  rfl

end Build

end FluentPlan
