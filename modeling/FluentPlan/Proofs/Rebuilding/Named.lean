import FluentPlan.Proofs.Rebuilding.Retold

/-!
Names that a round trip keeps. Every element of the tree that is built from the code of a plan has the
name of the element whose call it was built from, or the default name where that has none, with one
exception: a name that refers to a variable comes back as the text that shows the reference.
-/

namespace FluentPlan

open Build Script Text Element Catalog.Plan Catalog.Controller

namespace Signature

/-- Whether a signature takes a name. -/
def takesName (s : Signature) : Bool := s.scalarParams.any (·.kind = .displayName)

/-- Whether a name stands in front of parameters that are always written, and is by itself the default
name of the signature. -/
def namesFirst (s : Signature) : Bool :=
  match s.scalarParams with
  | [] => true
  | p :: rest =>
    !p.kind.isVariadic &&
      rest.all (fun q => q.mandatory && !q.kind.isVariadic && decide (q.kind ≠ .displayName)) &&
      (decide (p.kind ≠ .displayName) || match p.default with
        | some (.text d) => decide (s.defaultName = some d) && !isDynamic d
        | _ => false)

/-- The name with which an element comes back from its code. -/
def nameAgain (s : Signature) (e : Element) : Option String :=
  if s.takesName then
    match nonempty e.name with
    | none => s.defaultName
    | some n => some (if isDynamic n then (Value.dynamic n).plainText else n)
  else s.defaultName

end Signature

/-- Whether each node of a tree has the name with which the node in its place comes back. -/
inductive KeepsName (o : Options) : Element → Element → Prop
  | node {e e' : Element} {s : Signature} (h : Registry.standard.resolve? e = .ok s)
    (hn : e'.name = s.nameAgain e)
    (hc : List.Forall₂ (KeepsName o) (spoken .standard o e.children) e'.children) :
    KeepsName o e e'

theorem Registry.namesFirst_standard :
    Registry.standard.signatures.all Signature.namesFirst = true := by decide +kernel

/-! ### Names as values -/

/-- A name as the value of a parameter. -/
def nameValue (n : String) : Value := if isDynamic n then .dynamic n else .text n

theorem plainText_nameValue (n : String) :
    (nameValue n).plainText = if isDynamic n then (Value.dynamic n).plainText else n := by
  unfold nameValue
  split <;> rfl

namespace Param

variable {p : Param} (hk : p.kind = .displayName)
include hk

theorem exprs_nameValue (n : String) : p.exprs (some (nameValue n)) = [.text .start n] := by
  unfold nameValue
  split
  · rfl
  · exact exprs_name hk n

theorem fromArg_nameValue {n : String} {a : Expr} (ha : a.unplaced = .text .start n) :
    p.fromArg a = .ok (some (nameValue n)) := by
  unfold nameValue
  split
  · next hn => exact fromArg_of_isDynamic p hn ha
  · next hn =>
    obtain ⟨pos, rfl⟩ := Expr.eq_text_of_unplaced ha
    exact fromArg_text (.inr (.inl hk)) (by simpa using hn) pos

variable {d : String} (hd : p.default = some (.text d))
include hd

/-- A parameter for names reads the name of an element, or the default where there is none. -/
theorem valueOf_nameValue (hdd : isDynamic d = false) (e : Element) :
    p.valueOf e "" = .ok (some (nameValue ((nonempty e.name).getD d))) := by
  have hdefault : nameValue d = .text d := by simp [nameValue, hdd]
  simp only [valueOf, hk, extract, parse, hd]
  cases e.name with
  | none => simp [nonempty, hdefault]
  | some n =>
    cases he : n.isEmpty with
    | true => simp [nonempty, Option.filter, he, hdefault]
    | false =>
      cases hn : isDynamic n <;>
        simp [nonempty, Option.filter, he, hn, nameValue, ParamKind.read]

theorem nameValue_of_isDefault {n : String} (h : p.isDefault (some (nameValue n)) = true) :
    p.default = some (nameValue n) := by
  unfold nameValue at h ⊢
  split at h
  · cases h
  · next hn =>
    have hsame : (Value.text n).same (.text d) = true := by
      simpa [isDefault, isDefault?, hk, hd] using h
    have heq : n = d := by simpa [Value.same, Value.number?] using hsame
    rw [if_neg hn, hd, heq]

end Param

/-! ### Names in calls -/

namespace Build

theorem name_of_construct {s : Signature} {values : List (Param × Option Value)}
    {children : List Operand} {chain : List (Invocation Operand)} {e : Element}
    (h : (construct s values children chain).outcome = .ok e) :
    e.name = nameOf s.defaultName values := by
  obtain ⟨_, _, _, _, _, -, -, -, -, rfl⟩ := exists_of_construct h
  rfl

theorem bindScalars_singleton {p : Param} (hv : p.kind.isVariadic = false) {a : Expr}
    {v : Option Value} (h : p.fromArg a = .ok v) (line : Nat) (name : String) :
    bindScalars [p] line name [a] = .ok [(p, v)] := by
  have hb : bindValues (fun _ => true) [p] [a] = .ok [(p, v)] := by
    simp only [bindValues, hv, h, Bool.not_true, Bool.false_eq_true, if_false, ok_bind]
    rfl
  simp [bindScalars, fits, hv, hb]

/-- Each parameter that is always written has one argument. -/
theorem length_flatMap_exprs {ws : List (Param × Option Value)}
    (hws : ∀ x ∈ ws, x.1.mandatory = true ∧ x.1.kind.isVariadic = false) :
    (ws.flatMap fun x => (Arg.scalar x.1 x.2).exprs).length = ws.length := by
  rw [length_flatMap_of_forall (p := fun _ => true), List.countP_true]
  intro x hx
  obtain ⟨hm, hv⟩ := hws x hx
  obtain ⟨y, hy⟩ := Param.exists_exprs_eq hv x.2
  simp [Arg.exprs, Arg.isRendered, hm, hy]

section

variable {p : Param} (hk : p.kind = .displayName) {rest : List Param}
  (hrest : ∀ q ∈ rest, q.mandatory = true ∧ q.kind.isVariadic = false) {line : Nat} {name : String}
  {values : List (Param × Option Value)}
include hk hrest

/-- Whether a parameter has an argument or not is told by how many there are. -/
theorem bindScalars_cons_eq_ok {as : List Expr}
    (h : bindScalars (p :: rest) line name as = .ok values) :
    (as.length = rest.length + 1 ∧ bindValues (fun _ => true) (p :: rest) as = .ok values) ∨
      (as.length = (if p.mandatory then rest.length + 1 else rest.length) ∧
        bindValues (·.mandatory) (p :: rest) as = .ok values) := by
  have hall : rest.filter (·.mandatory) = rest :=
    List.filter_eq_self.mpr fun q hq => (hrest q hq).1
  have hv : ∀ q ∈ p :: rest, q.kind.isVariadic = false :=
    List.forall_mem_cons.mpr ⟨by rw [hk]; rfl, fun q hq => (hrest q hq).2⟩
  refine (bindScalars_eq_ok hv h).imp id (And.imp_left fun hlen => ?_)
  rw [hlen, List.filter_cons, hall]
  split_ifs <;> rfl

theorem exists_values_of_said {n : String} {a : Expr} (ha : a.unplaced = .text .start n)
    {as : List Expr} (hlen : as.length = rest.length)
    (h : bindScalars (p :: rest) line name (a :: as) = .ok values) :
    ∃ more, values = (p, some (nameValue n)) :: more ∧ more.map Prod.fst = rest := by
  have hv : p.kind.isVariadic = false := by
    rw [hk]
    rfl
  have htaken {taken : Param → Bool} (ht : taken p = true)
      (hb : bindValues taken (p :: rest) (a :: as) = .ok values) :
      ∃ more, values = (p, some (nameValue n)) :: more ∧ more.map Prod.fst = rest := by
    simp only [bindValues, ht, hv, Bool.not_true, Bool.false_eq_true, if_false,
      Param.fromArg_nameValue hk ha, ok_bind] at hb
    obtain ⟨more, hmore, hb⟩ := exists_of_bind_eq_ok hb
    cases hb
    exact ⟨more, rfl, map_fst_of_bindValues hmore⟩
  rcases bindScalars_cons_eq_ok hk hrest h with ⟨-, hb⟩ | ⟨hbrief, hb⟩
  · exact htaken rfl hb
  · cases hm : p.mandatory with
    | true => exact htaken hm hb
    | false =>
      rw [if_neg (by simp [hm]), List.length_cons] at hbrief
      omega

theorem exists_values_of_unsaid (hm : p.mandatory = false) {as : List Expr}
    (hlen : as.length = rest.length)
    (h : bindScalars (p :: rest) line name as = .ok values) :
    ∃ more, values = (p, p.default) :: more ∧ more.map Prod.fst = rest := by
  rcases bindScalars_cons_eq_ok hk hrest h with ⟨hfull, -⟩ | ⟨-, hb⟩
  · omega
  · simp only [bindValues, hm, Bool.not_false, if_true] at hb
    obtain ⟨more, hmore, hb⟩ := exists_of_bind_eq_ok hb
    cases hb
    exact ⟨more, rfl, map_fst_of_bindValues hmore⟩

/-- The first parameter gets the name that is said, or that is left out because it is the default. -/
theorem exists_values_name {d : String} (hd : p.default = some (.text d)) {n : String}
    {ws : List (Param × Option Value)}
    (hws : ∀ x ∈ ws, x.1.mandatory = true ∧ x.1.kind.isVariadic = false)
    (hlen : rest.length = ws.length) {leading : List Expr}
    (hl : leading.map Expr.unplaced =
      ((p, some (nameValue n)) :: ws).flatMap fun x => (Arg.scalar x.1 x.2).exprs)
    (h : bindScalars (p :: rest) line name leading = .ok values) :
    ∃ more, values = (p, some (nameValue n)) :: more ∧ more.map Prod.fst = rest := by
  have hcount := length_flatMap_exprs hws
  rw [List.flatMap_cons] at hl
  cases hr : (Arg.scalar p (some (nameValue n))).isRendered with
  | true =>
    rw [Arg.exprs, if_pos hr, Param.exprs_nameValue hk, List.singleton_append] at hl
    obtain ⟨a, as, rfl, ha, has⟩ := List.map_eq_cons_iff.mp hl
    exact exists_values_of_said hk hrest ha (by rw [hlen, ← hcount, ← has, List.length_map]) h
  | false =>
    simp only [Arg.isRendered, Bool.or_eq_false_iff, Bool.not_eq_false'] at hr
    obtain ⟨hm, hdefault⟩ := hr
    have hnone : (Arg.scalar p (some (nameValue n))).exprs = [] := by
      simp [Arg.exprs, Arg.isRendered, hm, hdefault]
    rw [hnone, List.nil_append] at hl
    rw [← Param.nameValue_of_isDefault hk hd hdefault]
    exact exists_values_of_unsaid hk hrest hm (by rw [hlen, ← hcount, ← hl, List.length_map]) h

end

end Build

/-! ### Signatures -/

namespace Signature

variable {s t : Signature} {p : Param} {rest : List Param}

theorem namesFirst_cons (h : s.namesFirst = true) (hp : s.scalarParams = p :: rest) :
    p.kind.isVariadic = false ∧
      (∀ q ∈ rest, q.mandatory = true ∧ q.kind.isVariadic = false ∧ q.kind ≠ .displayName) ∧
      (p.kind = .displayName →
        ∃ d, p.default = some (.text d) ∧ s.defaultName = some d ∧ isDynamic d = false) := by
  rw [namesFirst, hp] at h
  simp only [Bool.and_eq_true, Bool.or_eq_true, Bool.not_eq_true', List.all_eq_true,
    decide_eq_true_eq] at h
  obtain ⟨⟨hv, hrest⟩, hname⟩ := h
  refine ⟨hv, fun q hq => ⟨(hrest q hq).1.1, (hrest q hq).1.2, (hrest q hq).2⟩, fun hk => ?_⟩
  have hname := hname.resolve_left (not_not_intro hk)
  split at hname
  · next d hd =>
    simp only [Bool.and_eq_true, decide_eq_true_eq, Bool.not_eq_true'] at hname
    exact ⟨d, hd, hname.1, hname.2⟩
  · cases hname

theorem isVariadic_of_namesFirst (h : s.namesFirst = true) :
    ∀ q ∈ s.scalarParams, q.kind.isVariadic = false := by
  cases hp : s.scalarParams with
  | nil => exact fun q hq => absurd hq List.not_mem_nil
  | cons p rest =>
    obtain ⟨hv, hrest, -⟩ := namesFirst_cons h hp
    exact List.forall_mem_cons.mpr ⟨hv, fun q hq => (hrest q hq).2.1⟩

/-- A signature takes a name if its first parameter does. -/
theorem takesName_eq (h : s.namesFirst = true) :
    s.takesName = s.scalarParams.head?.any (·.kind = .displayName) := by
  cases hp : s.scalarParams with
  | nil => rw [takesName, hp]; rfl
  | cons p rest =>
    obtain ⟨-, hrest, -⟩ := namesFirst_cons h hp
    have hnone : rest.any (fun q => q.kind = .displayName) = false :=
      List.any_eq_false.mpr fun q hq => by simpa using (hrest q hq).2.2
    rw [takesName, hp, List.any_cons, hnone, Bool.or_false]
    rfl

end Signature

/-- Forms that take the code of each other begin with the same parameter. -/
theorem formAgain_alike (s : Signature) (e : Element) :
    (formAgain s e).scalarParams.head? = s.scalarParams.head? ∧
      (formAgain s e).scalarParams.length = s.scalarParams.length ∧
      (formAgain s e).defaultName = s.defaultName := by
  unfold formAgain
  split
  · next h =>
    rw [h.1]
    exact ⟨rfl, rfl, rfl⟩
  · exact ⟨rfl, rfl, rfl⟩

namespace MadeAgain

variable {s : Signature} (hs : s ∈ Registry.standard.signatures) {e e' : Element}
  (h : MadeAgain s e e')
include hs h

/-- What is made by a form without a name has the default name. -/
theorem name_eq_default (hname : s.takesName = false) : e'.name = s.defaultName := by
  obtain ⟨-, -, ht, hmakes⟩ := h
  obtain ⟨hhead, -, hdefault⟩ := formAgain_alike s e
  have hfirst := List.all_eq_true.mp Registry.namesFirst_standard s hs
  have hfirst' := List.all_eq_true.mp Registry.namesFirst_standard _ ht
  rw [Signature.takesName_eq hfirst, ← hhead, ← Signature.takesName_eq hfirst'] at hname
  obtain ⟨values, hfst, hmade⟩ := hmakes.map_fst (Signature.isVariadic_of_namesFirst hfirst')
  have hnone : ∀ x ∈ values, x.1.kind ≠ .displayName := by
    rw [Signature.takesName, ← hfst] at hname
    intro x hx
    simpa using List.any_eq_false.mp hname x.1 (List.mem_map_of_mem hx)
  rw [name_of_construct hmade, nameOf_of_not_displayName hnone, hdefault]

/-- What is made by a form with a name has the name that is said, or the default name. -/
theorem name_eq_nameValue {p : Param} {rest : List Param} (hp : s.scalarParams = p :: rest)
    (hk : p.kind = .displayName) {d : String} (hd : p.default = some (.text d))
    (hdd : isDynamic d = false) :
    e'.name = some (nameValue ((nonempty e.name).getD d)).plainText := by
  obtain ⟨hv, hl, ht, hmakes⟩ := h
  obtain ⟨hhead, hlength, -⟩ := formAgain_alike s e
  obtain ⟨rest', hp'⟩ : ∃ rest', (formAgain s e).scalarParams = p :: rest' := by
    rw [hp] at hhead
    exact ⟨_, List.eq_cons_of_mem_head? hhead⟩
  have hfirst := List.all_eq_true.mp Registry.namesFirst_standard s hs
  have hfirst' := List.all_eq_true.mp Registry.namesFirst_standard _ ht
  obtain ⟨-, hrest, -⟩ := Signature.namesFirst_cons hfirst hp
  obtain ⟨-, hrest', -⟩ := Signature.namesFirst_cons hfirst' hp'
  have hvs := valuesOf_eq_ok hv
  rw [hp] at hvs
  obtain ⟨⟨q, v⟩, ws, ⟨rfl, hvalue⟩, hws, rfl⟩ := List.forall₂_cons_left_iff.mp hvs
  rw [Param.valueOf_nameValue hk hd hdd] at hvalue
  cases hvalue
  have hsaid : ∀ x ∈ ws, x.1.mandatory = true ∧ x.1.kind.isVariadic = false := by
    intro x hx
    obtain ⟨q, hq, rfl, -⟩ := exists_of_forall₂ hws hx
    exact ⟨(hrest _ hq).1, (hrest _ hq).2.1⟩
  have hlen : rest'.length = ws.length := by
    rw [hp', hp, List.length_cons, List.length_cons] at hlength
    rw [← hws.length_eq]
    omega
  obtain ⟨values, hbind, hmade⟩ := hmakes.values
  rw [hp'] at hbind
  obtain ⟨more, rfl, hmore⟩ := exists_values_name hk
    (fun q hq => ⟨(hrest' q hq).1, (hrest' q hq).2.1⟩) hd hsaid hlen hl hbind
  have hnone : ∀ x ∈ more, x.1.kind ≠ .displayName :=
    fun x hx => (hrest' x.1 (hmore ▸ List.mem_map_of_mem hx)).2.2
  rw [name_of_construct hmade, nameOf_cons, if_pos hk, nameOf_of_not_displayName hnone]
  rfl

/-- An element that is made again has the name that the code gives it. -/
theorem name_eq : e'.name = s.nameAgain e := by
  have hfirst := List.all_eq_true.mp Registry.namesFirst_standard s hs
  cases hname : s.takesName with
  | false =>
    rw [name_eq_default hs h hname, Signature.nameAgain, hname]
    rfl
  | true =>
    cases hp : s.scalarParams with
    | nil =>
      rw [Signature.takesName, hp] at hname
      cases hname
    | cons p rest =>
      have hk : p.kind = .displayName := by
        rw [Signature.takesName_eq hfirst, hp] at hname
        simpa using hname
      obtain ⟨d, hd, hown, hdd⟩ := (Signature.namesFirst_cons hfirst hp).2.2 hk
      rw [name_eq_nameValue hs h hp hk hd hdd, plainText_nameValue, Signature.nameAgain, if_pos hname]
      cases nonempty e.name with
      | none => rw [Option.getD_none, hdd, hown]; rfl
      | some n => rfl

end MadeAgain

/-- Every element that is built from the code of a plan has the name of the element whose call it was
built from. It has the default name where that has no name or its signature takes none, and where the
name refers to a variable a text that shows the reference. The elements of the plan are enabled; their
calls are in the order of their categories, without those that have no effect. -/
theorem keepsName_ofSource_run {o : Options} (ho : o.hasProperIndent = true) (hh : o.hoist = false)
    {c : Conversion} (hc : Conversion.create .standard o = .ok c) {e : Element}
    (he : e.allEnabled = true) {base : String} (hb : base.toList.all isIndent = true) {g : Generated}
    (hg : (c.run e base).2.outcome = .ok g)
    (hd : ∀ root, (e.assemble .standard o e.label).outcome = .ok root → root.HasDottedClasses)
    {e' : Element} (hbuilt : (Element.ofSource .standard g.toSource).outcome = .ok e') :
    KeepsName o e e' := by
  refine related_ofSource_run (fun hs hmade hchildren => ?_) ho hh hc he hb hg hd hbuilt
  exact .node hs (hmade.name_eq (Registry.resolve?_eq_ok hs).1) hchildren

/-! ### A controller that loses its name -/

/-- A controller that is named by a variable. -/
def variableController : Element := ⟨"GenericController", some "$\x7bn\x7d", true, .empty, []⟩

/-- A controller that is named by what shows the reference. -/
def shownController : Element :=
  ⟨"GenericController", some "DynamicExpression(text=\x27$\x7bn\x7d\x27)", true, .empty, []⟩

/-- The call of the controller, which names it by the reference. -/
def variableCall (o : Options) : Call :=
  ⟨ownHead o simpleController variableController
    [.scalar (.name "Simple Controller") (some (.dynamic "$\x7bn\x7d")), .children], [], []⟩

theorem resolve?_variableController :
    Registry.standard.resolve? variableController = .ok simpleController :=
  Registry.resolve?_of_first rfl rfl rfl

theorem assemble_variableController (o : Options) (path : String) :
    (variableController.assemble .standard o path).outcome = .ok (variableCall o) :=
  assemble_of_ownCall resolve?_variableController (by rfl) (by rfl)

/-- What the code of a controller comes to, wherever it stands. -/
theorem evaluate_simpleController {scope : Scope} (hr : scope.registry = .standard)
    (hd : scope.program.definitions = []) (pos inner : Position) (n : String) :
    (evaluate scope (.call ⟨pos, "simpleController", [.text inner n]⟩ [])).outcome =
      .ok ⟨"GenericController", some (nameValue n).plainText, true, .empty, []⟩ := by
  rw [evaluate]
  simp only [Scope.call, Program.definition?, hd, List.find?_nil, hr]
  have hbind : bindScalars simpleController.scalarParams pos.line "simpleController"
      [.text inner n] = .ok [(.name "Simple Controller", some (nameValue n))] :=
    bindScalars_singleton rfl (Param.fromArg_nameValue rfl rfl) _ _
  refine ofCall_of_first (show _ = simpleController :: [] from rfl)
    (show _ = Except.ok ([.text inner n], []) from rfl) hbind rfl ?_
    ((Signature.unmet?_eq_none_iff _ _).mpr ⟨rfl, rfl⟩)
  have hchain : (applyChain simpleController [] ⟨.empty, []⟩).outcome = .ok (⟨.empty, []⟩, []) := rfl
  have hnone : (elements []).outcome = .ok [] := rfl
  exact outcome_construct rfl rfl hnone hchain (show _ = Except.ok Properties.empty from rfl)

/-- The code of a controller that is named by a variable names it by what shows the reference. -/
theorem evaluate_variableController {scope : Scope} (hr : scope.registry = .standard)
    (hd : scope.program.definitions = []) (pos inner : Position) :
    (evaluate scope (.call ⟨pos, "simpleController", [.text inner "$\x7bn\x7d"]⟩ [])).outcome =
      .ok shownController := by
  have hdynamic : isDynamic "$\x7bn\x7d" = true := rfl
  rw [evaluate_simpleController hr hd, plainText_nameValue, if_pos hdynamic]
  rfl

/-- The code of a controller that is named by a variable builds a controller of another name. -/
theorem exists_name_lost :
    let o : Options := { hoist := false }
    ∃ g : Generated,
      ((⟨.standard, o, .idle, none⟩ : Conversion).run variableController "").2.outcome = .ok g ∧
      g.toSource = "simpleController(\"$\x7bn\x7d\")\n" ∧
      (Element.ofSource .standard g.toSource).outcome = .ok shownController ∧
      Registry.standard.resolve? variableController = .ok simpleController ∧
      simpleController.takesName = true ∧ shownController.name ≠ variableController.name := by
  intro o
  let g : Generated := .ofCall ⟨o.indent.toList, o.textBlocks⟩ "".toList (variableCall o) []
  have hres : (variableController.resolve .standard o variableController.label).outcome = .ok () :=
    resolve_of_resolve? resolve?_variableController (by rfl)
  have hcall : (variableCall o).code ⟨o.indent.toList, o.textBlocks⟩ "".toList false true =
      "simpleController(\"$\x7bn\x7d\")".toList := by
    subst o
    decide +kernel
  have hcode : g.toSource = "simpleController(\"$\x7bn\x7d\")\n" := by
    rw [Generated.toSource_ofCall, hcall]
    rfl
  have htokens : tokenize g.toSource = .ok [⟨.ident, "simpleController", ⟨1, 1⟩⟩,
      ⟨.op, "(", ⟨1, 17⟩⟩, ⟨.text, "$\x7bn\x7d", ⟨1, 18⟩⟩, ⟨.op, ")", ⟨1, 24⟩⟩,
      ⟨.eof, "", ⟨2, 1⟩⟩] := by
    rw [Generated.toSource_ofCall, hcall]
    cbv
  have hparse : parse g.toSource = .ok
      ⟨[], .call ⟨⟨1, 1⟩, "simpleController", [.text ⟨1, 18⟩ "$\x7bn\x7d"]⟩ []⟩ := by
    rw [parse, htokens]
    rfl
  have hbuilt : (Element.ofSource .standard g.toSource).outcome = .ok shownController :=
    (outcome_ofSource hparse).trans (evaluate_variableController rfl rfl _ _)
  exact ⟨g, Conversion.run_of_generate rfl hres (assemble_variableController o _) (by rfl), hcode,
    hbuilt, resolve?_variableController, rfl, by decide⟩

/-- Two controllers of a plan, of which one keeps its name. -/
theorem keepsName_ofSource_run_quotedController :
    let o : Options := { hoist := false }
    let quoted : Element := ⟨"GenericController", some "say \"hi\"", true, .empty, []⟩
    let e : Element := ⟨"TestPlan", none, true, .empty, [variableController, quoted]⟩
    let c : Conversion := ⟨.standard, o, .idle, none⟩
    let quotedCall : Call := ⟨ownHead o simpleController quoted
      [.scalar (.name "Simple Controller") (some (.text "say \"hi\"")), .children], [], []⟩
    let root : Call := ⟨ownHead o testPlan e [.children], [variableCall o, quotedCall], []⟩
    let g : Generated := .ofCall ⟨o.indent.toList, o.textBlocks⟩ "".toList root []
    let e' : Element := ⟨"TestPlan", some "Test Plan", true, .ofList
      [("TestPlan.serialize_threadgroups", "false"), ("TestPlan.tearDown_on_shutdown", "true")],
      [shownController, quoted]⟩
    (o.hasProperIndent = true ∧ o.hoist = false ∧ Conversion.create .standard o = .ok c ∧
      e.allEnabled = true ∧ "".toList.all isIndent = true ∧ (c.run e "").2.outcome = .ok g ∧
      (∀ r, (e.assemble .standard o e.label).outcome = .ok r → r.HasDottedClasses) ∧
      (Element.ofSource .standard g.toSource).outcome = .ok e') ∧ KeepsName o e e' := by
  intro o quoted e c quotedCall root g e'
  have hquoted : Registry.standard.resolve? quoted = .ok simpleController :=
    Registry.resolve?_of_first rfl rfl rfl
  have he : Registry.standard.resolve? e = .ok testPlan := Registry.resolve?_of_first rfl rfl rfl
  have hroot : (e.assemble .standard o e.label).outcome = .ok root := by
    have hcall (path : String) : (quoted.assemble .standard o path).outcome = .ok quotedCall :=
      assemble_of_ownCall hquoted (by rfl) (by rfl)
    have horder : Call.order o.categories [variableCall o, quotedCall] =
        [variableCall o, quotedCall] :=
      List.mergeSort_of_pairwise (by simp [variableCall, quotedCall, ownHead])
    rw [assemble_of_ownCall he (by rfl)
      (assembleAll_cons_of_assemble rfl rfl (assemble_variableController o _)
        (assembleAll_cons_of_assemble rfl rfl (hcall _) (by rfl)))]
    unfold withChildren attach
    rw [horder]
    rfl
  have hres : (e.resolve .standard o e.label).outcome = .ok () :=
    resolve_of_resolve? he (resolveAll_cons_of_resolve rfl
      (resolve_of_resolve? resolve?_variableController (by rfl)) (resolveAll_cons_of_resolve rfl
        (resolve_of_resolve? hquoted (by rfl)) (by rfl)))
  have hrun : (c.run e "").2.outcome = .ok g :=
    Conversion.run_of_generate rfl hres hroot (by rfl)
  have hd : ∀ r, (e.assemble .standard o e.label).outcome = .ok r → r.HasDottedClasses := by
    intro r hr
    rw [hroot] at hr
    cases hr
    have hname : (Param.name "Simple Controller").kind ≠ .classRef := by decide
    simp [Call.HasDottedClasses, root, quotedCall, variableCall, Call.walk, ownHead,
      Arg.HasDottedClass, hname]
  -- what the code says, node by node
  let variable' : Expr :=
    .call ⟨⟨2, 3⟩, "simpleController", [.text ⟨2, 20⟩ "$\x7bn\x7d"]⟩ []
  let said : Expr := .call ⟨⟨3, 3⟩, "simpleController", [.text ⟨3, 20⟩ "say \"hi\""]⟩ []
  let program : Program := ⟨[], .call ⟨⟨1, 1⟩, "testPlan", [variable', said]⟩ []⟩
  let scope : Scope :=
    ⟨.standard, program, [], fun d => .fail (problem (.recursive d.line ([] ++ [d.name])))⟩
  have hparse : parse g.toSource = .ok program := by
    have hcode : root.code ⟨o.indent.toList, o.textBlocks⟩ "".toList false true =
        ("testPlan(\n  simpleController(\"$\x7bn\x7d\"),\n" ++
          "  simpleController(\"say \\\"hi\\\"\")\n)").toList := by
      subst root quotedCall e quoted o
      decide +kernel
    rw [Generated.toSource_ofCall, hcode]
    cbv
  have hchildren : (elements (operands scope [variable', said])).outcome =
      .ok [shownController, quoted] := by
    have hvariable : (evaluate scope variable').outcome = .ok shownController :=
      evaluate_variableController rfl rfl _ _
    have hsaid : (evaluate scope said).outcome = .ok quoted := by
      have hstatic : isDynamic "say \"hi\"" = false := rfl
      rw [evaluate_simpleController rfl rfl, plainText_nameValue, hstatic]
      rfl
    simp only [operands, elements, Logged.outcome_bind, hvariable, hsaid, ok_bind]
    rfl
  have hchild : ∀ a ∈ operands scope [variable', said], a.isChild = true := by
    have hpoint : '.' ∉ "simpleController".toList := by decide +kernel
    intro a ha
    simp only [operands, List.mem_cons, List.not_mem_nil, or_false] at ha
    rcases ha with rfl | rfl <;> exact isChild_call hpoint _ _ _ _
  have hplan : (evaluate scope (.call ⟨⟨1, 1⟩, "testPlan", [variable', said]⟩ [])).outcome = .ok e' :=
    evaluate_testPlan rfl rfl _ hchild hchildren
  have hbuilt : (Element.ofSource .standard g.toSource).outcome = .ok e' :=
    (outcome_ofSource hparse).trans hplan
  have ho : o.hasProperIndent = true := by decide
  have hc : Conversion.create .standard o = .ok c := rfl
  exact ⟨⟨ho, rfl, hc, rfl, rfl, hrun, hd, hbuilt⟩,
    keepsName_ofSource_run ho rfl hc rfl rfl hrun hd hbuilt⟩

end FluentPlan
