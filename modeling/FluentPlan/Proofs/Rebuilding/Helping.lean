import FluentPlan.Proofs.Code.Helper
import FluentPlan.Proofs.Hoisting.Expansion
import FluentPlan.Proofs.Rebuilding.Hoisted

/-!
Programs with helper methods. What a plan and its helper methods say is evaluated to an element exactly
if all calls in them are taken: each helper method is called from the plan, at last, and no call of one
leads back to it. So the code that is generated for a plan builds an element exactly if all calls of the
plan are taken, which a call is not that passes null for what is required.
-/

namespace FluentPlan

open Build Script Call Text

namespace Helper

/-- Whether all calls in a helper method are taken, and in all that it leads to. -/
def AllTakenFrom (helpers : List Helper) (name : String) : Prop :=
  ∀ f ∈ helpers, Relation.ReflTransGen (Refers helpers) name f.name → f.body.AllTaken

theorem allTakenFrom_iff {helpers : List Helper} (hn : (helpers.map (·.name)).Nodup) {f : Helper}
    (hf : f ∈ helpers) : AllTakenFrom helpers f.name ↔
      f.body.AllTaken ∧
        ∀ d ∈ f.body.walk, d.isReference = true → AllTakenFrom helpers d.head.method := by
  have hsame {g : Helper} (hg : g ∈ helpers) (h : g.name = f.name) : g = f :=
    List.inj_on_of_nodup_map hn hg hf h
  constructor
  · intro h
    refine ⟨h f hf .refl, fun d hd hr g hg hreach => h g hg (hreach.head ?_)⟩
    exact ⟨f, hf, rfl, d, hd, hr, rfl⟩
  · rintro ⟨hbody, hrefs⟩ g hg hreach
    rcases Relation.ReflTransGen.cases_head hreach with hname | ⟨_, ⟨b, hb, hname, d, hd, hr, rfl⟩, hrest⟩
    · rw [hsame hg hname.symm]
      exact hbody
    · obtain rfl := hsame hb hname
      exact hrefs d hd hr g hg hrest

end Helper

open Helper

/-- What a program says that is written for a plan and its helper methods. -/
structure Script.Program.Tells (p : Program) (s : Hoisting) : Prop where
  expr : p.expr.unplaced = s.root.toExpr
  definitions : List.Forall₂ (fun f d => d.name = f.name ∧ d.body.unplaced = f.body.toExpr)
    s.helpers p.definitions

namespace Script.Program.Tells

variable {p : Program} {s : Hoisting} (h : p.Tells s)

include h

theorem names_eq : p.definitions.map (·.name) = s.names := by
  have hnames : List.Forall₂ (· = ·) s.names (p.definitions.map (·.name)) := by
    rw [Hoisting.names, List.forall₂_map_left_iff, List.forall₂_map_right_iff]
    exact h.definitions.imp fun f d hd => hd.1.symm
  rw [List.forall₂_eq_eq_eq] at hnames
  exact hnames.symm

theorem definition?_eq_none {name : String} (hn : name ∉ s.names) : p.definition? name = none := by
  rw [Program.definition?, List.find?_eq_none]
  intro d hd hname
  rw [← h.names_eq] at hn
  exact hn (of_decide_eq_true hname ▸ List.mem_map_of_mem hd)

theorem exists_definition? {name : String} (hn : name ∈ s.names) :
    ∃ d, p.definition? name = some d ∧ d.name = name ∧
      ∃ f ∈ s.helpers, f.name = name ∧ d.body.unplaced = f.body.toExpr := by
  rw [← h.names_eq] at hn
  obtain ⟨b, hb, hname⟩ := List.mem_map.mp hn
  cases hd : p.definition? name with
  | none => exact absurd (List.find?_eq_none.mp hd b hb) (by simpa using hname)
  | some d =>
    have hdn : d.name = name := by simpa using List.find?_some hd
    obtain ⟨f, hf, hfn, hbody⟩ := exists_of_forall₂ h.definitions (List.mem_of_find?_eq_some hd)
    exact ⟨d, rfl, hdn, f, hf, hfn ▸ hdn, hbody⟩

end Script.Program.Tells

namespace Helper.Hoisting

variable {o : Options} {root : Call} {s : Hoisting} (ht : Taking o root s)
  (hplain : ∀ name ∈ s.names, isPlainName name = true)

theorem body_mem_roots {s : Hoisting} {f : Helper} (hf : f ∈ s.helpers) : f.body ∈ s.roots :=
  List.mem_cons_of_mem _ (List.mem_map_of_mem hf)

section

variable {p : Program} (hp : p.Tells s)

include hp

/-- What is called and is no helper method has no definition. -/
theorem definition?_eq_none {ρ : String → CallKey} (hs : Sound root.key ρ s) {c d : Call}
    (hc : c ∈ s.roots) (hd : d ∈ c.walk) (hr : d.isReference = false) :
    p.definition? d.head.method = none := by
  refine hp.definition?_eq_none fun hn => ?_
  rw [((hs.tidy c hc).named d hd).mpr hn] at hr
  cases hr

include ht hplain

/-- In bodies that are not being evaluated, a call is evaluated to an element exactly if all calls in it
and in the helper methods that it leads to are taken. The induction is on how deep these are nested. -/
theorem exists_evaluateIn_iff {ρ : String → CallKey} (hs : Sound root.key ρ s) {depth : Nat}
    {stack : List String} {c : Call} (hc : c ∈ s.roots) (hne : c.isEmpty = false)
    (hranks : ∀ d ∈ c.walk, d.isReference = true → s.rank ρ d.head.method ≤ depth ∧
      ∀ name ∈ stack, s.rank ρ d.head.method < s.rank ρ name)
    {x : Expr} (hx : x.unplaced = c.toExpr) :
    (∃ e, (evaluateIn .standard p depth stack x).outcome = .ok e) ↔
      c.AllTaken ∧ ∀ d ∈ c.walk, d.isReference = true → AllTakenFrom s.helpers d.head.method := by
  induction depth generalizing stack c x with
  | zero =>
    have hno := plain_of_rank hs hc fun d hd hr => (hranks d hd hr).1
    refine (ht.composed c hc).exists_evaluate_iff hne (rfl : (Scope.mk .standard p stack _).registry = _)
      (fun d hd hr => definition?_eq_none hp hs hc hd hr) (fun d hd hr => ?_) hx
    rw [hno d hd] at hr
    cases hr
  | succ depth ih =>
    refine (ht.composed c hc).exists_evaluate_iff hne (rfl : (Scope.mk .standard p stack _).registry = _)
      (fun d hd hr => definition?_eq_none hp hs hc hd hr) (fun d hd hr => ?_) hx
    have hname := mem_names_of_isReference hs hc hd hr
    refine ⟨hplain _ hname, fun pos => ?_⟩
    obtain ⟨b, hb, hbn, f, hf, hfn, hbody⟩ := hp.exists_definition? hname
    obtain ⟨hrank, hstack⟩ := hranks d hd hr
    have hfree : d.head.method ∉ stack := fun hmem => Nat.lt_irrefl _ (hstack _ hmem)
    have hcall : Scope.call ⟨.standard, p, stack, fun d =>
        evaluateIn .standard p depth (stack ++ [d.name]) d.body⟩ ⟨pos, d.head.method, []⟩ [] =
          evaluateIn .standard p depth (stack ++ [b.name]) b.body := by
      simp [Scope.call, hb, hbn, hfree]
    rw [hcall, ih (body_mem_roots hf) (ht.bodies f hf) (fun e he her => ?_) hbody, ← hfn,
      allTakenFrom_iff hs.nodup hf]
    have hlt := rank_lt hs hname ⟨f, hf, hfn, e, he, her, rfl⟩
    refine ⟨by omega, fun name hn => ?_⟩
    rcases List.mem_append.mp hn with hn | hn
    · exact Nat.lt_trans hlt (hstack name hn)
    · rw [List.mem_singleton.mp hn, hbn]
      exact hlt

end

omit hplain

include ht

theorem exists_call_of_mem_names {name : String} (hn : name ∈ s.names) :
    ∃ c ∈ s.roots, ∃ d ∈ c.walk, d.head.method = name := by
  have hcount := ht.minimal.twice name hn
  obtain ⟨c, hc, hm⟩ := List.mem_flatMap.mp (List.count_pos_iff.mp (Nat.lt_trans Nat.zero_lt_one hcount))
  obtain ⟨d, hd, hname⟩ := List.mem_map.mp hm
  exact ⟨c, hc, d, hd, hname⟩

/-- Each helper method is called from the plan, by itself or through others: what calls one is of a
higher rank, and ranks are bounded. -/
theorem exists_reaches {ρ : String → CallKey} (hs : Sound root.key ρ s) {name : String}
    (hn : name ∈ s.names) : ∃ d ∈ s.root.walk, d.isReference = true ∧
      Relation.ReflTransGen (Refers s.helpers) d.head.method name := by
  obtain ⟨c, hc, d, hd, hname⟩ := exists_call_of_mem_names ht hn
  have hr := ((hs.tidy c hc).named d hd).mpr (hname ▸ hn)
  rcases List.mem_cons.mp hc with rfl | hc
  · exact ⟨d, hd, hr, hname ▸ .refl⟩
  · obtain ⟨f, hf, rfl⟩ := List.mem_map.mp hc
    have hcaller : f.name ∈ s.names := List.mem_map_of_mem hf
    have hrefers : Refers s.helpers f.name name := ⟨f, hf, rfl, d, hd, hr, hname⟩
    have hlt := rank_lt hs hcaller hrefers
    have hle := rank_le s ρ f.name
    obtain ⟨e, he, her, hreach⟩ := exists_reaches hs hcaller
    exact ⟨e, he, her, hreach.tail hrefers⟩
termination_by s.helpers.length - s.rank ρ name
decreasing_by omega

theorem forall_allTaken_iff : (∀ c ∈ s.roots, c.AllTaken) ↔
    s.root.AllTaken ∧
      ∀ d ∈ s.root.walk, d.isReference = true → AllTakenFrom s.helpers d.head.method := by
  obtain ⟨ρ, hs⟩ := ht.sound
  constructor
  · intro hall
    exact ⟨hall _ List.mem_cons_self, fun d _ _ f hf _ => hall _ (body_mem_roots hf)⟩
  · rintro ⟨hroot, hrefs⟩ c hc
    rcases List.mem_cons.mp hc with rfl | hc
    · exact hroot
    · obtain ⟨f, hf, rfl⟩ := List.mem_map.mp hc
      obtain ⟨d, hd, hr, hreach⟩ := exists_reaches ht hs (List.mem_map_of_mem (f := (·.name)) hf)
      exact hrefs d hd hr f hf hreach

/-- What a plan and its helper methods say builds an element exactly if all calls of the plan are
taken. -/
theorem exists_ofProgram_iff (hplain : ∀ name ∈ s.names, isPlainName name = true) {p : Program}
    (hp : p.Tells s) (hne : root.isEmpty = false) :
    (∃ e, (ofProgram .standard p).outcome = .ok e) ↔ root.AllTaken := by
  obtain ⟨ρ, hs⟩ := ht.sound
  have hlen : p.definitions.length = s.helpers.length := hp.definitions.length_eq.symm
  rw [ofProgram, ← ht.taken, forall_allTaken_iff ht]
  refine exists_evaluateIn_iff ht hplain hp hs List.mem_cons_self ?_ (fun d _ _ => ⟨?_, ?_⟩) hp.expr
  · rwa [isEmpty, ht.head]
  · exact hlen ▸ rank_le s ρ d.head.method
  · exact fun name hname => absurd hname List.not_mem_nil

end Helper.Hoisting

/-! ### Sources -/

theorem Script.Program.Tells.of_unplaced {p : Program} {s : Helper.Hoisting}
    (h : p.unplaced = ⟨s.helpers.map Helper.definition, s.root.toExpr⟩) : p.Tells s where
  expr := congrArg Program.expr h
  definitions := by
    have hdefs : List.Forall₂ (· = ·) (s.helpers.map Helper.definition)
        (p.definitions.map Definition.unplaced) := by
      rw [List.forall₂_eq_eq_eq]
      exact (congrArg Program.definitions h).symm
    rw [List.forall₂_map_left_iff, List.forall₂_map_right_iff] at hdefs
    exact hdefs.imp fun f d hfd =>
      ⟨congrArg Definition.name hfd.symm, congrArg Definition.body hfd.symm⟩

/-- The helper methods that hoisting makes can be read, if their names and bodies can. -/
theorem Helper.Hoisting.Taking.isLive {o : Options} {root : Call} {s : Hoisting} (h : Taking o root s)
    (hlive : ∀ c ∈ s.roots, c.Live) (hn : ∀ name ∈ s.names, isIdentifier name.toList = true) :
    ∀ f ∈ s.helpers, f.IsLive := by
  intro f hf
  have hbody := body_mem_roots hf
  have hne := h.bodies f hf
  refine ⟨hlive _ hbody, hne, hn _ (List.mem_map_of_mem hf), ?_⟩
  obtain ⟨ρ, hs⟩ := h.sound
  rcases (h.composed _ hbody).exists_ownHead hne with href | ⟨s, hs, e, args, hhead⟩
  · rw [(hs.body f hf).1] at href
    cases href
  · rw [hhead]
    exact Registry.isPlainName_returnType hs

/-- What is generated for a call of an element builds an element exactly if all calls in it are taken. -/
theorem Call.exists_ofSource_iff_of_generate {o : Options} (ho : o.hasProperIndent = true) {root : Call}
    (hp : root.Plain) (hc : root.Composed o) (hk : root.IsKnown) (hl : root.Live)
    {indent : List Char} (hi : indent.all isIndent = true) {g : Generated}
    (hg : (root.generate o indent).outcome = .ok g) (hcode : g.code ≠ "")
    (hn : ∀ x ∈ g.helpers, isIdentifier x.1.toList = true) :
    (∃ e, (Element.ofSource .standard g.toSource).outcome = .ok e) ↔ root.AllTaken := by
  obtain ⟨t, fuel, rfl, hrun, ht⟩ := Call.exists_taking_of_generate hp hc hk hg
  have hne : t.root.isEmpty = false := by
    cases hempty : t.root.isEmpty with
    | false => rfl
    | true => exact absurd (congrArg String.ofList (code_of_isEmpty hempty _ _ _ _)) hcode
  have hroot : root.isEmpty = false := by rwa [isEmpty, ← ht.head]
  have hnames : ∀ name ∈ t.names, isIdentifier name.toList = true := by
    intro name hname
    obtain ⟨f, hf, rfl⟩ := List.mem_map.mp hname
    exact hn _ (List.mem_map_of_mem hf)
  have hstart : ∀ c ∈ (Hoisting.start root).roots, c.Live := List.forall_mem_singleton.mpr hl
  obtain ⟨hplain, hlive⟩ := Hoisting.live_run hstart (fun _ h => absurd h List.not_mem_nil) hrun hnames
  obtain ⟨ρ, hs⟩ := ht.sound
  have hindent : (Style.mk o.indent.toList o.textBlocks).indent.all isIndent = true := ho
  obtain ⟨p, hparse, hu⟩ := Generated.parse_toSource (hlive _ List.mem_cons_self) hne
    (ht.isLive hlive hnames) hs.nodup hindent hi
  rw [outcome_ofSource hparse]
  exact Hoisting.exists_ofProgram_iff ht hplain (.of_unplaced hu) hroot

/-- The code of a plan builds an element exactly if all calls of the plan are taken. The elements of the
plan are enabled, its classes are dotted names, and the names of helper methods can be read. -/
theorem exists_ofSource_run_iff {o : Options} (ho : o.hasProperIndent = true) {c : Conversion}
    (hc : Conversion.create .standard o = .ok c) {e : Element} (he : e.allEnabled = true)
    {base : String} (hb : base.toList.all isIndent = true) {g : Generated}
    (hg : (c.run e base).2.outcome = .ok g) (hcode : g.code ≠ "")
    (hn : ∀ x ∈ g.helpers, isIdentifier x.1.toList = true)
    (hd : ∀ root, (e.assemble .standard o e.label).outcome = .ok root → root.HasDottedClasses) :
    ∃ root, (e.assemble .standard o e.label).outcome = .ok root ∧
      ((∃ e', (Element.ofSource .standard g.toSource).outcome = .ok e') ↔ root.AllTaken) := by
  obtain rfl := Conversion.create_eq_ok hc
  obtain ⟨-, root, hroot, hgen⟩ := Conversion.exists_root_of_run hg
  refine ⟨root, hroot, ?_⟩
  exact Call.exists_ofSource_iff_of_generate ho (Element.plain_assemble hroot)
    (Element.composed_assemble e hroot) (Element.isKnown_assemble hroot)
    (Element.live_assemble Registry.isProper_standard e he hroot (hd root hroot)) hb hgen hcode hn

/-! ### Code that says null -/

section

open Element Catalog.Sampler Catalog.Plan Catalog.Controller

/-- A script sampler without a script. -/
def emptyScript : Element := ⟨"JSR223Sampler", none, true, .ofList [("script", "")], []⟩

/-- The call of the sampler, which passes null for its script. -/
def emptyScriptCall (o : Options) : Call :=
  ⟨ownHead o jsr223Sampler emptyScript
    [.scalar (.name "JSR223 Sampler") (some (.text "JSR223 Sampler")),
      .scalar (Param.text "script").require none], [], []⟩

theorem resolve?_emptyScript : Registry.standard.resolve? emptyScript = .ok jsr223Sampler :=
  Registry.resolve?_of_first rfl rfl rfl

theorem assemble_emptyScript (o : Options) (path : String) :
    (emptyScript.assemble .standard o path).outcome = .ok (emptyScriptCall o) :=
  assemble_of_ownCall resolve?_emptyScript (by rfl) (by rfl)

/-- The code of a script sampler without a script builds no element. -/
theorem not_exists_ofSource_run_emptyScript :
    let o : Options := {}
    let c : Conversion := ⟨.standard, o, .idle, none⟩
    ∃ g : Generated, Conversion.create .standard o = .ok c ∧ emptyScript.allEnabled = true ∧
      (c.run emptyScript "").2.outcome = .ok g ∧ g.toSource = "jsr223Sampler(null)\n" ∧
      ¬ ∃ e', (Element.ofSource .standard g.toSource).outcome = .ok e' := by
  intro o c
  let root := emptyScriptCall o
  let g : Generated := .ofCall ⟨o.indent.toList, o.textBlocks⟩ "".toList root []
  have hres : (emptyScript.resolve .standard o emptyScript.label).outcome = .ok () :=
    resolve_of_resolve? resolve?_emptyScript (by rfl)
  have hroot := assemble_emptyScript o emptyScript.label
  have hgen : (root.generate o "".toList).outcome = .ok g := by rfl
  have hcode : root.code ⟨o.indent.toList, o.textBlocks⟩ "".toList false true =
      "jsr223Sampler(null)".toList := by
    subst root o
    decide +kernel
  have hne : g.code ≠ "" := by
    have hg : g.code = "jsr223Sampler(null)" :=
      (congrArg String.ofList hcode).trans String.ofList_toList
    rw [hg]
    decide
  have hclasses : root.HasDottedClasses := by
    have hname : (Param.name "JSR223 Sampler").kind ≠ .classRef := by decide
    simp [Call.HasDottedClasses, root, emptyScriptCall, Call.walk, ownHead, Arg.HasDottedClass, hname]
  have hlive : root.Live := live_assemble Registry.isProper_standard emptyScript rfl hroot hclasses
  have hbuilds := Call.exists_ofSource_iff_of_generate (by decide) (plain_assemble hroot)
    (composed_assemble emptyScript hroot) (isKnown_assemble hroot) hlive (by rfl) hgen hne
    fun x hx => absurd hx List.not_mem_nil
  refine ⟨g, rfl, rfl, Conversion.run_of_generate rfl hres hroot hgen, ?_, fun hbuilt => ?_⟩
  · rw [Generated.toSource_eq, hcode]
    rfl
  · have hgiven := (hbuilds.mp hbuilt root (mem_walk_self root) rfl).given
    cases hgiven (Param.text "script").require (by simp [root, emptyScriptCall, ownHead])

/-! ### A plan with a helper method for two controllers that are alike -/

def innerController : Element := ⟨"GenericController", some "Inner", true, .empty, []⟩

def outerController : Element := ⟨"GenericController", some "Outer", true, .empty, [innerController]⟩

def pairedPlan : Element := ⟨"TestPlan", none, true, .empty, [outerController, outerController]⟩

def innerCall (o : Options) : Call :=
  ⟨ownHead o simpleController innerController
    [.scalar (.name "Simple Controller") (some (.text "Inner")), .children], [], []⟩

def outerCall (o : Options) : Call :=
  ⟨ownHead o simpleController outerController
    [.scalar (.name "Simple Controller") (some (.text "Outer")), .children], [innerCall o], []⟩

/-- The call of the plan, with what stands for each of its controllers. -/
def pairedCall (o : Options) (controller : Call) : Call :=
  ⟨ownHead o testPlan pairedPlan [.children], [controller, controller], []⟩

theorem resolve?_innerController :
    Registry.standard.resolve? innerController = .ok simpleController :=
  Registry.resolve?_of_first rfl rfl rfl

theorem resolve?_outerController :
    Registry.standard.resolve? outerController = .ok simpleController :=
  Registry.resolve?_of_first rfl rfl rfl

theorem resolve?_pairedPlan : Registry.standard.resolve? pairedPlan = .ok testPlan :=
  Registry.resolve?_of_first rfl rfl rfl

theorem resolve_pairedPlan (o : Options) (path : String) :
    (pairedPlan.resolve .standard o path).outcome = .ok () := by
  have hcall (path : String) : (outerController.resolve .standard o path).outcome = .ok () :=
    resolve_of_resolve? resolve?_outerController (resolveAll_cons_of_resolve rfl
      (resolve_of_resolve? resolve?_innerController (by rfl)) (by rfl))
  exact resolve_of_resolve? resolve?_pairedPlan (resolveAll_cons_of_resolve rfl (hcall _)
    (resolveAll_cons_of_resolve rfl (hcall _) (by rfl)))

theorem assemble_outerController (o : Options) (path : String) :
    (outerController.assemble .standard o path).outcome = .ok (outerCall o) := by
  have hinner (path : String) :
      (innerController.assemble .standard o path).outcome = .ok (innerCall o) :=
    assemble_of_ownCall resolve?_innerController (by rfl) (by rfl)
  have horder : Call.order o.categories [innerCall o] = [innerCall o] := List.mergeSort_singleton _
  rw [assemble_of_ownCall resolve?_outerController (by rfl)
    (assembleAll_cons_of_assemble rfl rfl (hinner _) (by rfl))]
  unfold withChildren attach
  rw [horder]
  rfl

theorem assemble_pairedPlan (o : Options) (path : String) :
    (pairedPlan.assemble .standard o path).outcome = .ok (pairedCall o (outerCall o)) := by
  have hcall := assemble_outerController o
  have horder : Call.order o.categories [outerCall o, outerCall o] = [outerCall o, outerCall o] :=
    List.mergeSort_of_pairwise (by simp)
  rw [assemble_of_ownCall resolve?_pairedPlan (by rfl) (assembleAll_cons_of_assemble rfl rfl
    (hcall _) (assembleAll_cons_of_assemble rfl rfl (hcall _) (by rfl)))]
  unfold withChildren attach
  rw [horder]
  rfl

/-- The first step makes a helper method of the controllers, and the second finds nothing to do. -/
theorem hoist_pairedCall (o : Options) :
    (pairedCall o (outerCall o)).hoist.outcome =
      .ok (pairedCall o (.reference "outer" (outerCall o)), [⟨"outer", outerCall o⟩]) := by
  let s := Hoisting.start (pairedCall o (outerCall o))
  let rest := pairedCall o (.reference "outer" (outerCall o))
  let group : Group := ⟨(outerCall o).key, outerCall o, 2⟩
  have hplaces : (pairedCall o (outerCall o)).candidates = [outerCall o, outerCall o] := rfl
  have hpick : pick (Helper.groups s.roots) = some group := by
    simp [s, group, Hoisting.start, Hoisting.roots, Helper.groups, hplaces, tally, tally.go, pick]
  have hname : s.nameFor group.call = "outer" := by
    have htaken : s.taken = ["testPlan", "simpleController", "simpleController",
      "simpleController", "simpleController"] := rfl
    rw [Hoisting.nameFor, htaken, show group.call.labelOrMethod = "Outer" from rfl]
    decide +kernel
  have hreplace : Call.replace group.key (.reference "outer" group.call) s.root = rest := by
    simp [s, group, rest, Hoisting.start, pairedCall, replace_eq, replaced_of_key_eq]
  have hextract : s.extract group = ⟨rest, [⟨"outer", outerCall o⟩], s.taken ++ ["outer"]⟩ := by
    rw [Hoisting.extract, hname, hreplace]
    rfl
  have hend : pick (Helper.groups [rest, outerCall o]) = none := by
    have hnone : rest.candidates = [] ∧ (outerCall o).candidates = [] := ⟨rfl, rfl⟩
    simp [Helper.groups, hnone, pick]
  have hrun : (Hoisting.run 2 s).outcome =
      .ok ⟨rest, [⟨"outer", outerCall o⟩], s.taken ++ ["outer"]⟩ := by
    rw [Hoisting.outcome_run_succ, hpick]
    simp only [hextract]
    rw [Hoisting.outcome_run_succ]
    simp only [Hoisting.roots, List.map_cons, List.map_nil, hend]
  rw [hoist, Logged.outcome_bind, hplaces]
  simp only [List.length_cons, List.length_nil]
  rw [hrun]
  rfl

theorem generate_pairedCall {o : Options} (ho : o.hoist = true) (indent : List Char) :
    ((pairedCall o (outerCall o)).generate o indent).outcome =
      .ok (.ofCall ⟨o.indent.toList, o.textBlocks⟩ indent
        (pairedCall o (.reference "outer" (outerCall o))) [⟨"outer", outerCall o⟩]) := by
  have hcheck : (pairedCall o (outerCall o)).check = .ok () := rfl
  unfold generate
  rw [Logged.outcome_bind, Logged.outcome_ofExcept, hcheck, ok_bind, if_pos ho,
    Logged.outcome_bind, hoist_pairedCall]
  rfl

theorem exists_ofSource_run_pairedPlan :
    let o : Options := {}
    let c : Conversion := ⟨.standard, o, .idle, none⟩
    let g : Generated := .ofCall ⟨o.indent.toList, o.textBlocks⟩ "".toList
      (pairedCall o (.reference "outer" (outerCall o))) [⟨"outer", outerCall o⟩]
    (o.hasProperIndent = true ∧ Conversion.create .standard o = .ok c ∧
      pairedPlan.allEnabled = true ∧ "".toList.all isIndent = true ∧
      (c.run pairedPlan "").2.outcome = .ok g ∧ g.code ≠ "" ∧
      (∀ x ∈ g.helpers, isIdentifier x.1.toList = true) ∧
      ∀ r, (pairedPlan.assemble .standard o pairedPlan.label).outcome = .ok r →
        r.HasDottedClasses) ∧
      ∃ r, (pairedPlan.assemble .standard o pairedPlan.label).outcome = .ok r ∧
        ((∃ e', (Element.ofSource .standard g.toSource).outcome = .ok e') ↔ r.AllTaken) := by
  intro o c g
  have hroot := assemble_pairedPlan o pairedPlan.label
  have hrun : (c.run pairedPlan "").2.outcome = .ok g :=
    Conversion.run_of_generate rfl (resolve_pairedPlan o _) hroot (generate_pairedCall rfl _)
  have hcode : g.code ≠ "" := by
    intro hempty
    have hne : (pairedCall o (.reference "outer" (outerCall o))).isEmpty = false := rfl
    exact code_ne_nil hne ⟨o.indent.toList, o.textBlocks⟩ "".toList false true
      (String.ofList_eq_empty_iff.mp hempty)
  have hn : ∀ x ∈ g.helpers, isIdentifier x.1.toList = true :=
    List.forall_mem_singleton.mpr (by decide)
  have hd : ∀ r, (pairedPlan.assemble .standard o pairedPlan.label).outcome = .ok r →
      r.HasDottedClasses := by
    intro r hr
    rw [hroot] at hr
    cases hr
    have hname : (Param.name "Simple Controller").kind ≠ .classRef := by decide
    simp [Call.HasDottedClasses, pairedCall, outerCall, innerCall, Call.walk, ownHead,
      Arg.HasDottedClass, hname]
  have ho : o.hasProperIndent = true := by decide
  exact ⟨⟨ho, rfl, rfl, rfl, hrun, hcode, hn, hd⟩,
    exists_ofSource_run_iff ho rfl rfl rfl hrun hcode hn hd⟩

end

end FluentPlan
