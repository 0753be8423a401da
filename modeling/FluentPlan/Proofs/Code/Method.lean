import Mathlib.Data.List.Forall2
import FluentPlan.Proofs.Code.TestClass
import FluentPlan.Proofs.Hoisting.Naming

/-!
The methods of a test class: the helper methods of the plan, and behind them the test itself.
Hoisting tells the names of helper methods from each other and from all that the plan calls. It does
not know of the test that the class adds, so a group whose label asks for that name gets it.
-/

namespace FluentPlan

open Call Text

/-! ### Lines -/

namespace Generated

/-- The lines of a method with a given name in a test class, and the empty one behind it. A helper
method begins with its heading, the test with its mark. -/
inductive MethodLines (indent : String) : String → List String → Prop
  | helper (type name : String) (body : List String) :
    MethodLines indent name
      (lineAt indent 1 ("private " ++ type ++ " " ++ name ++ "() \x7b") :: body ++
        [lineAt indent 1 "\x7d", ""])
  | test (body : List String) :
    MethodLines indent "test"
      (lineAt indent 1 "@Test" :: lineAt indent 1 "public void test() throws IOException \x7b" ::
        body ++ [lineAt indent 1 "\x7d", ""])

/-- Whether a text is that of a class which declares the methods of given names, in that order, and
nothing else. -/
def Declares (className indent : String) (names : List String) (text : String) : Prop :=
  ∃ (head : List String) (methods : List (List String)),
    List.Forall₂ (MethodLines indent) names methods ∧
      text = String.intercalate "\n" (head ++ ["public class " ++ className ++ " \x7b", ""] ++
        methods.flatten ++ ["\x7d"]) ++ "\n"

/-- A test class declares what its helper methods declare, and a test. -/
theorem declares_wrap {g : Generated} {className indent : String} {names : List String}
    (h : List.Forall₂ (MethodLines indent) names (g.helpers.map fun f => helperLines indent f.2)) :
    Declares className indent (names ++ ["test"]) (g.wrap className indent) := by
  have htest : List.Forall₂ (MethodLines indent) ["test"] _ :=
    .cons (.test [lineAt indent 2 ("TestPlanStats stats = " ++ g.code ++ ".run();"),
      lineAt indent 2 "assertThat(stats.overall().errorsCount()).isEqualTo(0);"]) .nil
  refine ⟨["///usr/bin/env jbang \"$0\" \"$@\" ; exit $?"] ++
      (testDependencies ++ g.requirements.dependencies).map ("//DEPS " ++ ·) ++ [""] ++
      testStaticImports.map (fun n => "import static " ++ n ++ ";") ++
      (sortedDistinct g.requirements.staticImports).map (fun n => "import static " ++ n ++ ".*;") ++
      [""] ++ (sortedDistinct (testImports ++ g.requirements.imports)).map
        (fun n => "import " ++ n ++ ";") ++ [""], _, List.rel_append h htest, ?_⟩
  simp only [wrap, List.flatMap_def, List.flatten_append, List.flatten_singleton, List.append_assoc,
    List.cons_append, List.nil_append]

end Generated

open Generated

namespace Helper

/-- The first line of a helper method. -/
def heading (f : Helper) : String :=
  "private " ++ Java.simpleName f.body.head.returnType ++ " " ++ f.name ++ "() \x7b"

theorem code_eq (style : Style) (f : Helper) :
    f.code style = f.heading.toList ++ '\n' :: ((style.indent ++ "return ".toList ++
      f.body.code style style.indent false false ++ [';']) ++ '\n' :: ['\x7d']) := by
  have hopen : "() \x7b\n".toList = "() \x7b".toList ++ ['\n'] := by decide
  have hend : ";\n\x7d".toList = [';', '\n', '\x7d'] := by decide
  have hblank : " ".toList = [' '] := by decide
  unfold Helper.code heading
  simp only [String.toList_append]
  rw [hopen, hend, hblank]
  simp only [List.append_assoc, List.cons_append, List.nil_append]

theorem heading_no_break {f : Helper} (hname : '\n' ∉ f.name.toList)
    (htype : '\n' ∉ f.body.head.returnType.toList) : '\n' ∉ f.heading.toList := by
  have htype : '\n' ∉ (Java.simpleName f.body.head.returnType).toList := by
    intro hm
    rw [Java.simpleName, String.toList_ofList, List.mem_reverse] at hm
    exact htype (List.mem_reverse.mp ((List.takeWhile_sublist _).subset hm))
  have hprivate : '\n' ∉ "private ".toList := by decide
  have hblank : '\n' ∉ " ".toList := by decide
  have hbrace : '\n' ∉ "() \x7b".toList := by decide
  simp only [heading, String.toList_append, List.mem_append, hprivate, htype, hblank, hname, hbrace,
    or_self, not_false_eq_true]

/-- The code of a helper method is its heading, its body and a brace, if name and type have no line
break. -/
theorem methodLines_helperLines (style : Style) (indent : String) {f : Helper}
    (hname : '\n' ∉ f.name.toList) (htype : '\n' ∉ f.body.head.returnType.toList) :
    MethodLines indent f.name (helperLines indent (String.ofList (f.code style))) := by
  obtain ⟨body, hlines⟩ :
      ∃ body, lines (f.code style) = f.heading.toList :: body ++ [['\x7d']] := by
    rw [code_eq, lines_append_break (heading_no_break hname htype),
      lines_break_append _ (by decide)]
    exact ⟨_, rfl⟩
  have h : MethodLines indent f.name _ := .helper (Java.simpleName f.body.head.returnType) f.name
    (body.map fun l => lineAt indent 1 (String.ofList l))
  have hbrace : String.ofList ['\x7d'] = "\x7d" := rfl
  unfold helperLines
  rw [String.toList_ofList, hlines]
  simpa only [heading, List.map_append, List.map_cons, List.map_nil, String.ofList_toList, hbrace,
    List.append_assoc, List.cons_append, List.nil_append] using h

end Helper

/-! ### Names -/

namespace Java

/-- A word without a digit at its end is the unique name only of who asks for it, and first. -/
theorem uniqueName_eq_iff {word : String} (hr : word ∉ reservedWords)
    (hd : ∀ c ∈ word.toList.getLast?, c.isDigit = false) (base : String) (taken : List String) :
    uniqueName base taken = word ↔ base = word ∧ word ∉ taken := by
  refine ⟨fun h => ?_, fun ⟨hbase, htaken⟩ => ?_⟩
  · refine ⟨?_, h ▸ uniqueName_not_mem base taken⟩
    rcases uniqueName_cases base taken with ⟨heq, -⟩ | ⟨i, heq⟩
    · exact heq.symm.trans h
    · obtain ⟨c, hc, hdigit⟩ := getLast?_numbered base i
      rw [← heq, h] at hc
      rw [hd c hc] at hdigit
      cases hdigit
  · subst hbase
    simp [uniqueName, htaken, hr]

end Java

namespace Helper.Hoisting

/-- What holds of every state of the loop about a word that the plan does not call: it is taken by a
helper method only, and only if one asks for it. -/
structure Granted (word : String) (s : Hoisting) : Prop where
  taken : word ∈ s.taken → word ∈ s.names
  asked : word ∈ s.names ↔ ∃ f ∈ s.helpers, Java.methodName f.body.labelOrMethod = word

section

variable {word : String}

theorem granted_start {root : Call} (h : ∀ d ∈ root.walk, d.head.method ≠ word) :
    Granted word (start root) where
  taken := by
    intro hm
    obtain ⟨d, hd, hmethod⟩ := List.mem_map.mp hm
    exact absurd hmethod (h d hd)
  asked := by simp [names, start]

theorem exists_helper_extract (s : Hoisting) (g : Group) {P : String → Prop} :
    (∃ f ∈ (s.extract g).helpers, P f.body.labelOrMethod) ↔
      (∃ f ∈ s.helpers, P f.body.labelOrMethod) ∨ P g.call.labelOrMethod := by
  simp [extract, labelOrMethod_replace, or_and_right, exists_or]

theorem Granted.extract {s : Hoisting} (h : Granted word s) (hr : word ∉ Java.reservedWords)
    (hd : ∀ c ∈ word.toList.getLast?, c.isDigit = false) (g : Group) :
    Granted word (s.extract g) where
  taken := by
    intro hm
    rw [names_extract]
    rcases List.mem_append.mp hm with hm | hm
    · exact List.mem_append_left _ (h.taken hm)
    · exact List.mem_append_right _ hm
  asked := by
    have hname := Java.uniqueName_eq_iff hr hd (Java.methodName g.call.labelOrMethod) s.taken
    rw [names_extract, List.mem_append, List.mem_singleton,
      exists_helper_extract s g (P := fun label => Java.methodName label = word), ← h.asked]
    refine ⟨fun hm => hm.imp_right fun hm => (hname.mp hm.symm).1, fun hm => ?_⟩
    by_cases htaken : word ∈ s.taken
    · exact .inl (h.taken htaken)
    · exact hm.imp_right fun hm => (hname.mpr ⟨hm, htaken⟩).symm

/-- One more method of that name leaves the names different just if no helper method asks for it. -/
theorem nodup_concat_iff {s : Hoisting} (hf : Fresh s) (h : Granted word s) :
    (s.names ++ [word]).Nodup ↔
      ∀ f ∈ s.helpers, Java.methodName f.body.labelOrMethod ≠ word := by
  rw [← List.concat_eq_append, List.nodup_concat, and_iff_left hf.nodup, h.asked]
  exact not_exists.trans (forall_congr' fun _ => not_and)

end

end Helper.Hoisting

open Helper

/-- What hoisting gives its helper methods for names, next to a word that the plan does not call. -/
theorem Call.nodup_names_concat_iff {word : String} (hr : word ∉ Java.reservedWords)
    (hd : ∀ c ∈ word.toList.getLast?, c.isDigit = false) {root root' : Call}
    {helpers : List Helper} (hword : ∀ d ∈ root.walk, d.head.method ≠ word)
    (h : root.hoist.outcome = .ok (root', helpers)) :
    (helpers.map (·.name) ++ [word]).Nodup ↔
      ∀ f ∈ helpers, Java.methodName f.body.labelOrMethod ≠ word := by
  obtain ⟨t, ht, rfl, rfl⟩ := exists_run_of_hoist h
  have hfresh : Hoisting.Fresh t := Hoisting.run_induction
    (fun s g hs _ c hc hg => hs.extract hc (mem_walk_of_mem_candidates hg).1)
    (Hoisting.fresh_start root) ht
  have hgranted : Hoisting.Granted word t := Hoisting.run_induction
    (fun s g hs _ _ _ _ => hs.extract hr hd g) (Hoisting.granted_start hword) ht
  exact Hoisting.nodup_concat_iff hfresh hgranted

/-- Names and types of helper methods are on one line, if the types that the plan gives are. -/
theorem Call.no_break_of_hoist {root root' : Call} {helpers : List Helper}
    (htype : ∀ d ∈ root.walk, '\n' ∉ d.head.returnType.toList)
    (h : root.hoist.outcome = .ok (root', helpers)) :
    ∀ f ∈ helpers, '\n' ∉ f.name.toList ∧ '\n' ∉ f.body.head.returnType.toList := by
  obtain ⟨t, ht, rfl, rfl⟩ := exists_run_of_hoist h
  have hnamed : Hoisting.Named t := Hoisting.run_induction
    (fun s g hs _ c hc hg => Hoisting.named_extract hs hc (mem_walk_of_mem_candidates hg).1)
    (Hoisting.named_start root) ht
  have hheads := Hoisting.forall_head_run (P := fun head => '\n' ∉ head.returnType.toList)
    (fun _ _ hb => hb) (s := .start root) (fun c hc => by
      obtain rfl := List.mem_singleton.mp hc
      exact htype) ht
  intro f hf
  obtain ⟨taken, hname⟩ := hnamed.label f hf
  refine ⟨hname ▸ Java.uniqueName_no_break (Java.methodName_no_break _) taken, ?_⟩
  exact hheads f.body (List.mem_cons_of_mem _ (List.mem_map_of_mem hf)) _ (mem_walk_self f.body)

/-! ### Conversions -/

theorem Java.no_break_of_isAscii {s : String} (h : isAscii s = true)
    (hb : ((bytes s).map UInt8.toNat).contains '\n'.toNat = false) : '\n' ∉ s.toList := by
  intro hm
  have hin : '\n'.toNat ∈ s.toList.map Char.toNat := List.mem_map_of_mem hm
  rw [map_toNat_bytes h, List.contains_iff_mem.mpr hin] at hb
  cases hb

/-- No builder and no modifier of the catalog is called as the test is, and their types are on one
line. -/
theorem Registry.methods_standard : ∀ s ∈ Registry.standard.signatures,
    (s.method ≠ "test" ∧ ∀ m ∈ s.modifiers, m.method ≠ "test") ∧ Java.isAscii s.returnType = true ∧
      ((Java.bytes s.returnType).map UInt8.toNat).contains '\n'.toNat = false := by
  decide +kernel

/-- So is what is assembled. -/
theorem Element.ne_test_assemble {r : Registry} (hr : r.signatures ⊆ Registry.standard.signatures)
    {o : Options} {path : String} {e : Element} {c : Call}
    (h : (e.assemble r o path).outcome = .ok c) :
    ∀ d ∈ c.walk, d.head.method ≠ "test" ∧ '\n' ∉ d.head.returnType.toList := by
  have hempty : "" ≠ "test" := by decide
  have hchildren : "children" ≠ "test" := by decide
  have hnone : '\n' ∉ "".toList := by decide
  refine forall_head_assemble
    (P := fun head => head.method ≠ "test" ∧ '\n' ∉ head.returnType.toList)
    { empty := ?_, place := ?_, own := ?_, link := ?_ } e h
  · exact fun _ => ⟨hempty, hnone⟩
  · exact fun _ => ⟨hchildren, hnone⟩
  · intro s hs e values _
    obtain ⟨⟨hmethod, -⟩, hascii, hbreak⟩ := Registry.methods_standard s (hr hs)
    exact ⟨hmethod, Java.no_break_of_isAscii hascii hbreak⟩
  · intro s hs m hm e cs hcs c hc
    obtain ⟨args, rfl, -⟩ := exists_chained_of_modifierCalls hcs hc
    exact ⟨(Registry.methods_standard s (hr hs)).1.2 m hm, hnone⟩

/-- A test class of a plan declares the helper methods that hoisting makes, and a test. -/
theorem declares_convertToTestClass {o : Options} (ho : o.hoist = true) {e : Element}
    {text : String} (h : (convertToTestClass o e).outcome = .ok text) :
    ∃ (r : Registry) (root root' : Call) (helpers : List Helper),
      (Conversion.registryFor o).outcome = .ok r ∧
      (e.assemble r o e.label).outcome = .ok root ∧
      root.hoist.outcome = .ok (root', helpers) ∧
      Declares o.className o.indent (helpers.map (·.name) ++ ["test"]) text := by
  unfold convertToTestClass at h
  rw [Logged.outcome_bind] at h
  obtain ⟨c, hc, h⟩ := exists_of_bind_eq_ok h
  rw [Logged.outcome_bind] at h
  obtain ⟨g, hg, h⟩ := exists_of_bind_eq_ok h
  cases h
  obtain ⟨r, hr, hc⟩ := Conversion.ofOptions_eq_ok hc
  obtain rfl := Conversion.create_eq_ok hc
  obtain ⟨-, root, hroot, hgen⟩ := Conversion.exists_root_of_run hg
  have hheads := Element.ne_test_assemble (Conversion.signatures_registryFor_subset hr) hroot
  unfold generate at hgen
  rw [Logged.outcome_bind] at hgen
  obtain ⟨-, -, hgen⟩ := exists_of_bind_eq_ok hgen
  simp only [ho, if_true, Logged.outcome_bind] at hgen
  obtain ⟨⟨root', helpers⟩, hh, hgen⟩ := exists_of_bind_eq_ok hgen
  cases hgen
  refine ⟨r, root, root', helpers, hr, hroot, hh, declares_wrap ?_⟩
  have hbreak := Call.no_break_of_hoist (fun d hd => (hheads d hd).2) hh
  rw [ofCall, List.map_map, List.forall₂_map_left_iff, List.forall₂_map_right_iff,
    List.forall₂_same]
  exact fun f hf => methodLines_helperLines _ o.indent (hbreak f hf).1 (hbreak f hf).2

/-! ### Two equal groups -/

def onceOnly : Element := ⟨"OnceOnlyController", none, true, .empty, []⟩

/-- A group with a given label. -/
def labelledGroup (label : String) : Element :=
  ⟨"GenericController", some label, true, .empty, [onceOnly]⟩

/-- A plan with the group twice. -/
def twinPlan (label : String) : Element :=
  ⟨"TestPlan", none, true, .empty, [labelledGroup label, labelledGroup label]⟩

def onceOnlyCall : Call :=
  ⟨Element.ownHead {} Catalog.Controller.onceOnlyController onceOnly [.children], [], []⟩

def groupHead (label : String) : CallHead :=
  Element.ownHead {} Catalog.Controller.simpleController (labelledGroup label)
    [.scalar (.name "Simple Controller") (some (.text label)), .children]

def twinCall (label : String) : Call :=
  let group : Call := ⟨groupHead label, [onceOnlyCall], []⟩
  ⟨Element.ownHead {} Catalog.Plan.testPlan (twinPlan label) [.children], [group, group], []⟩

/-- The plan converts, if its groups have their label for the only argument. -/
theorem run_twinPlan (label : String)
    (hown : Element.ownCall {} Catalog.Controller.simpleController (labelledGroup label) =
      .ok (some (groupHead label, []))) :
    ((twinPlan label).assemble .standard {} (twinPlan label).label).outcome =
        .ok (twinCall label) ∧
      ∃ text, (convertToTestClass {} (twinPlan label)).outcome = .ok text := by
  let group : Call := ⟨groupHead label, [onceOnlyCall], []⟩
  have honce : Registry.standard.resolve? onceOnly = .ok Catalog.Controller.onceOnlyController :=
    Registry.resolve?_of_first rfl rfl rfl
  have hgroup : Registry.standard.resolve? (labelledGroup label) =
      .ok Catalog.Controller.simpleController :=
    Registry.resolve?_of_first rfl rfl rfl
  have hplan : Registry.standard.resolve? (twinPlan label) = .ok Catalog.Plan.testPlan :=
    Registry.resolve?_of_first rfl rfl rfl
  have hinner (path : String) : (onceOnly.assemble .standard {} path).outcome = .ok onceOnlyCall :=
    Element.assemble_of_ownCall honce (by rfl) (by rfl)
  have houter (path : String) :
      ((labelledGroup label).assemble .standard {} path).outcome = .ok group := by
    have horder : Call.order defaultCategories [onceOnlyCall] = [onceOnlyCall] :=
      List.mergeSort_singleton onceOnlyCall
    rw [Element.assemble_of_ownCall hgroup hown
      (Element.assembleAll_cons_of_assemble rfl rfl (hinner _) (by rfl))]
    unfold Element.withChildren Element.attach
    rw [horder]
    rfl
  have hroot : ((twinPlan label).assemble .standard {} (twinPlan label).label).outcome =
      .ok (twinCall label) := by
    have horder : Call.order defaultCategories [group, group] = [group, group] :=
      List.mergeSort_of_pairwise (by simp)
    rw [Element.assemble_of_ownCall hplan (by rfl)
      (Element.assembleAll_cons_of_assemble rfl rfl (houter _)
        (Element.assembleAll_cons_of_assemble rfl rfl (houter _) (by rfl)))]
    unfold Element.withChildren Element.attach
    rw [horder]
    rfl
  have hres : ((twinPlan label).resolve .standard {} (twinPlan label).label).outcome = .ok () := by
    have hsub (path : String) :
        ((labelledGroup label).resolve .standard {} path).outcome = .ok () :=
      Element.resolve_of_resolve? hgroup (Element.resolveAll_cons_of_resolve rfl
        (Element.resolve_of_resolve? honce (by rfl)) (by rfl))
    exact Element.resolve_of_resolve? hplan (Element.resolveAll_cons_of_resolve rfl (hsub _)
      (Element.resolveAll_cons_of_resolve rfl (hsub _) (by rfl)))
  refine ⟨hroot, ?_⟩
  obtain ⟨g, hg⟩ := Call.exists_generate {} "    ".toList
    (Element.check_assemble Registry.isComparable_standard hroot)
  have hrun : (Conversion.run ⟨.standard, {}, .idle, none⟩ (twinPlan label) "    ").2.outcome =
      .ok g :=
    Conversion.run_of_generate rfl hres hroot hg
  refine ⟨g.wrap "PerformanceTest" "  ", ?_⟩
  have hc : (Conversion.ofOptions {}).outcome = .ok ⟨.standard, {}, .idle, none⟩ := rfl
  have hbase : ({} : Options).indent ++ ({} : Options).indent = "    " := by decide
  unfold convertToTestClass
  rw [Logged.outcome_bind, hc, ok_bind, Logged.outcome_bind, hbase, hrun]
  rfl

/-- The names of the methods that a test class declares differ just if no helper method asks for the
name `test`. -/
theorem nodup_methods_convertToTestClass {o : Options} (ho : o.hoist = true) {e : Element}
    {text : String} (h : (convertToTestClass o e).outcome = .ok text) :
    ∃ (r : Registry) (root root' : Call) (helpers : List Helper),
      (Conversion.registryFor o).outcome = .ok r ∧
      (e.assemble r o e.label).outcome = .ok root ∧
      root.hoist.outcome = .ok (root', helpers) ∧
      Declares o.className o.indent (helpers.map (·.name) ++ ["test"]) text ∧
      ((helpers.map (·.name) ++ ["test"]).Nodup ↔
        ∀ f ∈ helpers, Java.methodName f.body.labelOrMethod ≠ "test") := by
  obtain ⟨r, root, root', helpers, hr, hroot, hh, hdeclares⟩ := declares_convertToTestClass ho h
  have hheads := Element.ne_test_assemble (Conversion.signatures_registryFor_subset hr) hroot
  have hreserved : "test" ∉ Java.reservedWords := by simp [Java.reservedWords]
  have hlast : ∀ c ∈ "test".toList.getLast?, c.isDigit = false := by simp
  exact ⟨r, root, root', helpers, hr, hroot, hh, hdeclares,
    Call.nodup_names_concat_iff hreserved hlast (fun d hd => (hheads d hd).1) hh⟩

/-- Two groups `Log In` leave the names of the methods different. -/
theorem nodup_methods_convertToTestClass_logIn :
    ∃ text root' helpers, (convertToTestClass {} (twinPlan "Log In")).outcome = .ok text ∧
      (twinCall "Log In").hoist.outcome = .ok (root', helpers) ∧
      Declares "PerformanceTest" "  " (helpers.map (·.name) ++ ["test"]) text ∧
      (helpers.map (·.name) ++ ["test"]).Nodup := by
  obtain ⟨hroot, text, htext⟩ := run_twinPlan "Log In" (by rfl)
  obtain ⟨r, root, root', helpers, hr, hroot', hh, hdeclares, hnodup⟩ :=
    nodup_methods_convertToTestClass (o := {}) rfl htext
  cases hr
  obtain rfl : root = twinCall "Log In" := Except.ok.inj (hroot'.symm.trans hroot)
  have hasked : ((twinCall "Log In").hoist.outcome.toOption.map fun x =>
      x.2.all fun f => Java.methodName f.body.labelOrMethod ≠ "test") = some true := by decide
  rw [hh] at hasked
  have hasked : ∀ f ∈ helpers, Java.methodName f.body.labelOrMethod ≠ "test" := by
    simpa using Option.some.inj hasked
  exact ⟨text, root', helpers, htext, hh, hdeclares, hnodup.mpr hasked⟩

/-- Two groups `test` get a helper method of the name that the test has. -/
theorem exists_methods_test :
    ∃ text, (convertToTestClass {} (twinPlan "test")).outcome = .ok text ∧
      Declares "PerformanceTest" "  " ["test", "test"] text := by
  obtain ⟨hroot, text, htext⟩ := run_twinPlan "test" (by rfl)
  obtain ⟨r, root, root', helpers, hr, hroot', hh, hdeclares⟩ :=
    declares_convertToTestClass (o := {}) rfl htext
  cases hr
  obtain rfl : root = twinCall "test" := Except.ok.inj (hroot'.symm.trans hroot)
  have hnames : ((twinCall "test").hoist.outcome.toOption.map fun x => x.2.map (·.name)) =
      some ["test"] := by decide
  rw [hh] at hnames
  have hnames : helpers.map (·.name) = ["test"] := Option.some.inj hnames
  rw [hnames] at hdeclares
  exact ⟨text, htext, hdeclares⟩

end FluentPlan
