import FluentPlan.Conversion
import FluentPlan.Proofs.Assembly.Head
import FluentPlan.Proofs.Code.Agreement
import FluentPlan.Proofs.Hoisting.Run
import FluentPlan.Proofs.Requirement.SimpleName

/-!
Imports of generated code. Code names classes without their package, so two imports should not share
their simple name. Every import comes from the catalog, and in the catalog only one pair of classes
does: the fields that an extractor and an assertion look at. A plan in which both are named needs
both, and its code is ambiguous.
-/

namespace FluentPlan

open Call Helper

/-! ### The classes of a catalog -/

/-- The classes that arguments of a parameter can refer to. -/
def Param.classes (p : Param) : List String :=
  match p.kind with
  | .duration _ | .holdDuration .. => ["java.time.Duration"]
  | .enum _ javaClass => [javaClass]
  | .charset => ["java.nio.charset.StandardCharsets", "java.nio.charset.Charset"]
  | _ => []

theorem Param.imports_subset_classes (p : Param) (v : Option Value) : p.imports v ⊆ p.classes := by
  obtain ⟨kind, prop, default, required, mandatory⟩ := p
  rcases v with _ | v
  · cases kind <;> exact List.nil_subset _
  · cases kind with
    | duration _ | holdDuration _ _ | enum _ _ =>
      cases v <;> first | exact List.Subset.refl _ | exact List.nil_subset _
    | charset =>
      cases v with
      | text name =>
        dsimp only [imports, classes]
        split
        · exact List.cons_subset_cons _ (List.nil_subset _)
        · exact List.subset_cons_self _ _
      | _ => exact List.nil_subset _
    | _ => exact List.nil_subset _

/-- The classes that calls with a signature can refer to. -/
def Signature.classes (s : Signature) : List String :=
  s.returnType :: s.imports ++ s.allParams.flatMap Param.classes

def Registry.classes (r : Registry) : List String := r.signatures.flatMap Signature.classes

/-- Whether all classes that a call refers to by itself are among some. A return type without a
package is no class that has to be imported. -/
structure CallHead.Within (classes : List String) (h : CallHead) : Prop where
  imports : h.imports ⊆ classes
  args : ∀ a ∈ h.args, a.imports ⊆ classes
  returnType : h.returnType.toList.contains '.' = true → h.returnType ∈ classes

/-- A call that returns nothing of note refers to the classes of its arguments. -/
theorem CallHead.within_of_args {classes : List String} {h : CallHead} (hi : h.imports = [])
    (hr : h.returnType = "") (ha : ∀ a ∈ h.args, a.imports ⊆ classes) : h.Within classes where
  imports := hi ▸ List.nil_subset _
  args := ha
  returnType := by simp [hr]

theorem Arg.imports_scalar_subset (p : Param) (v : Option Value) :
    (Arg.scalar p v).imports ⊆ p.classes := by
  simp only [imports]
  split
  · exact p.imports_subset_classes v
  · exact List.nil_subset _

/-! ### Assembly -/

namespace Element

/-- Assembled calls refer to classes of the catalog only. -/
theorem within_assemble {r : Registry} {o : Options} {path : String} {e : Element} {c : Call}
    (h : (e.assemble r o path).outcome = .ok c) : ∀ d ∈ c.walk, d.head.Within r.classes := by
  have hparam {s : Signature} (hs : s ∈ r.signatures) {p : Param} (hp : p ∈ s.allParams)
      (v : Option Value) : (Arg.scalar p v).imports ⊆ r.classes := by
    intro x hx
    have hx := List.mem_flatMap.mpr ⟨p, hp, Arg.imports_scalar_subset p v hx⟩
    exact List.mem_flatMap.mpr ⟨s, hs, List.mem_append_right _ hx⟩
  refine forall_head_assemble { empty := ?_, place := ?_, own := ?_, link := ?_ } e h
  · exact fun _ => CallHead.within_of_args rfl rfl fun a ha => absurd ha List.not_mem_nil
  · exact fun _ => CallHead.within_of_args rfl rfl fun a ha =>
      List.mem_singleton.mp ha ▸ List.nil_subset _
  · intro s hs e values hv
    refine ⟨fun x hx => ?_, fun a ha => ?_, fun _ => ?_⟩
    · refine List.mem_flatMap.mpr ⟨s, hs, List.mem_append_left _ ?_⟩
      exact List.mem_cons_of_mem _ hx
    · rcases mem_placeArgs ha with rfl | ⟨x, hx, rfl⟩
      · exact List.nil_subset _
      · have hp := List.mem_of_mem_filter (mem_of_valuesOf hv hx).1
        exact hparam hs (List.mem_append_left _ hp) x.2
    · exact List.mem_flatMap.mpr ⟨s, hs, List.mem_append_left _ List.mem_cons_self⟩
  · intro s hs m hm e cs hcs c hc
    obtain ⟨args, rfl, hargs⟩ := exists_chained_of_modifierCalls hcs hc
    refine CallHead.within_of_args rfl rfl fun a ha => ?_
    obtain ⟨lead, values, hv, ha⟩ := hargs a ha
    rcases mem_argsOf ha with rfl | ⟨x, hx, rfl⟩
    · exact List.nil_subset _
    · have hp := List.mem_flatMap.mpr ⟨m, hm, (mem_of_valuesOf hv hx).1⟩
      exact hparam hs (List.mem_append_right _ hp) x.2

end Element

/-! ### Hoisting -/

namespace Helper.Hoisting

/-- What a state of the loop says of all heads it still says after a step, if a reference may stand
for a call of which it is said. -/
theorem forall_head_extract {P : CallHead → Prop} {s : Hoisting}
    (hs : ∀ c ∈ s.roots, ∀ d ∈ c.walk, P d.head) {g : Group}
    (href : P g.call.head → P (reference (s.nameFor g.call) g.call).head) {c : Call}
    (hc : c ∈ s.roots) (hg : g.call ∈ c.walk) : ∀ c ∈ (s.extract g).roots, ∀ d ∈ c.walk, P d.head := by
  intro b hb d hd
  rw [roots_extract] at hb
  rcases List.mem_append.mp hb with hb | hb
  · obtain ⟨a, ha, rfl⟩ := List.mem_map.mp hb
    rcases mem_walk_replace (walk_reference _ _) a hd with rfl | ⟨x, hx, rfl⟩
    · exact href (hs c hc g.call hg)
    · rw [head_replace]
      exact hs a ha x hx
  · rw [List.mem_singleton.mp hb] at hd
    exact hs c hc d (walk_subset_of_mem_walk hg hd)

theorem forall_head_run {P : CallHead → Prop}
    (href : ∀ (s : Hoisting) body, P body.head → P (reference (s.nameFor body) body).head)
    {fuel : Nat} {s t : Hoisting} (hs : ∀ c ∈ s.roots, ∀ d ∈ c.walk, P d.head)
    (h : (run fuel s).outcome = .ok t) : ∀ c ∈ t.roots, ∀ d ∈ c.walk, P d.head :=
  run_induction (P := fun s => ∀ c ∈ s.roots, ∀ d ∈ c.walk, P d.head)
    (fun s g hs _ _ hc hg =>
      forall_head_extract hs (href s g.call) hc (mem_walk_of_mem_candidates hg).1) hs h

end Helper.Hoisting

/-! ### Generated code -/

/-- The imports of a plan are classes of the calls that it is made of. -/
theorem requirements_imports_subset {classes : List String} {root : Call} {helpers : List Helper}
    (h : ∀ c ∈ root :: helpers.map (·.body), ∀ d ∈ c.walk, d.head.Within classes) :
    (requirements root helpers).imports ⊆ classes := by
  intro x hx
  rw [requirements, Text.mem_sortedDistinct] at hx
  rcases List.mem_append.mp hx with hx | hx
  · obtain ⟨c, hc, hx⟩ := List.mem_flatMap.mp hx
    obtain ⟨d, hd, hx⟩ := List.mem_flatMap.mp hx
    have hw := h c hc d (List.mem_of_mem_filter hd)
    rcases List.mem_append.mp hx with hx | hx
    · exact hw.imports hx
    · obtain ⟨a, ha, hx⟩ := List.mem_flatMap.mp hx
      exact hw.args a ha hx
  · obtain ⟨f, hf, hx⟩ := List.mem_flatMap.mp hx
    have hw := h f.body (List.mem_cons_of_mem _ (List.mem_map_of_mem hf)) _ (mem_walk_self _)
    unfold returnImport at hx
    split at hx
    · next hdot =>
      rw [List.mem_singleton.mp hx]
      exact hw.returnType hdot
    · cases hx

/-- Generated code is that of the call itself, or of what hoisting leaves of it. -/
theorem Call.exists_of_generate {o : Options} {indent : List Char} {root : Call} {g : Generated}
    (hg : (root.generate o indent).outcome = .ok g) :
    ∃ root' helpers, g = .ofCall ⟨o.indent.toList, o.textBlocks⟩ indent root' helpers ∧
      (root' = root ∧ helpers = [] ∨ root.hoist.outcome = .ok (root', helpers)) := by
  cases ho : o.hoist with
  | false => exact ⟨root, [], (generate_eq_ok ho hg).2, .inl ⟨rfl, rfl⟩⟩
  | true =>
    unfold generate at hg
    rw [Logged.outcome_bind] at hg
    obtain ⟨-, -, hg⟩ := exists_of_bind_eq_ok hg
    simp only [ho, if_true, Logged.outcome_bind] at hg
    obtain ⟨⟨root', helpers⟩, hh, hg⟩ := exists_of_bind_eq_ok hg
    cases hg
    exact ⟨root', helpers, rfl, .inr hh⟩

theorem Call.generate_imports_subset {o : Options} {indent : List Char} {classes : List String}
    {root : Call} (h : ∀ d ∈ root.walk, d.head.Within classes) {g : Generated}
    (hg : (root.generate o indent).outcome = .ok g) : g.requirements.imports ⊆ classes := by
  have hroot : ∀ c ∈ [root], ∀ d ∈ c.walk, d.head.Within classes := by
    intro c hc
    obtain rfl := List.mem_singleton.mp hc
    exact h
  obtain ⟨root', helpers, rfl, ⟨rfl, rfl⟩ | hh⟩ := exists_of_generate hg
  · exact requirements_imports_subset hroot
  · obtain ⟨t, ht, rfl, rfl⟩ := exists_run_of_hoist hh
    exact requirements_imports_subset (Hoisting.forall_head_run
      (fun _ _ hb => ⟨List.nil_subset _, fun a ha => absurd ha List.not_mem_nil, hb.returnType⟩)
      (s := .start root) hroot ht)

/-- What generated code imports comes from the catalog. -/
theorem Conversion.run_imports_subset {c : Conversion} {e : Element} {base : String} {g : Generated}
    (h : (c.run e base).2.outcome = .ok g) : g.requirements.imports ⊆ c.registry.classes := by
  obtain ⟨-, root, hroot, hgen⟩ := exists_root_of_run h
  exact generate_imports_subset (Element.within_assemble hroot) hgen

/-- The fields that an extractor looks at, and those that an assertion looks at: two classes with one
simple name. -/
def extractorField : String :=
  Catalog.corePackage ++ ".postprocessors.DslRegexExtractor.TargetField"

def assertionField : String := Catalog.corePackage ++ ".assertions.DslResponseAssertion.TargetField"

/-- Each class is the first with its codes, but for the fields of an assertion. -/
theorem firstLike_classes :
    (∀ a ∈ Registry.standard.classes, Java.isAscii a = true ∧
      Java.firstLike Registry.standard.classes a =
        if a = assertionField then some extractorField else some a) := by
  decide

/-- Of the classes of the default registry only two share their simple name. -/
theorem eq_of_simpleName_classes {a b : String} (ha : a ∈ Registry.standard.classes)
    (hb : b ∈ Registry.standard.classes) (h : Java.simpleName a = Java.simpleName b) :
    a = b ∨ a = extractorField ∧ b = assertionField ∨ a = assertionField ∧ b = extractorField := by
  obtain ⟨hasciia, hfirsta⟩ := firstLike_classes a ha
  obtain ⟨hasciib, hfirstb⟩ := firstLike_classes b hb
  have hfirst := Java.firstLike_congr (Java.simpleCodes_congr hasciia hasciib h)
    Registry.standard.classes
  rw [hfirsta, hfirstb] at hfirst
  split_ifs at hfirst with hae hbe hbe
  · exact .inl (hae.trans hbe.symm)
  · exact .inr (.inr ⟨hae, (Option.some.inj hfirst).symm⟩)
  · exact .inr (.inl ⟨Option.some.inj hfirst, hbe⟩)
  · exact .inl (Option.some.inj hfirst)

/-! ### A plan that needs both -/

/-- An extractor that looks at headers. -/
def headerExtractor : Element :=
  ⟨"RegexExtractor", none, true, .ofList [("RegexExtractor.refname", "r"),
    ("RegexExtractor.regex", "x"), ("RegexExtractor.useHeaders", "true")], []⟩

/-- An assertion on the response code. -/
def codeAssertion : Element :=
  ⟨"ResponseAssertion", none, true, .ofList [("Assertion.test_type", "16"),
    ("Assertion.test_field", "Assertion.response_code")], []⟩

/-- A group of both. -/
def checkedGroup : Element :=
  ⟨"OnceOnlyController", none, true, .empty, [headerExtractor, codeAssertion]⟩

/-- The code of the group needs both classes. -/
theorem run_checkedGroup : ∃ g,
    ((⟨.standard, {}, .idle, none⟩ : Conversion).run checkedGroup "").2.outcome = .ok g ∧
      extractorField ∈ g.requirements.imports ∧ assertionField ∈ g.requirements.imports := by
  have hextractor : Registry.standard.resolve? headerExtractor =
      .ok Catalog.Processor.regexExtractor :=
    Registry.resolve?_of_first rfl rfl rfl
  have hassertion : Registry.standard.resolve? codeAssertion =
      .ok Catalog.Result.responseAssertion :=
    Registry.resolve?_of_first rfl rfl rfl
  have hgroup : Registry.standard.resolve? checkedGroup = .ok Catalog.Controller.onceOnlyController :=
    Registry.resolve?_of_first rfl rfl rfl
  let extractor : Call := ⟨Element.ownHead {} Catalog.Processor.regexExtractor headerExtractor
    [.scalar (Param.text "RegexExtractor.refname").require (some (.text "r")),
      .scalar (Param.text "RegexExtractor.regex").require (some (.text "x"))], [],
    [.chained "fieldToCheck" [.scalar (.ofEnum "RegexExtractor.useHeaders"
      Catalog.Processor.targetField "RESPONSE_BODY" extractorField)
      (some (.member ⟨"TargetField", "RESPONSE_HEADERS", "true"⟩))]]⟩
  let assertion : Call := ⟨Element.ownHead {} Catalog.Result.responseAssertion codeAssertion
    [.scalar (.name "Response Assertion") (some (.text "Response Assertion"))], [],
    [.chained "fieldToTest" [.scalar (.ofEnum "Assertion.test_field"
      Catalog.Result.assertionField "RESPONSE_BODY" assertionField)
      (some (.member ⟨"AssertionField", "RESPONSE_CODE", "Assertion.response_code"⟩))]]⟩
  let root : Call := ⟨Element.ownHead {} Catalog.Controller.onceOnlyController checkedGroup
    [.children], [extractor, assertion], []⟩
  have hroot : (checkedGroup.assemble .standard {} checkedGroup.label).outcome = .ok root := by
    have hextracted (path : String) :
        (headerExtractor.assemble .standard {} path).outcome = .ok extractor :=
      Element.assemble_of_ownCall hextractor (by rfl) (by rfl)
    have hasserted (path : String) :
        (codeAssertion.assemble .standard {} path).outcome = .ok assertion :=
      Element.assemble_of_ownCall hassertion (by with_unfolding_all rfl) (by rfl)
    have horder : Call.order defaultCategories [extractor, assertion] = [extractor, assertion] :=
      List.mergeSort_of_pairwise (by decide)
    rw [Element.assemble_of_ownCall hgroup (by rfl)
      (Element.assembleAll_cons_of_assemble rfl rfl (hextracted _)
        (Element.assembleAll_cons_of_assemble rfl rfl (hasserted _) (by rfl)))]
    unfold Element.withChildren Element.attach
    rw [horder]
    rfl
  have hres : (checkedGroup.resolve .standard {} checkedGroup.label).outcome = .ok () :=
    Element.resolve_of_resolve? hgroup (Element.resolveAll_cons_of_resolve rfl
      (Element.resolve_of_resolve? hextractor (by rfl)) (Element.resolveAll_cons_of_resolve rfl
        (Element.resolve_of_resolve? hassertion (by rfl)) (by rfl)))
  have hgen : (root.generate {} "".toList).outcome =
      .ok (.ofCall ⟨"  ".toList, true⟩ "".toList root []) := by rfl
  refine ⟨_, Conversion.run_of_generate rfl hres hroot hgen, ?_⟩
  simp only [Generated.ofCall, requirements, Text.mem_sortedDistinct]
  decide

/-- Two imports of a plan that share their simple name are one class, or the plan looks at fields of
an extractor and of an assertion. -/
theorem simpleName_imports_run {o : Options} {c : Conversion}
    (hc : Conversion.create .standard o = .ok c) {e : Element} {base : String} {g : Generated}
    (hg : (c.run e base).2.outcome = .ok g) :
    ∀ a ∈ g.requirements.imports, ∀ b ∈ g.requirements.imports,
      Java.simpleName a = Java.simpleName b →
        a = b ∨ a = extractorField ∧ b = assertionField ∨
          a = assertionField ∧ b = extractorField := by
  intro a ha b hb hab
  obtain rfl := Conversion.create_eq_ok hc
  have hsub := Conversion.run_imports_subset hg
  exact eq_of_simpleName_classes (hsub ha) (hsub hb) hab

/-- In the group above the rule leaves both classes. -/
theorem simpleName_imports_run_checkedGroup :
    let c : Conversion := ⟨.standard, {}, .idle, none⟩
    ∃ g, Conversion.create .standard {} = .ok c ∧ (c.run checkedGroup "").2.outcome = .ok g ∧
      ∀ a ∈ g.requirements.imports, ∀ b ∈ g.requirements.imports,
        Java.simpleName a = Java.simpleName b →
          a = b ∨ a = extractorField ∧ b = assertionField ∨
            a = assertionField ∧ b = extractorField := by
  intro c
  obtain ⟨g, hg, -⟩ := run_checkedGroup
  have hc : Conversion.create .standard {} = .ok c := rfl
  exact ⟨g, hc, hg, simpleName_imports_run hc hg⟩

/-- So the simple names of imports can clash. -/
theorem exists_simpleName_clash :
    ∃ g, (convert {} checkedGroup).outcome = .ok g ∧
      ∃ a ∈ g.requirements.imports, ∃ b ∈ g.requirements.imports,
        a ≠ b ∧ Java.simpleName a = Java.simpleName b := by
  obtain ⟨g, hg, hextractor, hassertion⟩ := run_checkedGroup
  refine ⟨g, ?_, _, hextractor, _, hassertion, by decide, by decide⟩
  rw [convert, Logged.outcome_bind]
  exact hg

end FluentPlan
