import FluentPlan.Conversion
import FluentPlan.Proofs.Code.Assembled
import FluentPlan.Proofs.Grammar.Parsing

/-!
Generated code parses back. The code of a plan without disabled elements is a program whose one
expression is that of the assembled call, whatever the layout.
-/

namespace FluentPlan

open Script Text

/-! ### Programs of live calls -/

namespace Script

theorem startsDefinition_of_call {ts : List Token} {name : String} (hm : isPlainName name = true)
    {ws : List Word} (h : ts.map Token.content = Word.ident name :: Word.op "(" :: ws) :
    startsDefinition ts = false := by
  obtain ⟨t, us, rfl, hk, hv, h⟩ := exists_token h
  obtain ⟨u, us, rfl, hku, -, -⟩ := exists_token h
  have hmod : isModifier t = false := by
    simp only [isPlainName, Bool.and_eq_true, Bool.not_eq_true'] at hm
    have hk : t.kind = .ident := hk
    have hv : t.value = name := hv
    have := hm.2
    simp only [isModifier] at this ⊢
    rw [hk, hv]
    exact this
  have hop : u.kind ≠ .ident := by
    have hku : u.kind = .op := hku
    simp [hku]
  simp [startsDefinition, peek, hmod, hop]

theorem isName_plain {name : String} {ns : List Word} (h : IsName name ns)
    (hm : isPlainName name = true) : ns = [Word.ident name] := by
  obtain ⟨s, ss, -, rfl, rfl⟩ := h
  cases ss with
  | nil => simp [partWords]
  | cons t ss =>
    have hpoint : '.' ∈ (String.intercalate "." (s :: t :: ss)).toList := by
      rw [toList_intercalate_point]
      simp
    exact absurd hpoint (not_mem_of_isIdentifier (isIdentifier_of_isPlainName hm) (by decide))

/-- No call begins a definition. -/
theorem startsDefinition_of_isExpr {name : String} {as : List Expr} {chain : List (Invocation Expr)}
    {ws us : List Word} (h : IsExpr (.call ⟨.start, name, as⟩ chain) ws)
    (hm : isPlainName name = true) {ts : List Token} (ht : ts.map Token.content = ws ++ us) :
    startsDefinition ts = false := by
  cases h with
  | call _ hn ha hc =>
    rw [isName_plain hn hm] at ht
    exact startsDefinition_of_call hm (by simpa using ht)

/-- A text that spells a call is a program, with a line break behind it or not. -/
theorem parse_of_writes {cs : List Char} {name : String} {as : List Expr}
    {chain : List (Invocation Expr)} (h : Writes cs (.call ⟨.start, name, as⟩ chain))
    (hm : isPlainName name = true) {last : List Char} (hl : last = [] ∨ last = ['\n']) :
    ∃ p, parse (String.ofList (cs ++ last)) = .ok p ∧
      p.unplaced = ⟨[], (Expr.call ⟨.start, name, as⟩ chain).unplaced⟩ := by
  obtain ⟨ws, he, hs⟩ := h
  obtain ⟨ts, ht, hw⟩ := hs.tokenize hl
  obtain ⟨p, hp, hu⟩ := program_of_isDefinition .nil List.nodup_nil he
    (fun r hr => startsDefinition_of_isExpr he hm hr) hw
  exact ⟨p, by simp only [parse, ht, hp, bind, Except.bind], hu⟩

end Script

namespace Call

/-- The code of a legible call is a program that says what is shown of the call. -/
theorem Legible.parse {c : Call} (h : c.Legible) (hne : c.isEmpty = false)
    (hc : c.head.commented = false) {style : Style} (hs : style.indent.all isIndent = true)
    {indent : List Char} (hi : indent.all isIndent = true) {last : List Char}
    (hl : last = [] ∨ last = ['\n']) :
    ∃ p, Script.parse (String.ofList (c.code style indent false true ++ last)) = .ok p ∧
      p.unplaced = ⟨[], c.shownExpr⟩ := by
  have hw := h.writes hne hc hs hi
  have hu := unplaced_shownExpr c
  rw [shownExpr_eq_call] at hw hu ⊢
  rw [← hu]
  exact parse_of_writes hw (h.isPlainName hne) hl

/-- The code of a live call is a program that says the expression of the call. -/
theorem Live.parse {c : Call} (h : c.Live) (hne : c.isEmpty = false) {style : Style}
    (hs : style.indent.all isIndent = true) {indent : List Char}
    (hi : indent.all isIndent = true) {last : List Char} (hl : last = [] ∨ last = ['\n']) :
    ∃ p, Script.parse (String.ofList (c.code style indent false true ++ last)) = .ok p ∧
      p.unplaced = ⟨[], c.toExpr⟩ := by
  rw [← shownExpr_eq c h.isOpen]
  exact h.legible.parse hne (h.isOpen c (mem_walk_self c)) hs hi hl

end Call

/-! ### Conversions -/

namespace Conversion

theorem create_eq_ok {r : Registry} {o : Options} {c : Conversion} (h : create r o = .ok c) :
    c = ⟨r, o, .idle, none⟩ := by
  unfold create at h
  split at h
  · cases h
    rfl
  · cases h

/-- What a conversion that ends with code has assembled. -/
theorem exists_root_of_run {c : Conversion} {e : Element} {base : String} {g : Generated}
    (h : (c.run e base).2.outcome = .ok g) :
    (e.resolve c.registry c.options e.label).outcome = .ok () ∧
      ∃ root, (e.assemble c.registry c.options e.label).outcome = .ok root ∧
        (root.generate c.options base.toList).outcome = .ok g := by
  have hstop {d : Conversion} {p : Phase} {f : Failure} {log : List LogLine} :
      (d.stop p f log).2.outcome = .error f := by
    cases f <;> rfl
  unfold run at h
  split_ifs at h with hidle
  · cases h
  · simp only at h
    split at h
    · rw [hstop] at h
      cases h
    · next hr =>
      split at h
      · rw [hstop] at h
        cases h
      · next root ha =>
        split at h
        · rw [hstop] at h
          cases h
        · next g' hg =>
          cases h
          exact ⟨hr, root, ha, hg⟩

theorem run_of_generate {c : Conversion} {e : Element} {base : String} {root : Call}
    {g : Generated} (hp : c.phase = .idle)
    (hr : (e.resolve c.registry c.options e.label).outcome = .ok ())
    (ha : (e.assemble c.registry c.options e.label).outcome = .ok root)
    (hg : (root.generate c.options base.toList).outcome = .ok g) :
    (c.run e base).2.outcome = .ok g := by
  simp only [run, hp, hr, ha, hg]
  rfl

end Conversion

namespace Call

/-- Without helper methods the generated code is the code of the call. -/
theorem generate_eq_ok {o : Options} (ho : o.hoist = false) {indent : List Char} {root : Call}
    {g : Generated} (h : (root.generate o indent).outcome = .ok g) :
    root.check = .ok () ∧ g = .ofCall ⟨o.indent.toList, o.textBlocks⟩ indent root [] := by
  unfold generate at h
  rw [Logged.outcome_bind] at h
  obtain ⟨u, hc, h⟩ := exists_of_bind_eq_ok h
  rw [ho] at h
  cases h
  exact ⟨hc, rfl⟩

theorem generate_of_check {o : Options} (ho : o.hoist = false) {indent : List Char} {root : Call}
    (h : root.check = .ok ()) :
    (root.generate o indent).outcome = .ok (.ofCall ⟨o.indent.toList, o.textBlocks⟩ indent root []) := by
  unfold generate
  rw [Logged.outcome_bind, Logged.outcome_ofExcept, h, ok_bind, ho]
  rfl

end Call

/-- The code of a plan whose elements are all enabled parses to the expression of the assembled call,
which no indentation, no place and no choice of text blocks changes. The text of each argument, taken
by itself, parses to the expressions that stand for it there. -/
theorem parse_run {o : Options} (ho : o.hasProperIndent = true) (hh : o.hoist = false)
    {c : Conversion} (hc : Conversion.create .standard o = .ok c) {e : Element}
    (he : e.allEnabled = true) {base : String} (hb : base.toList.all isIndent = true)
    {g : Generated} (hg : (c.run e base).2.outcome = .ok g)
    (hd : ∀ root, (e.assemble .standard o e.label).outcome = .ok root → root.HasDottedClasses) :
    ∃ root, (e.assemble .standard o e.label).outcome = .ok root ∧
      g = .ofCall ⟨o.indent.toList, o.textBlocks⟩ base.toList root [] ∧
      (root.isEmpty = false →
        (∃ p, parse g.code = .ok p ∧ p.unplaced = ⟨[], root.toExpr⟩) ∧
        ∀ (style : Style) (indent : List Char), style.indent.all isIndent = true →
          indent.all isIndent = true →
          ∃ p, parse (String.ofList (root.code style indent false true)) = .ok p ∧
            p.unplaced = ⟨[], root.toExpr⟩) ∧
      ∀ d ∈ root.walk, ∀ (p : Param) (v : Option Value), Arg.scalar p v ∈ d.head.args →
        (Arg.scalar p v).isRendered = true → ∀ (name : String), isPlainName name = true →
        ∀ (indent : List Char) (blocks : Bool), indent.all isIndent = true →
        ∃ q, parse (String.ofList (name.toList ++ '(' :: p.render v indent blocks ++ [')'])) = .ok q ∧
          q.unplaced = ⟨[], .call ⟨.start, name, p.exprs v⟩ []⟩ := by
  obtain rfl := Conversion.create_eq_ok hc
  obtain ⟨-, root, hroot, hgen⟩ := Conversion.exists_root_of_run hg
  obtain ⟨-, rfl⟩ := Call.generate_eq_ok hh hgen
  have hlive := Element.live_assemble Registry.isProper_standard e he hroot (hd root hroot)
  have hparse (hne : root.isEmpty = false) {style : Style} (hs : style.indent.all isIndent = true)
      {indent : List Char} (hi : indent.all isIndent = true) :
      ∃ p, parse (String.ofList (root.code style indent false true)) = .ok p ∧
        p.unplaced = ⟨[], root.toExpr⟩ := by
    simpa only [List.append_nil] using hlive.parse hne hs hi (.inl rfl)
  have hindent : (Style.mk o.indent.toList o.textBlocks).indent.all isIndent = true := ho
  refine ⟨root, hroot, rfl, fun hne =>
    ⟨hparse hne hindent hb, fun style indent hs hi => hparse hne hs hi⟩, ?_⟩
  intro d hwalk p v ha hr name hm indent blocks hi
  have hlist := Param.lists_render (hlive.readable d hwalk _ ha hr) hi blocks
  have hw := (isDotted_of_isPlainName hm).writes_call hlist.fills
  obtain ⟨q, hq, hu⟩ := parse_of_writes hw hm (.inl rfl)
  refine ⟨q, by simpa only [List.append_nil] using hq, ?_⟩
  rw [hu, Expr.unplaced, Call.unplacedAll_of_forall (Call.unplaced_exprs p v)]
  rfl

/-- A nested class, an address of two lines and a negative number, below a plan. -/
theorem parse_run_dataSource :
    let o : Options := { hoist := false, indent := "\t" }
    let source : Element := ⟨"JDBCDataSource", none, true,
      .ofList [("dataSource", "x"), ("driver", "org.Main$Inner"), ("dbUrl", "u\nv"),
        ("poolMax", "-3")], []⟩
    let e : Element := ⟨"TestPlan", none, true, .empty, [source]⟩
    let c : Conversion := ⟨.standard, o, .idle, none⟩
    let pool : Call := ⟨Element.ownHead o Catalog.Jdbc.connectionPool source
      [.scalar (Param.text "dataSource").require (some (.text "x")),
        .scalar (Param.ofKind .classRef "driver").require (some (.text "org.Main$Inner")),
        .scalar (Param.text "dbUrl").require (some (.text "u\nv"))], [],
      [.chained "maxConnections"
        [.scalar ((Param.int "poolMax").withDefault (.integer 0)) (some (.integer (-3)))]]⟩
    let root : Call := ⟨Element.ownHead o Catalog.Plan.testPlan e [.children], [pool], []⟩
    let g : Generated := .ofCall ⟨o.indent.toList, o.textBlocks⟩ "  ".toList root []
    (o.hasProperIndent = true ∧ o.hoist = false ∧ Conversion.create .standard o = .ok c ∧
      e.allEnabled = true ∧ "  ".toList.all isIndent = true ∧ (c.run e "  ").2.outcome = .ok g ∧
      ∀ r, (e.assemble .standard o e.label).outcome = .ok r → r.HasDottedClasses) ∧
      ∃ p, parse g.code = .ok p ∧ p.unplaced = ⟨[], root.toExpr⟩ := by
  intro o source e c pool root g
  have hs : Registry.standard.resolve? source = .ok Catalog.Jdbc.connectionPool :=
    Registry.resolve?_of_first rfl rfl rfl
  have he : Registry.standard.resolve? e = .ok Catalog.Plan.testPlan :=
    Registry.resolve?_of_first rfl rfl rfl
  have hroot : (e.assemble .standard o e.label).outcome = .ok root := by
    have hpool : (source.assemble .standard o (Element.childPath e.label source)).outcome =
        .ok pool := Element.assemble_of_ownCall hs (by rfl) (by rfl)
    have hcalls : (Element.assembleAll .standard o Catalog.Plan.testPlan e.label
        [source]).outcome = .ok [pool] :=
      Element.assembleAll_cons_of_assemble rfl rfl hpool (by rfl)
    have horder : Call.order o.categories [pool] = [pool] := List.mergeSort_singleton pool
    rw [Element.assemble_of_ownCall he (by rfl) hcalls]
    unfold Element.withChildren Element.attach
    rw [horder]
    rfl
  have hres : (e.resolve .standard o e.label).outcome = .ok () :=
    Element.resolve_of_resolve? he (Element.resolveAll_cons_of_resolve rfl
      (Element.resolve_of_resolve? hs (by rfl)) (by rfl))
  have hrun : (c.run e "  ").2.outcome = .ok g :=
    Conversion.run_of_generate rfl hres hroot (by rfl)
  have hd : ∀ r, (e.assemble .standard o e.label).outcome = .ok r → r.HasDottedClasses := by
    intro r hr
    rw [hroot] at hr
    cases hr
    have hname : IsDotted (Param.dottedClass "org.Main$Inner") :=
      ((isDotted_of_isIdentifier (s := "org") (by decide) (by decide)).append (t := "Main")
        (by decide)).append (t := "Inner") (by decide)
    simp [Call.HasDottedClasses, root, pool, Call.walk, Call.chained, Element.ownHead,
      Arg.HasDottedClass, hname, Param.text, Param.ofKind, Param.require]
  have ho : o.hasProperIndent = true := by decide
  have hb : "  ".toList.all isIndent = true := by decide
  have hc : Conversion.create .standard o = .ok c := rfl
  have hen : e.allEnabled = true := rfl
  refine ⟨⟨ho, rfl, hc, hen, hb, hrun, hd⟩, ?_⟩
  obtain ⟨r, hr, -, hparse, -⟩ := parse_run ho rfl hc hen hb hrun hd
  rw [hroot] at hr
  cases hr
  exact (hparse rfl).1

end FluentPlan
