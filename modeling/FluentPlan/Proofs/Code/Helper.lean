import FluentPlan.Proofs.Code.Agreement
import FluentPlan.Proofs.Requirement.Import

/-!
Generated code with helper methods parses back. The code of a helper method is a definition that says
the expression of its body, and the whole source is a program of these definitions and the plan.
-/

namespace FluentPlan

open Script Java Text Word

/-! ### Texts of definitions -/

namespace Script

variable {cs ds : List Char} {ws vs : List Word}

/-- Two texts on lines of their own. -/
theorem Spells.break (hc : Spells cs ws) (hd : Spells ds vs) :
    Spells (cs ++ '\n' :: ds) (ws ++ vs) := by
  refine ⟨?_, fun r us hr hus => ?_⟩
  · simp [hc.no_return, hd.no_return]
  · have hrest := skipped_nil.break.reads _ _ (hd.reads r us hr hus)
    simpa using hc.reads _ _ (closed_cons _ (by decide)) hrest

/-- A semicolon between two texts. -/
theorem Spells.semicolon (hc : Spells cs ws) (hd : Spells ds vs) :
    Spells (cs ++ ';' :: ds) (ws ++ op ";" :: vs) := by
  refine ⟨?_, fun r us hr hus => ?_⟩
  · simp [hc.no_return, hd.no_return]
  · have hrest : Reads (';' :: (ds ++ r)) (op ";" :: (vs ++ us)) :=
      reads_op rfl (hd.reads r us hr hus)
    simpa using hc.reads _ _ (closed_cons _ (by decide)) hrest

/-- A word and a blank before a text. -/
theorem Spells.word {s : String} (hs : isIdentifier s.toList = true) (h : Spells cs ws) :
    Spells (s.toList ++ ' ' :: cs) (ident s :: ws) := by
  refine ⟨?_, fun r us hr hus => ?_⟩
  · simp [isIdentifier_no_return hs, h.no_return]
  · have hblank := skipped_blank.reads _ _ (h.reads r us hr hus)
    have hread := reads_ident hs (fun c hc => by obtain rfl : ' ' = c := by simpa using hc
                                                 decide) hblank
    rw [String.ofList_toList] at hread
    simpa using hread

theorem Spells.openBrace (h : Spells cs ws) : Spells ('\x7b' :: cs) (op "\x7b" :: ws) :=
  ⟨by simpa using h.no_return, fun r us hr hus => reads_op rfl (h.reads r us hr hus)⟩

theorem spells_closeBrace : Spells ['\x7d'] [op "\x7d"] :=
  ⟨by decide, fun _ _ _ hus => reads_op rfl hus⟩

/-- A name with empty parentheses before a text. -/
theorem Spells.declare {name : String} (hn : isIdentifier name.toList = true) (h : Spells cs ws) :
    Spells (name.toList ++ '(' :: ')' :: cs) (ident name :: op "(" :: op ")" :: ws) := by
  have hreads : ∀ r us, (∀ c, r.head? = some c → isIdentPart c = false) → Reads r us →
      Reads (name.toList ++ r) ([ident name] ++ us) := by
    intro r us hr hus
    have hread := reads_ident hn hr hus
    rwa [String.ofList_toList] at hread
  simpa using Spells.call hreads (isIdentifier_no_return hn) spells_nil h

end Script

theorem Call.code_of_not_commented {c : Call} (h : c.head.commented = false) (style : Style)
    (indent : List Char) (inComment : Bool) :
    c.code style indent inComment false = c.code style indent inComment true := by
  obtain ⟨head, children, chain⟩ := c
  have h : head.commented = false := h
  simp [code, h]

namespace Helper

/-- The definition that the code of a helper method says. -/
def definition (f : Helper) : Definition :=
  ⟨f.name, simpleName f.body.head.returnType, f.body.toExpr, 1⟩

/-- Whether a helper method has code that says a definition. -/
structure IsLive (f : Helper) : Prop where
  body : f.body.Live
  isEmpty : f.body.isEmpty = false
  name : isIdentifier f.name.toList = true
  type : isPlainName (simpleName f.body.head.returnType) = true

/-- The code of a helper method spells a definition. -/
theorem IsLive.spells {f : Helper} (h : f.IsLive) {style : Style}
    (hs : style.indent.all isIndent = true) :
    ∃ ws, IsDefinition f.definition ws ∧ Spells (f.code style) ws := by
  have hopen : f.body.head.commented = false := h.body.isOpen f.body (Call.mem_walk_self f.body)
  obtain ⟨ws, he, hbody⟩ := h.body.legible.writes h.isEmpty hopen hs hs
  rw [Call.shownExpr_eq _ h.body.isOpen] at he
  have htype := isIdentifier_of_isPlainName h.type
  have hmodifier : isModifier ⟨.ident, simpleName f.body.head.returnType, .start⟩ = false := by
    have := h.type
    simp only [isPlainName, Bool.and_eq_true, Bool.not_eq_true'] at this
    exact this.2
  refine ⟨_, ⟨["private"], ws, by decide, hmodifier, he, rfl⟩, ?_⟩
  have hlast := spells_closeBrace.space skipped_nil.break
  have hreturn := (hbody.semicolon hlast).word (s := "return") (by decide)
  have hbraces := (hreturn.space (skipped_of_indent hs).break).openBrace.space skipped_blank
  have hall := ((hbraces.declare h.name).word htype).word (s := "private") (by decide)
  have hblank : "private ".toList = "private".toList ++ [' '] := by decide
  have hreturns : "return ".toList = "return".toList ++ [' '] := by decide
  have hbrace : "() \x7b\n".toList = ['(', ')', ' ', '\x7b', '\n'] := by decide
  have hend : ";\n\x7d".toList = [';', '\n', '\x7d'] := by decide
  have hcode : f.code style = "private".toList ++ ' ' :: ((simpleName f.body.head.returnType).toList ++
      ' ' :: (f.name.toList ++ '(' :: ')' :: ([' '] ++ '\x7b' :: ('\n' :: style.indent ++
        ("return".toList ++ ' ' :: (f.body.code style style.indent false true ++
          ';' :: (['\n'] ++ ['\x7d']))))))) := by
    unfold code
    rw [Call.code_of_not_commented hopen, hblank, hreturns, hbrace, hend]
    simp only [List.append_assoc, List.cons_append, List.nil_append]
  rw [hcode]
  exact hall

theorem IsLive.unplaced_definition {f : Helper} (h : f.IsLive) :
    f.definition.unplaced = f.definition := by
  rw [Definition.unplaced, definition, ← Call.shownExpr_eq _ h.body.isOpen, Call.unplaced_shownExpr]

/-- Helper methods in front of a text say their definitions, each with an empty line behind it. -/
theorem exists_spells {helpers : List Helper} (h : ∀ f ∈ helpers, f.IsLive) {style : Style}
    (hs : style.indent.all isIndent = true) :
    ∃ dss, List.Forall₂ IsDefinition (helpers.map definition) dss ∧
      ∀ {cs : List Char} {ws : List Word}, Spells cs ws →
        Spells (helpers.flatMap (fun f => f.code style ++ ['\n', '\n']) ++ cs) (dss.flatten ++ ws) := by
  induction helpers with
  | nil => exact ⟨[], .nil, fun hcs => hcs⟩
  | cons f helpers ih =>
    obtain ⟨ws, hdef, hcode⟩ := (h f List.mem_cons_self).spells hs
    obtain ⟨dss, hdefs, hrest⟩ := ih fun g hg => h g (List.mem_cons_of_mem f hg)
    refine ⟨ws :: dss, .cons hdef hdefs, fun hcs => ?_⟩
    simpa using hcode.break ((hrest hcs).space skipped_nil.break)

end Helper

/-! ### Names of types and of helper methods -/

/-- Whether the simple name of a text is of letters and digits behind a capital letter, by its bytes. -/
def Java.isCapitalized (s : String) : Bool :=
  isAscii s && (simpleCodes s).all (fun n => (Char.ofNat n).isAlphanum) &&
    (simpleCodes s).getLast?.any fun n => (Char.ofNat n).isUpper

theorem Script.isIdentPart_of_isAlphanum {c : Char} (h : c.isAlphanum = true) :
    isIdentPart c = true := by
  rcases Bool.or_eq_true_iff.mp h with h | h
  · simp [isIdentPart, isIdentStart, isLetter_of_isAlpha h]
  · simp [isIdentPart, h]

/-- No word with a meaning of its own begins with a capital letter. -/
theorem isPlainName_simpleName {s : String} (h : isCapitalized s = true) :
    isPlainName (simpleName s) = true := by
  simp only [isCapitalized, Bool.and_eq_true] at h
  obtain ⟨⟨hascii, hall⟩, hfirst⟩ := h
  rw [simpleCodes_eq hascii] at hall hfirst
  cases hcs : (simpleName s).toList with
  | nil =>
    rw [hcs] at hfirst
    cases hfirst
  | cons c cs =>
    rw [hcs] at hall hfirst
    have hupper : c.isUpper = true := by simpa using hfirst
    have hstart : isIdentStart c = true := by
      have halpha : c.isAlpha = true := Bool.or_eq_true_iff.mpr (.inl hupper)
      simp [isIdentStart, isLetter_of_isAlpha halpha]
    have hpart : ∀ d ∈ c :: cs, isIdentPart d = true := by
      intro d hd
      have hcode : d.toNat ∈ ((c :: cs).map Char.toNat).reverse :=
        List.mem_reverse.mpr (List.mem_map_of_mem hd)
      exact isIdentPart_of_isAlphanum (by simpa using List.all_eq_true.mp hall _ hcode)
    have hidentifier : isIdentifier (simpleName s).toList = true := by
      rw [hcs, isIdentifier, hstart, Bool.true_and, List.all_eq_true]
      exact fun d hd => hpart d (List.mem_cons_of_mem c hd)
    have hword (words : List String)
        (hw : words.all (fun w => w.toList.head?.all (!·.isUpper)) = true) :
        words.contains (simpleName s) = false := by
      rw [List.contains_eq_mem, decide_eq_false_iff_not]
      intro hmem
      have hlower := List.all_eq_true.mp hw _ hmem
      rw [hcs] at hlower
      simp [hupper] at hlower
    have hliteral := hword literalWords (by decide)
    have hmodifier := hword ["private", "public", "protected", "static", "final"] (by decide)
    simp only [isPlainName, isModifier, hidentifier, hliteral, hmodifier]
    rfl

/-- The types that helper methods return are plain words. -/
theorem Registry.isPlainName_returnType {s : Signature} (hs : s ∈ Registry.standard.signatures) :
    isPlainName (simpleName s.returnType) = true := by
  have hall : ∀ s ∈ Registry.standard.signatures, isCapitalized s.returnType = true := by
    decide +kernel
  exact isPlainName_simpleName (hall s hs)

/-! ### Hoisting -/

namespace Call

theorem Legible.of_mem_walk {c d : Call} (h : c.Legible) (hd : d ∈ c.walk) : d.Legible := by
  induction h with
  | empty category =>
    rw [walk_empty] at hd
    exact List.mem_singleton.mp hd ▸ .empty category
  | call hr hm ha hk hl hf ihk ihl =>
    rcases mem_walk_iff.mp hd with rfl | ⟨k, hkid, hd⟩ | ⟨l, hlink, hd⟩
    · exact .call hr hm ha hk hl hf
    · exact ihk k hkid hd
    · exact ihl l hlink hd

theorem Legible.replace {c ref : Call} (h : c.Legible) (href : ref.Legible) (key : CallKey) :
    (Call.replace key ref c).Legible := by
  induction h with
  | empty category =>
    rw [replace_eq]
    exact .empty category
  | call hr hm ha hk hl hf ihk ihl =>
    rw [replace_eq]
    refine .call hr hm ha (List.forall_mem_map.mpr fun k hkid => ?_) (List.forall_mem_map.mpr ihl)
      (List.forall_mem_map.mpr fun l hlink => ?_)
    · by_cases hkey : k.key = key
      · rwa [replaced_of_key_eq hkey]
      · rw [replaced_of_key_ne hkey]
        exact ihk k hkid
    · obtain ⟨hne, hchain, hopen⟩ := hf l hlink
      rw [isEmpty, chain_replace, head_replace, hchain]
      exact ⟨hne, rfl, hopen⟩

theorem live_reference {name : String} (hn : isPlainName name = true) {body : Call}
    (hb : body.IsOpen) : (reference name body).Live := by
  refine ⟨.call (by simp) hn ?_ ?_ ?_ ?_, fun d hd => ?_⟩
  · exact fun a ha => absurd ha List.not_mem_nil
  · exact fun c hc => absurd hc List.not_mem_nil
  · exact fun c hc => absurd hc List.not_mem_nil
  · exact fun c hc => absurd hc List.not_mem_nil
  · rw [walk_reference] at hd
    rw [List.mem_singleton.mp hd]
    exact hb body (mem_walk_self body)

theorem Live.of_mem_walk {c d : Call} (h : c.Live) (hd : d ∈ c.walk) : d.Live :=
  ⟨h.legible.of_mem_walk hd, fun e he => h.isOpen e (walk_subset_of_mem_walk hd he)⟩

end Call

namespace Helper.Hoisting

/-- What a helper method is named is no word of the language. -/
theorem isPlainName_nameFor {s : Hoisting} {c : Call}
    (h : isIdentifier (s.nameFor c).toList = true) : isPlainName (s.nameFor c) = true := by
  have hfree : s.nameFor c ∉ reservedWords := by
    intro hw
    have hname : s.nameFor c = "_" := (eq_underscore_of_mem_keywords (List.mem_cons_of_mem "_" hw)).1
    rw [hname] at hw
    exact absurd hw (by decide)
  have hliteral : s.nameFor c ∉ literalWords := fun hw =>
    hfree ((by decide : literalWords ⊆ reservedWords) hw)
  have hmodifier : s.nameFor c ∉ ["private", "public", "protected", "static", "final"] := fun hw =>
    hfree ((by decide : ["private", "public", "protected", "static", "final"] ⊆ reservedWords) hw)
  simp only [isPlainName, isModifier, h, decide_true, Bool.true_and, Bool.and_eq_true,
    Bool.not_eq_true', List.contains_eq_mem, decide_eq_false_iff_not]
  exact ⟨hliteral, hmodifier⟩

/-- Hoisting leaves live calls, if what it names can be read. -/
theorem live_run {fuel : Nat} {s t : Hoisting} (hs : ∀ c ∈ s.roots, c.Live)
    (hplain : ∀ name ∈ s.names, isPlainName name = true) (h : (run fuel s).outcome = .ok t)
    (hnames : ∀ name ∈ t.names, isIdentifier name.toList = true) :
    (∀ name ∈ t.names, isPlainName name = true) ∧ ∀ c ∈ t.roots, c.Live := by
  refine run_induction (P := fun s => (∀ name ∈ s.names, isIdentifier name.toList = true) →
    (∀ name ∈ s.names, isPlainName name = true) ∧ ∀ c ∈ s.roots, c.Live)
    (fun s g ih _ c hc hg hn => ?_) (fun _ => ⟨hplain, hs⟩) h hnames
  have hwalk := (Call.mem_walk_of_mem_candidates hg).1
  rw [names_extract] at hn ⊢
  obtain ⟨hplain, hlive⟩ := ih fun name hname => hn name (List.mem_append_left _ hname)
  have hname := isPlainName_nameFor (hn _ (List.mem_append_right _ List.mem_cons_self))
  have hcall := (hlive c hc).of_mem_walk hwalk
  have href := Call.live_reference hname hcall.isOpen
  have hopen := forall_head_extract (P := fun head => head.commented = false)
    (fun b hb => (hlive b hb).isOpen) (fun hbody => hbody) hc hwalk
  refine ⟨List.forall_mem_append.mpr ⟨hplain, List.forall_mem_singleton.mpr hname⟩, fun b hb => ?_⟩
  refine ⟨?_, hopen b hb⟩
  rw [roots_extract] at hb
  rcases List.mem_append.mp hb with hb | hb
  · obtain ⟨a, ha, rfl⟩ := List.mem_map.mp hb
    exact (hlive a ha).legible.replace href.legible _
  · exact List.mem_singleton.mp hb ▸ hcall.legible

end Helper.Hoisting

/-! ### Sources -/

namespace Generated

theorem toList_intercalate_concat (sep : String) (xs : List String) (last : String) :
    (String.intercalate sep (xs ++ [last])).toList =
      xs.flatMap (fun x => x.toList ++ sep.toList) ++ last.toList := by
  induction xs with
  | nil => simp
  | cons x xs ih =>
    rw [List.cons_append, String.intercalate_cons_of_ne_nil (by simp), String.toList_append,
      String.toList_append, ih]
    simp

/-- The source has the helper methods in front of the plan. -/
theorem toSource_eq (style : Style) (indent : List Char) (root : Call) (helpers : List Helper) :
    (ofCall style indent root helpers).toSource =
      String.ofList (helpers.flatMap (fun f => f.code style ++ ['\n', '\n']) ++
        root.code style indent false true ++ ['\n']) := by
  refine String.toList_inj.mp ?_
  rw [toSource, String.toList_append, toList_intercalate_concat]
  simp [ofCall, List.flatMap_map]

/-- The source of live calls is a program of the helper methods and the plan. -/
theorem parse_toSource {root : Call} (hroot : root.Live) (hne : root.isEmpty = false)
    {helpers : List Helper} (h : ∀ f ∈ helpers, f.IsLive) (hn : (helpers.map (·.name)).Nodup)
    {style : Style} (hs : style.indent.all isIndent = true) {indent : List Char}
    (hi : indent.all isIndent = true) :
    ∃ p, parse (ofCall style indent root helpers).toSource = .ok p ∧
      p.unplaced = ⟨helpers.map Helper.definition, root.toExpr⟩ := by
  obtain ⟨dss, hdefs, hspells⟩ := Helper.exists_spells h hs
  have hopen : root.head.commented = false := hroot.isOpen root (Call.mem_walk_self root)
  obtain ⟨ws, he, hcode⟩ := hroot.legible.writes hne hopen hs hi
  obtain ⟨ts, hts, hw⟩ := (hspells hcode).tokenize (.inr rfl)
  have hplain := hroot.legible.isPlainName hne
  have hnames : ((helpers.map Helper.definition).map (·.name)).Nodup := by
    rw [List.map_map]
    exact hn
  have hcall : ∀ r : List Token, r.map Token.content = ws ++ [(.eof, "")] →
      startsDefinition r = false := fun r hr =>
    startsDefinition_of_isExpr (Call.shownExpr_eq_call root ▸ he) hplain hr
  obtain ⟨p, hp, hu⟩ := program_of_isDefinition hdefs hnames he hcall
    (hw.trans (List.append_assoc ..))
  refine ⟨p, ?_, ?_⟩
  · rw [toSource_eq]
    simp only [parse, hts, hp, bind, Except.bind]
  · rw [hu, Call.unplaced_shownExpr, Call.shownExpr_eq _ hroot.isOpen, List.map_map]
    exact congrArg (Program.mk · _) (List.map_congr_left fun f hf => (h f hf).unplaced_definition)

end Generated

end FluentPlan
