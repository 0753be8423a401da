import FluentPlan.Java.Code
import FluentPlan.Proofs.Code.Argument
import FluentPlan.Proofs.Grammar.Parsing

/-!
Comments in generated code. What is commented out is skipped together with the comma behind it, as
long as a line break follows. So a list of child codes, of which some are commented out, says the
expressions of the others.
-/

namespace FluentPlan

open Script Java Text

/-! ### Texts that are commented out -/

namespace Script

/-- A text that ends in a comment, and is skipped once that comment is over. -/
def IsRemark (cs : List Char) : Prop :=
  ∀ tail gap, '\n' ∉ tail → '\r' ∉ tail → Skipped gap → Skipped (cs ++ tail ++ '\n' :: gap)

/-- A line that is a comment behind its indentation. -/
def IsCommentLine (cs : List Char) : Prop :=
  ∃ indent l, indent.all isIndent = true ∧ '\n' ∉ l ∧ '\r' ∉ l ∧ cs = indent ++ '/' :: '/' :: l

theorem isRemark_unlines {rows : List (List Char)} (hne : rows ≠ [])
    (h : ∀ row ∈ rows, IsCommentLine row) : IsRemark (unlines rows) := by
  induction rows with
  | nil => exact absurd rfl hne
  | cons row rows ih =>
    intro tail gap hn hr hg
    obtain ⟨indent, l, hi, hln, hlr, rfl⟩ := h row List.mem_cons_self
    cases rows with
    | nil =>
      have hline := Skipped.comment (l := l ++ tail) (by simp [hln, hn]) (by simp [hlr, hr]) hg
      simpa [unlines, joinWith] using hline.indent hi
    | cons row rows =>
      have hrest := ih (by simp) (fun r hr => h r (List.mem_cons_of_mem _ hr)) tail gap hn hr hg
      have hline := (hrest.comment hln hlr).indent hi
      simpa [unlines, joinWith] using hline

theorem mem_of_mem_dropIndent {indent l : List Char} {c : Char} (h : c ∈ dropIndent indent l) :
    c ∈ l := by
  unfold dropIndent at h
  split_ifs at h
  · exact List.mem_of_mem_drop h
  · exact h

/-- The lines of code that is commented out. -/
theorem commentOut_eq (indent code : List Char) :
    ∃ rows, rows ≠ [] ∧ commentOut indent code = unlines rows ∧ ∀ row ∈ rows, ∃ before l,
      (before = [] ∨ before = indent) ∧ row = before ++ '/' :: '/' :: l ∧
        ∀ c ∈ l, c ∈ code ∧ c ≠ '\n' := by
  have hne : lines code ≠ [] := splitAt_ne_nil '\n' code
  obtain ⟨l, ls, hl⟩ := List.exists_cons_of_ne_nil hne
  refine ⟨('/' :: '/' :: l) :: ls.map fun l => indent ++ '/' :: '/' :: dropIndent indent l,
    by simp, by simp [commentOut, hl], fun row hrow => ?_⟩
  rcases List.mem_cons.mp hrow with rfl | hrow
  · exact ⟨[], l, .inl rfl, rfl, fun c hc => mem_of_mem_lines (by simp [hl]) hc⟩
  · obtain ⟨m, hm, rfl⟩ := List.mem_map.mp hrow
    exact ⟨indent, _, .inr rfl, rfl,
      fun c hc => mem_of_mem_lines (by simp [hl, hm]) (mem_of_mem_dropIndent hc)⟩

theorem isRemark_commentOut {indent code : List Char} (hi : indent.all isIndent = true)
    (hr : '\r' ∉ code) : IsRemark (commentOut indent code) := by
  obtain ⟨rows, hne, hrows, h⟩ := commentOut_eq indent code
  rw [hrows]
  refine isRemark_unlines hne fun row hrow => ?_
  obtain ⟨before, l, hb, rfl, hl⟩ := h row hrow
  exact ⟨before, l, by rcases hb with rfl | rfl <;> simp [hi], fun hn => (hl _ hn).2 rfl,
    fun hm => hr (hl _ hm).1, rfl⟩

theorem commentOut_ne_nil (indent code : List Char) : commentOut indent code ≠ [] := by
  intro h
  unfold commentOut at h
  split at h
  · next hl => exact splitAt_ne_nil '\n' code hl
  · next l ls hl => cases ls <;> simp [unlines, joinWith] at h

theorem commentOut_no_return {indent code : List Char} (hi : '\r' ∉ indent) (hc : '\r' ∉ code) :
    '\r' ∉ commentOut indent code := by
  obtain ⟨rows, -, he, h⟩ := commentOut_eq indent code
  intro hm
  rw [he] at hm
  rcases mem_unlines hm with hm | ⟨row, hrow, hm⟩
  · exact absurd hm (by decide)
  · obtain ⟨before, l, hb, rfl, hl⟩ := h row hrow
    have hbefore : '\r' ∉ before := by rcases hb with rfl | rfl <;> simp [hi]
    have hline : '\r' ∉ l := fun hm => hc (hl _ hm).1
    simp [hbefore, hline] at hm

theorem Lists.ne_nil {cs : List Char} {es : List Expr} (h : Lists cs es) : es ≠ [] := by
  obtain ⟨ws, he, -⟩ := h
  rintro rfl
  cases he

theorem Spells.eq_nil {ws : List Word} (h : Spells [] ws) : ws = [] := by
  obtain ⟨ts, hs, hw⟩ := h.reads [] _ closed_nil reads_nil .start
  rw [List.append_nil, scan] at hs
  cases hs
  have hlen := congrArg List.length hw
  simpa using hlen

theorem Lists.text_ne_nil {cs : List Char} {es : List Expr} (h : Lists cs es) : cs ≠ [] := by
  rintro rfl
  obtain ⟨ws, he, hs⟩ := h
  obtain ⟨w, vs, hw, -⟩ := he.head
  exact absurd hs.eq_nil (by simp [hw])

end Script

/-! ### Child codes -/

namespace Style

/-- What child codes say: each expression is that of one which is not commented out. -/
inductive Says : List ChildCode → List Expr → Prop
  | nil : Says [] []
  | remark {cs : List Char} {ks : List ChildCode} {es : List Expr} (hc : IsRemark cs)
      (h : Says ks es) : Says (⟨cs, true⟩ :: ks) es
  | live {cs : List Char} {e : Expr} {ks : List ChildCode} {es : List Expr} (hc : Writes cs e)
      (h : Says ks es) : Says (⟨cs, false⟩ :: ks) (e :: es)

theorem Says.all_commented_iff {ks : List ChildCode} {es : List Expr} (h : Says ks es) :
    ks.all (·.commented) = true ↔ es = [] := by
  induction h with
  | nil => simp
  | remark _ _ ih => simpa using ih
  | live => simp

theorem Says.commaBefore {ks : List ChildCode} {es : List Expr} (h : Says ks es) :
    commaBefore false ks = if es = [] then ['/', '/', ','] else [','] := by
  simp only [Style.commaBefore, Bool.not_false, Bool.true_and, h.all_commented_iff]

/-- A live text, the comma behind it, and what follows in the next lines. -/
theorem Says.append {ks : List ChildCode} {es fs : List Expr} (h : Says ks es) {gap cs ds : List Char}
    (hg : Skipped gap) (hc : Lists cs fs)
    (hd : (es = [] ∧ Skipped ds) ∨ Lists ds es) :
    Lists (cs ++ Style.commaBefore false ks ++ '\n' :: gap ++ ds) (fs ++ es) := by
  rcases hd with ⟨rfl, hd⟩ | hd
  · have hgap : Skipped (gap ++ ds) := by
      refine ⟨by simp [hg.no_return, hd.no_return], fun r us hr => ?_⟩
      rw [List.append_assoc]
      exact hg.reads _ _ (hd.reads r us hr)
    have hline := Skipped.comment (l := [',']) (by decide) (by decide) hgap
    simpa [h.commaBefore] using hc.behind (.inr (.inr (.inr (.inl rfl)))) hline
  · simpa [h.commaBefore, hd.ne_nil] using hc.append hg.break hd

/-- Child codes on their lines say what they say by themselves, if a line break follows. -/
theorem Says.joinChildren {indent gap : List Char} (hi : indent.all isIndent = true)
    (hg : Skipped gap) {ks : List ChildCode} {es : List Expr} (h : Says ks es) (hne : ks ≠ []) :
    (es = [] ∧ Skipped (joinChildren false indent ks ++ '\n' :: gap)) ∨
      Lists (joinChildren false indent ks ++ '\n' :: gap) es := by
  have hindent := skipped_of_indent hi
  induction h with
  | nil => exact absurd rfl hne
  | @remark cs ks es hc h ih =>
    cases ks with
    | nil =>
      cases h
      exact .inl ⟨rfl, by simpa [Style.joinChildren] using hc [] gap (by simp) (by simp) hg⟩
    | cons k ks =>
      have hline (gap : List Char) := hc [','] gap (by decide) (by decide)
      rcases ih (by simp) with ⟨rfl, hs⟩ | hl
      · exact .inl ⟨rfl, by simpa [Style.joinChildren] using hline _ (hs.indent hi)⟩
      · exact .inr (by simpa [Style.joinChildren] using hl.space (hline indent hindent))
  | @live cs e ks es hc h ih =>
    refine .inr ?_
    cases ks with
    | nil =>
      cases h
      simpa [Style.joinChildren] using hc.lists.behind (.inr (.inr (.inl rfl))) hg.break
    | cons k ks => simpa [Style.joinChildren] using h.append hindent hc.lists (ih (by simp))

/-- What stands between the parentheses of a call says the arguments and the children that are not
commented out. -/
theorem Says.arguments {indent childIndent : List Char} (hi : indent.all isIndent = true)
    (hc : childIndent.all isIndent = true) {ts : List (List Char)} {as : List Expr}
    (ht : (ts = [] ∧ as = []) ∨ (ts ≠ [] ∧ Lists (joinWith [',', ' '] ts) as))
    {ks : List ChildCode} {es : List Expr} (h : Says ks es) :
    Fills (arguments false indent childIndent ts ks) (as ++ es) := by
  have hbreak := (skipped_of_indent hc).break
  cases ks with
  | nil =>
    cases h
    rcases ht with ⟨rfl, rfl⟩ | ⟨-, hl⟩
    · exact fills_nil
    · simpa [Style.arguments] using hl.fills
  | cons k ks =>
    have hjoin := h.joinChildren hc (skipped_of_indent hi) (by simp)
    rcases ht with ⟨rfl, rfl⟩ | ⟨hne, hl⟩
    · rcases hjoin with ⟨rfl, hs⟩ | hs
      · simpa [Style.arguments, joinWith] using (hs.indent hc).break.fills
      · simpa [Style.arguments, joinWith] using (hs.space hbreak).fills
    · simpa [Style.arguments, hne] using (h.append (skipped_of_indent hc) hl hjoin).fills

theorem arguments_eq_nil_iff {inComment : Bool} {indent childIndent : List Char}
    {ts : List (List Char)} {as : List Expr}
    (ht : (ts = [] ∧ as = []) ∨ (ts ≠ [] ∧ Lists (joinWith [',', ' '] ts) as))
    {ks : List ChildCode} :
    arguments inComment indent childIndent ts ks = [] ↔ as = [] ∧ ks = [] := by
  cases ks with
  | cons k ks => simp [Style.arguments]
  | nil =>
    rcases ht with ⟨rfl, rfl⟩ | ⟨hne, hl⟩
    · simp [Style.arguments, joinWith]
    · simp [Style.arguments, hl.text_ne_nil, hl.ne_nil]

/-! ### Carriage returns -/

theorem commaBefore_no_return (inComment : Bool) (ks : List ChildCode) :
    '\r' ∉ Style.commaBefore inComment ks := by
  unfold Style.commaBefore
  split <;> decide

theorem joinChildren_no_return (inComment : Bool) {indent : List Char} (hi : '\r' ∉ indent)
    {ks : List ChildCode} (h : ∀ k ∈ ks, '\r' ∉ k.code) :
    '\r' ∉ Style.joinChildren inComment indent ks := by
  fun_induction Style.joinChildren inComment indent ks with
  | case1 => simp
  | case2 k => exact h k List.mem_cons_self
  | case3 k ks hne ih =>
    have hrest := ih fun m hm => h m (List.mem_cons_of_mem k hm)
    have hcomma : '\r' ∉ if k.commented = true then [','] else Style.commaBefore inComment ks := by
      split
      · decide
      · exact commaBefore_no_return inComment ks
    simp [h k List.mem_cons_self, hcomma, hi, hrest]

theorem arguments_no_return (inComment : Bool) {indent childIndent : List Char} (hi : '\r' ∉ indent)
    (hc : '\r' ∉ childIndent) {ts : List (List Char)} (ht : '\r' ∉ joinWith [',', ' '] ts)
    {ks : List ChildCode} (h : ∀ k ∈ ks, '\r' ∉ k.code) :
    '\r' ∉ arguments inComment indent childIndent ts ks := by
  have hjoin := joinChildren_no_return inComment hc h
  have hcomma := commaBefore_no_return inComment ks
  unfold Style.arguments
  split_ifs <;> simp [ht, hi, hc, hjoin, hcomma]

end Style

end FluentPlan
