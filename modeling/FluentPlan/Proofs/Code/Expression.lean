import FluentPlan.Proofs.Assembly.Walk
import FluentPlan.Proofs.Code.Comment

/-!
What generated code says. A call denotes an expression: its method applied to what its arguments
say and to the expressions of its children, with the calls chained to it. The code of a call spells
this expression, less the children that are commented out, however it is laid out.
-/

namespace FluentPlan

open Script Java Text

/-- A method name that code can call by itself: an identifier that is no literal, and no word that
begins a definition. -/
def isPlainName (name : String) : Bool :=
  isIdentifier name.toList && !literalWords.contains name && !isModifier ⟨.ident, name, .start⟩

theorem isDotted_of_isPlainName {name : String} (h : isPlainName name = true) : IsDotted name := by
  simp only [isPlainName, Bool.and_eq_true] at h
  exact isDotted_of_isIdentifier h.1.1 (by simpa using h.1.2)

theorem isIdentifier_of_isPlainName {name : String} (h : isPlainName name = true) :
    isIdentifier name.toList = true := by
  simp only [isPlainName, Bool.and_eq_true] at h
  exact h.1.1

/-! ### Expressions of calls -/

namespace Arg

/-- The expressions of an argument, if it appears in code. -/
def exprs (a : Arg) : List Expr :=
  match a with
  | scalar p v => if a.isRendered then p.exprs v else []
  | children => []

/-- Whether the text of an argument is made of literals. -/
def Readable (a : Arg) : Prop :=
  match a with
  | scalar p v => a.isRendered = true → p.Readable v
  | children => True

end Arg

namespace Call

mutual

/-- The expression of a call. -/
def toExpr : Call → Expr
  | ⟨head, children, chain⟩ =>
    .call ⟨.start, head.method, head.args.flatMap Arg.exprs ++ childExprs children⟩
      (chainExprs chain)

/-- The expressions of child calls, of which those without effect say nothing. -/
def childExprs : List Call → List Expr
  | [] => []
  | c :: cs => if c.isEmpty then childExprs cs else toExpr c :: childExprs cs

/-- The chained calls. One that would take children but has none says nothing. -/
def chainExprs : List Call → List (Invocation Expr)
  | [] => []
  | ⟨head, children, _⟩ :: cs =>
    let as := head.args.flatMap Arg.exprs ++ childExprs children
    if head.method = "children" && as.isEmpty then chainExprs cs
    else ⟨.start, head.method, as⟩ :: chainExprs cs

end

theorem isEmpty_childExprs (cs : List Call) : (childExprs cs).isEmpty = cs.all (·.isEmpty) := by
  induction cs with
  | nil => simp [childExprs]
  | cons c cs ih => cases h : c.isEmpty <;> simp [childExprs, h, ih]

/-- The expressions between the parentheses of a call. -/
def argExprs (c : Call) : List Expr := c.head.args.flatMap Arg.exprs ++ childExprs c.children

/-- Whether code has nothing between the parentheses of a call, not even a comment. -/
def isBare (c : Call) : Bool :=
  (c.head.args.flatMap Arg.exprs).isEmpty && c.children.all (·.isEmpty)

mutual

/-- The expression of a call that is not commented out, less the children that are. -/
def shownExpr : Call → Expr
  | ⟨head, children, chain⟩ =>
    .call ⟨.start, head.method, head.args.flatMap Arg.exprs ++ shownExprs children⟩
      (shownChain chain)

def shownExprs : List Call → List Expr
  | [] => []
  | c :: cs =>
    if c.isEmpty || c.head.commented then shownExprs cs else shownExpr c :: shownExprs cs

/-- The chained calls. One that would take children is left out only if its code is bare. -/
def shownChain : List Call → List (Invocation Expr)
  | [] => []
  | ⟨head, children, chain⟩ :: cs =>
    if head.method = "children" && isBare ⟨head, children, chain⟩ then shownChain cs
    else ⟨.start, head.method, head.args.flatMap Arg.exprs ++ shownExprs children⟩ :: shownChain cs

end

/-- The expressions between the parentheses of a call. -/
def shownArgs (c : Call) : List Expr := c.head.args.flatMap Arg.exprs ++ shownExprs c.children

/-- Calls with arguments made of literals. What is chained to a call has no chain of its own. -/
inductive Legible : Call → Prop
  | empty (category : String) : Legible (.empty category)
  | call {head : CallHead} {children chain : List Call} (hr : head.role ≠ .empty)
      (hm : isPlainName head.method = true) (ha : ∀ a ∈ head.args, a.Readable)
      (hk : ∀ c ∈ children, Legible c) (hl : ∀ c ∈ chain, Legible c)
      (hf : ∀ c ∈ chain, c.isEmpty = false ∧ c.chain = [] ∧ c.head.commented = false) :
      Legible ⟨head, children, chain⟩

/-- Whether nothing in a call is commented out. -/
def IsOpen (c : Call) : Prop := ∀ d ∈ c.walk, d.head.commented = false

theorem IsOpen.child {c d : Call} (h : c.IsOpen) (hd : d ∈ c.children) : d.IsOpen :=
  fun e he => h e (walk_subset_of_mem_children hd he)

theorem IsOpen.link {c d : Call} (h : c.IsOpen) (hd : d ∈ c.chain) : d.IsOpen :=
  fun e he => h e (walk_subset_of_mem_chain hd he)

mutual

/-- Where nothing is commented out, all is shown. -/
theorem shownExpr_eq : (c : Call) → c.IsOpen → c.shownExpr = c.toExpr
  | ⟨head, children, chain⟩ => fun h => by
    rw [shownExpr, toExpr, shownExprs_eq children fun _ hc => h.child hc,
      shownChain_eq chain fun _ hc => h.link hc]

theorem shownExprs_eq : (cs : List Call) → (∀ c ∈ cs, c.IsOpen) → shownExprs cs = childExprs cs
  | [], _ => by rw [shownExprs, childExprs]
  | c :: cs, h => by
    have hc := h c List.mem_cons_self
    have hcom : c.head.commented = false := hc c (mem_walk_self c)
    rw [shownExprs, childExprs, hcom, Bool.or_false, shownExpr_eq c hc,
      shownExprs_eq cs fun d hd => h d (List.mem_cons_of_mem c hd)]

theorem shownChain_eq : (cs : List Call) → (∀ c ∈ cs, c.IsOpen) → shownChain cs = chainExprs cs
  | [], _ => by rw [shownChain, chainExprs]
  | ⟨head, children, chain⟩ :: cs, h => by
    have hc := h _ List.mem_cons_self
    have hchildren := shownExprs_eq children fun _ hd => hc.child hd
    have hbare : isBare ⟨head, children, chain⟩ =
        (head.args.flatMap Arg.exprs ++ childExprs children).isEmpty := by
      rw [isBare, ← isEmpty_childExprs]
      cases head.args.flatMap Arg.exprs <;> simp
    rw [shownChain, chainExprs, hbare, hchildren,
      shownChain_eq cs fun d hd => h d (List.mem_cons_of_mem _ hd)]

end

end Call

/-! ### Arguments -/

theorem Style.lists_scalars (style : Style) {indent : List Char} (hi : indent.all isIndent = true)
    {args : List Arg} (ha : ∀ a ∈ args, a.Readable) :
    (style.scalars indent args = [] ∧ args.flatMap Arg.exprs = []) ∨
      (style.scalars indent args ≠ [] ∧
        Lists (joinWith [',', ' '] (style.scalars indent args)) (args.flatMap Arg.exprs)) := by
  induction args with
  | nil => exact .inl ⟨rfl, rfl⟩
  | cons a args ih =>
    have hrest := ih fun b hb => ha b (List.mem_cons_of_mem a hb)
    have hread := ha a List.mem_cons_self
    cases a with
    | children => simpa [scalars, Arg.exprs] using hrest
    | scalar p v =>
      cases hr : (Arg.scalar p v).isRendered with
      | false => simpa [scalars, Arg.exprs, hr] using hrest
      | true =>
        have hl := Param.lists_render (hread hr) hi style.blocks
        have hs : style.scalars indent (.scalar p v :: args) =
            p.render v indent style.blocks :: style.scalars indent args := by
          simp [scalars, hr]
        refine .inr ⟨by simp [hs], ?_⟩
        rw [hs]
        rcases hrest with ⟨hnil, hes⟩ | ⟨hne, hrest⟩
        · simpa [hnil, hes, joinWith, Arg.exprs, hr] using hl
        · have happ := hl.append skipped_blank hrest
          obtain ⟨t, ts, ht⟩ := List.exists_cons_of_ne_nil hne
          simpa [ht, joinWith, Arg.exprs, hr] using happ

/-! ### Calls -/

namespace Call

theorem code_of_isEmpty {c : Call} (h : c.isEmpty = true) (style : Style) (indent : List Char)
    (inComment own : Bool) : c.code style indent inComment own = [] := by
  obtain ⟨head, children, chain⟩ := c
  have hr : head.role = .empty := by simpa [isEmpty] using h
  simp [code, hr]

theorem code_ne_nil {c : Call} (h : c.isEmpty = false) (style : Style) (indent : List Char)
    (inComment own : Bool) : c.code style indent inComment own ≠ [] := by
  obtain ⟨head, children, chain⟩ := c
  have hr : head.role ≠ .empty := by simpa [isEmpty] using h
  simp only [code, hr, if_false]
  split
  · exact commentOut_ne_nil _ _
  · simp

theorem childCodes_cons (style : Style) (indent : List Char) (inComment : Bool) (c : Call)
    (cs : List Call) : childCodes style indent inComment (c :: cs) =
      if c.isEmpty then childCodes style indent inComment cs
      else ⟨c.code style indent inComment true, c.head.commented⟩ ::
        childCodes style indent inComment cs := by
  rw [childCodes]
  cases h : c.isEmpty with
  | true => simp [code_of_isEmpty h]
  | false =>
    split
    · next hc => exact absurd hc (code_ne_nil h style indent inComment true)
    · simp

theorem childCodes_eq_nil_iff (style : Style) (indent : List Char) (inComment : Bool)
    (cs : List Call) : childCodes style indent inComment cs = [] ↔ cs.all (·.isEmpty) = true := by
  induction cs with
  | nil => simp [childCodes]
  | cons c cs ih => cases h : c.isEmpty <;> simp [childCodes_cons, h, ih]

theorem mem_childCodes {style : Style} {indent : List Char} {inComment : Bool} {cs : List Call}
    {k : ChildCode} (h : k ∈ childCodes style indent inComment cs) :
    ∃ c ∈ cs, k = ⟨c.code style indent inComment true, c.head.commented⟩ := by
  induction cs with
  | nil => simp [childCodes] at h
  | cons c cs ih =>
    rw [childCodes_cons] at h
    split_ifs at h
    · obtain ⟨d, hd, rfl⟩ := ih h
      exact ⟨d, List.mem_cons_of_mem c hd, rfl⟩
    · rcases List.mem_cons.mp h with rfl | h
      · exact ⟨c, List.mem_cons_self, rfl⟩
      · obtain ⟨d, hd, rfl⟩ := ih h
        exact ⟨d, List.mem_cons_of_mem c hd, rfl⟩

theorem Legible.isPlainName {c : Call} (h : c.Legible) (hne : c.isEmpty = false) :
    isPlainName c.head.method = true := by
  cases h with
  | empty category => cases hne
  | call _ hm => exact hm

/-! ### Code that is commented out -/

theorem chainCode_no_return {style : Style} {indent : List Char} (hi : '\r' ∉ indent)
    (inComment : Bool) {chain : List Call}
    (h : ∀ c ∈ chain, '\r' ∉ c.code style indent inComment true) :
    '\r' ∉ chainCode style indent inComment chain := by
  induction chain with
  | nil => simp [chainCode]
  | cons c chain ih =>
    have hc := h c List.mem_cons_self
    have hrest := ih fun d hd => h d (List.mem_cons_of_mem c hd)
    simp only [chainCode]
    split_ifs <;> simp [hc, hi, hrest]

/-- The code of a legible call has no carriage return, commented out or not. -/
theorem Legible.no_return {c : Call} (h : c.Legible) {style : Style}
    (hs : style.indent.all isIndent = true) : ∀ {indent : List Char} (inComment own : Bool),
      indent.all isIndent = true → '\r' ∉ c.code style indent inComment own := by
  induction h with
  | empty category => simp [code, Call.empty]
  | @call head children chain hr hm ha hk hl hf ihk ihl =>
    intro indent inComment own hi
    have hci : (indent ++ style.indent).all isIndent = true := by simp [hi, hs]
    have hargs : '\r' ∉ joinWith [',', ' '] (style.scalars (indent ++ style.indent) head.args) := by
      rcases Style.lists_scalars style hci ha with ⟨hnil, -⟩ | ⟨-, ws, -, hsp⟩
      · simp [hnil, joinWith]
      · exact hsp.no_return
    have hindent := (skipped_of_indent hi).no_return
    have hchild := (skipped_of_indent hci).no_return
    have hname := isIdentifier_no_return (isIdentifier_of_isPlainName hm)
    have htext (nested : Bool) : '\r' ∉ head.method.toList ++ '(' ::
        Style.arguments nested indent (indent ++ style.indent)
          (style.scalars (indent ++ style.indent) head.args)
          (childCodes style (indent ++ style.indent) nested children) ++
        ')' :: chainCode style (indent ++ style.indent) nested chain := by
      have hcodes : ∀ k ∈ childCodes style (indent ++ style.indent) nested children,
          '\r' ∉ k.code := by
        intro k hk
        obtain ⟨c, hc, rfl⟩ := mem_childCodes hk
        exact ihk c hc nested true hci
      have harguments := Style.arguments_no_return nested hindent hchild hargs hcodes
      have hlinks := chainCode_no_return hchild nested fun c hc => ihl c hc nested true hci
      simp [hname, harguments, hlinks]
    simp only [code, hr, if_false]
    split
    · exact commentOut_no_return hindent (htext _)
    · exact htext _

/-- The code of a call that is commented out is the comment of some text. -/
theorem Legible.isRemark {c : Call} (h : c.Legible) (hne : c.isEmpty = false)
    (hc : c.head.commented = true) {style : Style} (hs : style.indent.all isIndent = true)
    {indent : List Char} (hi : indent.all isIndent = true) :
    IsRemark (c.code style indent false true) := by
  -- in a comment already, the same text would stand uncommented
  have hcode : c.code style indent false true = commentOut indent (c.code style indent true true) := by
    obtain ⟨head, children, chain⟩ := c
    have hc : head.commented = true := hc
    have hr : head.role ≠ .empty := by simpa [isEmpty] using hne
    simp [code, hr, hc]
  rw [hcode]
  exact isRemark_commentOut hi (h.no_return hs true true hi)

/-! ### Code that says an expression -/

/-- What the code of a call is made of, wherever it stands: the parentheses say its arguments, and
what stands behind them says its chained calls. -/
def SpelledOut (c : Call) : Prop :=
  ∀ (style : Style) (indent : List Char), style.indent.all isIndent = true →
    indent.all isIndent = true →
    ∃ cs ds vs, Fills cs c.shownArgs ∧ (cs = [] ↔ c.isBare = true) ∧
      IsChain (shownChain c.chain) vs ∧ Spells ds vs ∧ (c.chain = [] → ds = []) ∧
      c.code style indent false true = c.head.method.toList ++ '(' :: cs ++ ')' :: ds

theorem shownExpr_eq_call (c : Call) :
    c.shownExpr = .call ⟨.start, c.head.method, c.shownArgs⟩ (shownChain c.chain) := by
  obtain ⟨head, children, chain⟩ := c
  simp [shownExpr, shownArgs]

theorem SpelledOut.writes {c : Call} (h : c.SpelledOut) (hm : isPlainName c.head.method = true)
    {style : Style} (hs : style.indent.all isIndent = true) {indent : List Char}
    (hi : indent.all isIndent = true) : Writes (c.code style indent false true) c.shownExpr := by
  obtain ⟨cs, ds, vs, ⟨ws, hargs, hcs⟩, -, hchain, hds, -, hcode⟩ := h style indent hs hi
  have hd := isDotted_of_isPlainName hm
  obtain ⟨ns, hn, hr⟩ := hd.reads
  rw [hcode, shownExpr_eq_call]
  exact ⟨_, .call .start hn hargs hchain, .call hr hd.no_return hcs hds⟩

theorem says_childCodes {style : Style} (hs : style.indent.all isIndent = true)
    {indent : List Char} (hi : indent.all isIndent = true) {children : List Call}
    (hl : ∀ c ∈ children, c.Legible)
    (hw : ∀ c ∈ children, c.isEmpty = false → c.head.commented = false → c.SpelledOut) :
    Style.Says (childCodes style indent false children) (shownExprs children) := by
  induction children with
  | nil => simpa [childCodes, shownExprs] using .nil
  | cons c children ih =>
    have hrest := ih (fun d hd => hl d (List.mem_cons_of_mem c hd))
      fun d hd => hw d (List.mem_cons_of_mem c hd)
    have hc := hl c List.mem_cons_self
    rw [childCodes_cons, shownExprs]
    cases hne : c.isEmpty with
    | true => simpa using hrest
    | false =>
      cases hcom : c.head.commented with
      | true => simpa using .remark (hc.isRemark hne hcom hs hi) hrest
      | false =>
        have hwrites := (hw c List.mem_cons_self hne hcom).writes (hc.isPlainName hne) hs hi
        simpa using .live hwrites hrest

theorem chainCode_spells {style : Style} (hs : style.indent.all isIndent = true)
    {indent : List Char} (hi : indent.all isIndent = true) {chain : List Call}
    (hl : ∀ c ∈ chain, c.chain = []) (hw : ∀ c ∈ chain, c.SpelledOut)
    (hm : ∀ c ∈ chain, isIdentifier c.head.method.toList = true) :
    ∃ vs, IsChain (shownChain chain) vs ∧ Spells (chainCode style indent false chain) vs := by
  induction chain with
  | nil => exact ⟨[], by simpa [shownChain] using .nil, by simpa [chainCode] using spells_nil⟩
  | cons c chain ih =>
    obtain ⟨vs, hvs, hds⟩ := ih (fun d hd => hl d (List.mem_cons_of_mem c hd))
      (fun d hd => hw d (List.mem_cons_of_mem c hd)) fun d hd => hm d (List.mem_cons_of_mem c hd)
    obtain ⟨cs, ds, us, ⟨ws, hargs, hspell⟩, hbare, -, -, hnil, hcode⟩ :=
      hw c List.mem_cons_self style indent hs hi
    rw [hnil (hl c List.mem_cons_self)] at hcode
    have hexprs : shownChain (c :: chain) =
        if c.head.method = "children" && c.isBare then shownChain chain
        else ⟨.start, c.head.method, c.shownArgs⟩ :: shownChain chain := by
      obtain ⟨head, children, chain'⟩ := c
      simp [shownChain, shownArgs]
    by_cases hdrop : c.head.method = "children" ∧ c.isBare = true
    · obtain ⟨hname, has⟩ := hdrop
      have htext : c.code style indent false true = "children()".toList := by
        rw [hcode, hname, hbare.mpr has]
        rfl
      refine ⟨vs, by simpa [hexprs, hname, has] using hvs, ?_⟩
      simpa [chainCode, hname, htext] using hds
    · have hkeep : ¬ (c.head.method = "children" ∧
          c.code style indent false true = "children()".toList) := by
        rintro ⟨hname, htext⟩
        rw [hcode, hname] at htext
        have hcs : cs = [] := by simpa using htext
        exact hdrop ⟨hname, hbare.mp hcs⟩
      have hident := hm c List.mem_cons_self
      refine ⟨.op "." :: .ident c.head.method :: .op "(" :: ws ++ .op ")" :: vs, ?_, ?_⟩
      · rw [hexprs, if_neg (by simpa using hdrop)]
        exact .cons .start _ hargs hvs
      · have hname : ∀ r us, (∀ c, r.head? = some c → isIdentPart c = false) → Reads r us →
            Reads (c.head.method.toList ++ r) ([Word.ident c.head.method] ++ us) := by
          intro r us hr hus
          have hread := reads_ident hident hr hus
          rwa [String.ofList_toList] at hread
        have hcall := Spells.call hname (isIdentifier_no_return hident) hspell hds
        have hlink := hcall.point.space (skipped_of_indent hi).break
        have hlines : chainCode style indent false (c :: chain) = '\n' :: indent ++
            '.' :: c.code style indent false true ++ chainCode style indent false chain := by
          rw [chainCode]
          exact if_neg (by simpa only [Bool.and_eq_true, decide_eq_true_eq] using hkeep)
        rw [hlines, hcode]
        simpa using hlink

/-- The code of a legible call is made of what its arguments and its chained calls say. -/
theorem Legible.spelledOut {c : Call} (h : c.Legible) :
    c.isEmpty = false → c.head.commented = false → c.SpelledOut := by
  induction h with
  | empty category =>
    intro hne
    cases hne
  | @call head children chain hr hm ha hk hl hf ihk ihl =>
    intro _ hc style indent hs hi
    have hc : head.commented = false := hc
    have hci : (indent ++ style.indent).all isIndent = true := by simp [hi, hs]
    have hscalars := Style.lists_scalars style hci ha
    have hfill := (says_childCodes hs hci hk ihk).arguments hi hci hscalars
    obtain ⟨vs, hvs, hds⟩ := chainCode_spells hs hci (fun c hc => (hf c hc).2.1)
      (fun c hc => ihl c hc (hf c hc).1 (hf c hc).2.2)
      fun c hc => isIdentifier_of_isPlainName ((hl c hc).isPlainName (hf c hc).1)
    refine ⟨_, _, vs, hfill, ?_, hvs, hds, ?_, ?_⟩
    · rw [Style.arguments_eq_nil_iff hscalars, childCodes_eq_nil_iff]
      simp [isBare]
    · rintro rfl
      simp [chainCode]
    · simp [code, hr, hc]

/-- The code of a legible call spells what is shown of it. -/
theorem Legible.writes {c : Call} (h : c.Legible) (hne : c.isEmpty = false)
    (hc : c.head.commented = false) {style : Style} (hs : style.indent.all isIndent = true)
    {indent : List Char} (hi : indent.all isIndent = true) :
    Writes (c.code style indent false true) c.shownExpr :=
  (h.spelledOut hne hc).writes (h.isPlainName hne) hs hi

/-- All arguments in a legible call are made of literals. -/
theorem Legible.readable {c : Call} (h : c.Legible) :
    ∀ d ∈ c.walk, ∀ a ∈ d.head.args, a.Readable := by
  induction h with
  | empty category =>
    intro d hd a ha
    rw [walk_empty, List.mem_singleton] at hd
    rw [hd] at ha
    cases ha
  | @call head children chain hr hm ha hk hl hf ihk ihl =>
    intro d hd
    rcases mem_walk_iff.mp hd with rfl | ⟨k, hk, hd⟩ | ⟨l, hl, hd⟩
    · exact ha
    · exact ihk k hk d hd
    · exact ihl l hl d hd

/-! ### Positions -/

theorem unplacedAll_of_forall {es : List Expr} (h : ∀ e ∈ es, e.unplaced = e) :
    Expr.unplacedAll es = es := by
  induction es with
  | nil => rfl
  | cons e es ih =>
    rw [Expr.unplacedAll, h e List.mem_cons_self, ih fun f hf => h f (List.mem_cons_of_mem e hf)]

theorem unplaced_exprs (p : Param) (v : Option Value) : ∀ e ∈ p.exprs v, e.unplaced = e := by
  have hduration (ms : Int) : (Param.durationExpr ms).unplaced = Param.durationExpr ms := by
    unfold Param.durationExpr
    split_ifs <;> rfl
  have hcharset (s : String) : (Param.charsetExpr s).unplaced = Param.charsetExpr s := by
    unfold Param.charsetExpr
    split <;> rfl
  intro e he
  unfold Param.exprs at he
  split at he
  · rw [List.mem_singleton.mp he]
    rfl
  · rw [List.mem_singleton.mp he]
    rfl
  · unfold Param.valueExprs at he
    split at he <;> first
      | (rw [List.mem_singleton.mp he]
         first | rfl | exact hduration _ | exact hcharset _)
      | (obtain ⟨s, -, rfl⟩ := List.mem_map.mp he
         rfl)

theorem unplaced_argExprs (args : List Arg) : ∀ e ∈ args.flatMap Arg.exprs, e.unplaced = e := by
  intro e he
  obtain ⟨a, -, he⟩ := List.mem_flatMap.mp he
  unfold Arg.exprs at he
  split at he
  · split_ifs at he
    · exact unplaced_exprs _ _ e he
    · cases he
  · cases he

mutual

/-- What is shown of a call has all its positions at the start. -/
theorem unplaced_shownExpr : (c : Call) → c.shownExpr.unplaced = c.shownExpr
  | ⟨head, children, chain⟩ => by
    have hargs : Expr.unplacedAll (head.args.flatMap Arg.exprs ++ shownExprs children) =
        head.args.flatMap Arg.exprs ++ shownExprs children :=
      unplacedAll_of_forall fun e he => (List.mem_append.mp he).elim
        (unplaced_argExprs head.args e) (unplaced_shownExprs children e)
    rw [shownExpr, Expr.unplaced, hargs, unplaced_shownChain chain]

theorem unplaced_shownExprs : (cs : List Call) → ∀ e ∈ shownExprs cs, e.unplaced = e
  | [] => by simp [shownExprs]
  | c :: cs => by
    intro e he
    unfold shownExprs at he
    split_ifs at he
    · exact unplaced_shownExprs cs e he
    · rcases List.mem_cons.mp he with rfl | he
      · exact unplaced_shownExpr c
      · exact unplaced_shownExprs cs e he

theorem unplaced_shownChain : (cs : List Call) →
    Expr.unplacedChain (shownChain cs) = shownChain cs
  | [] => by simp [shownChain, Expr.unplacedChain]
  | ⟨head, children, _⟩ :: cs => by
    have hargs : Expr.unplacedAll (head.args.flatMap Arg.exprs ++ shownExprs children) =
        head.args.flatMap Arg.exprs ++ shownExprs children :=
      unplacedAll_of_forall fun e he => (List.mem_append.mp he).elim
        (unplaced_argExprs head.args e) (unplaced_shownExprs children e)
    simp only [shownChain]
    split_ifs
    · exact unplaced_shownChain cs
    · rw [Expr.unplacedChain, hargs, unplaced_shownChain cs]

end

end Call

end FluentPlan
