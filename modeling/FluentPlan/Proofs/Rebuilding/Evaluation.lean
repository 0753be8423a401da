import FluentPlan.Proofs.Rebuilding.Construct

/-!
What the evaluation of a call comes to. The arguments in front are those of the call itself, the others
its children; one form of the method takes both and the chained calls, and the element it makes meets
that form.
-/

namespace FluentPlan

open Script

namespace Build

/-! ### Operands -/

theorem operands_eq_map (s : Scope) (es : List Expr) :
    operands s es = es.map fun e => ⟨e, fun _ => evaluate s e⟩ := by
  induction es with
  | nil => rw [operands, List.map_nil]
  | cons e es ih => rw [operands, ih, List.map_cons]

theorem invocations_eq_map (s : Scope) (cs : List (Invocation Expr)) :
    invocations s cs = cs.map fun c => ⟨c.pos, c.name, operands s c.args⟩ := by
  induction cs with
  | nil => rw [invocations, List.map_nil]
  | cons c cs ih => rw [invocations, ih, List.map_cons]

theorem map_unplaced_operands (s : Scope) (es : List Expr) :
    (operands s es).map (fun a => a.expr.unplaced) = es.map Expr.unplaced := by
  rw [operands_eq_map, List.map_map]
  rfl

/-- Whether an argument is a child does not depend on where it stands. -/
theorem isChild_unplaced (a : Operand) : a.isChild = Operand.isChild ⟨a.expr.unplaced, a.element⟩ := by
  obtain ⟨expr, element⟩ := a
  cases expr <;> rfl

theorem isChild_toExpr {c : Call} (hm : isPlainName c.head.method = true) {a : Operand}
    (ha : a.expr.unplaced = c.toExpr) : a.isChild = true := by
  have hpoint := not_mem_of_isIdentifier (isIdentifier_of_isPlainName hm) (c := '.') (by decide)
  obtain ⟨head, children, chain⟩ := c
  rw [isChild_unplaced, ha]
  simpa [Operand.isChild, Call.toExpr] using hpoint

/-- No value of a parameter is a child: what it calls has a point in its name. -/
theorem not_isChild_of_mem_exprs {p : Param} {v : Option Value} {a : Operand}
    (ha : a.expr.unplaced ∈ p.exprs v) : a.isChild = false := by
  have hcall {name : String} (hn : name.toList.contains '.' = true) {es : List Expr}
      (h : a.expr.unplaced = .call ⟨.start, name, es⟩ []) : a.isChild = false := by
    rw [isChild_unplaced, h]
    change (!name.toList.contains '.') = false
    rw [hn, Bool.not_true]
  have hvalue {kind : ParamKind} {v : Value} (h : a.expr.unplaced ∈ Param.valueExprs kind v) :
      a.isChild = false := by
    unfold Param.valueExprs at h
    split at h
    case h_6 | h_7 =>
      have h := List.mem_singleton.mp h
      unfold Param.durationExpr at h
      split_ifs at h
      · rw [isChild_unplaced, h]
        rfl
      · exact hcall (by decide) h
      · exact hcall (by decide) h
    case h_8 | h_9 =>
      obtain ⟨item, -, hitem⟩ := List.mem_map.mp h
      rw [isChild_unplaced, ← hitem]
      rfl
    case h_11 =>
      have h := List.mem_singleton.mp h
      unfold Param.charsetExpr at h
      split at h
      · rw [isChild_unplaced, h]
        rfl
      · exact hcall (by decide) h
    all_goals
      rw [isChild_unplaced, List.mem_singleton.mp h]
      rfl
  unfold Param.exprs at ha
  split at ha
  · rw [isChild_unplaced, List.mem_singleton.mp ha]
    rfl
  · rw [isChild_unplaced, List.mem_singleton.mp ha]
    rfl
  · exact hvalue ha

theorem divide_append {leading children : List Operand} (hl : ∀ a ∈ leading, a.isChild = false)
    (hc : ∀ a ∈ children, a.isChild = true) :
    divide (leading ++ children) = .ok (leading.map (·.expr), children) := by
  induction leading with
  | nil =>
    cases children with
    | nil => rfl
    | cons a as =>
      have hnone : as.find? (fun b => !b.isChild) = none :=
        List.find?_eq_none.mpr fun b hb => by simp [hc b (List.mem_cons_of_mem a hb)]
      rw [List.nil_append, divide, if_pos (hc a List.mem_cons_self), hnone]
      rfl
  | cons a as ih =>
    rw [List.cons_append, divide, if_neg (by simp [hl a List.mem_cons_self]),
      ih fun b hb => hl b (List.mem_cons_of_mem a hb)]
    rfl

/-! ### Forms of a method -/

/-- What a form makes of a call, and meets. -/
structure Makes (s : Signature) (line : Nat) (name : String) (leading : List Expr)
    (children : List Operand) (chain : List (Invocation Operand)) (e : Element) : Prop where
  chained : checkChain s chain = .ok ()
  values : ∃ values, bindScalars s.scalarParams line name leading = .ok values ∧
    (construct s values children chain).outcome = .ok e
  met : s.unmet? e.properties = none

/-- What the first of some forms makes that takes a call. -/
structure MakesFirst (forms : List Signature) (s : Signature) (line : Nat) (name : String)
    (leading : List Expr) (children : List Operand) (chain : List (Invocation Operand))
    (e : Element) : Prop where
  makes : Makes s line name leading children chain e
  first : ∃ before behind, forms = before ++ s :: behind ∧
    ∀ t ∈ before, ∀ e', ¬ Makes t line name leading children chain e'

theorem MakesFirst.mem {forms : List Signature} {s : Signature} {line : Nat} {name : String}
    {leading : List Expr} {children : List Operand} {chain : List (Invocation Operand)} {e : Element}
    (h : MakesFirst forms s line name leading children chain e) : s ∈ forms := by
  obtain ⟨before, behind, rfl, -⟩ := h.first
  exact List.mem_append_right before List.mem_cons_self

theorem makesFirst_of_tryForms {pos : Position} {name : String} {leading : List Expr}
    {children : List Operand} {chain : List (Invocation Operand)} {failures : List BuildProblem}
    {ss : List Signature} {s : Signature} {e : Element}
    (h : (tryForms pos name leading children chain failures ss).outcome = .ok (s, e)) :
    MakesFirst ss s pos.line name leading children chain e := by
  induction ss generalizing failures with
  | nil =>
    rcases failures with _ | ⟨p, _ | ⟨q, failures⟩⟩ <;> cases h
  | cons t ss ih =>
    have hrest {failures : List BuildProblem}
        (ht : ∀ e', ¬ Makes t pos.line name leading children chain e')
        (h : (tryForms pos name leading children chain failures ss).outcome = .ok (s, e)) :
        MakesFirst (t :: ss) s pos.line name leading children chain e := by
      obtain ⟨hmakes, before, behind, rfl, hbefore⟩ := ih h
      exact ⟨hmakes, t :: before, behind, rfl, List.forall_mem_cons.mpr ⟨ht, hbefore⟩⟩
    rw [tryForms] at h
    split at h
    · next hvalues =>
      have ht (e' : Element) : ¬ Makes t pos.line name leading children chain e' := by
        rintro ⟨hchain, ⟨values, hbound, -⟩, -⟩
        rw [hbound, ok_bind, hchain] at hvalues
        cases hvalues
      split at h
      · exact hrest ht h
      · cases h
    · next values hvalues =>
      obtain ⟨_, hbound, hvalues⟩ := exists_of_bind_eq_ok hvalues
      obtain ⟨_, hchain, hvalues⟩ := exists_of_bind_eq_ok hvalues
      cases hvalues
      rw [Logged.outcome_bind] at h
      obtain ⟨made, hmade, h⟩ := exists_of_bind_eq_ok h
      split at h
      · next hunmet =>
        refine hrest (fun e' hmakes => ?_) h
        obtain ⟨values', hbound', hmade'⟩ := hmakes.values
        cases hbound.symm.trans hbound'
        cases hmade.symm.trans hmade'
        cases hunmet.symm.trans hmakes.met
      · next hunmet =>
        rw [Logged.outcome_bind] at h
        cases h
        exact ⟨⟨hchain, ⟨_, hbound, hmade⟩, hunmet⟩, [], ss, rfl, nofun⟩

/-! ### Calls -/

/-- The form that made an element is the first of the method that takes the call. -/
theorem makesFirst_of_makeCall {r : Registry} {head : Invocation Operand}
    {chain : List (Invocation Operand)} {s : Signature} {e : Element}
    (h : (makeCall r head chain).outcome = .ok (s, e)) :
    ∃ leading children, divide head.args = .ok (leading, children) ∧
      MakesFirst (r.forMethod head.name) s head.pos.line head.name leading children chain e := by
  unfold makeCall at h
  split at h
  · cases h
  · simp only [Logged.outcome_bind, Logged.outcome_ofExcept] at h
    obtain ⟨⟨leading, children⟩, hdiv, h⟩ := exists_of_bind_eq_ok h
    exact ⟨leading, children, hdiv, makesFirst_of_tryForms h⟩

theorem makes_of_makeCall {r : Registry} {head : Invocation Operand}
    {chain : List (Invocation Operand)} {s : Signature} {e : Element}
    (h : (makeCall r head chain).outcome = .ok (s, e)) :
    s ∈ r.forMethod head.name ∧ ∃ leading children,
      divide head.args = .ok (leading, children) ∧
        Makes s head.pos.line head.name leading children chain e := by
  obtain ⟨leading, children, hdiv, hfirst⟩ := makesFirst_of_makeCall h
  exact ⟨hfirst.mem, leading, children, hdiv, hfirst.makes⟩

theorem exists_makeCall_of_ofCall {r : Registry} {head : Invocation Operand}
    {chain : List (Invocation Operand)} {e : Element}
    (h : (ofCall r head chain).outcome = .ok e) :
    ∃ s, (makeCall r head chain).outcome = .ok (s, e) := by
  unfold ofCall at h
  rw [Logged.outcome_bind] at h
  obtain ⟨⟨s, _⟩, hmade, h⟩ := exists_of_bind_eq_ok h
  cases h
  exact ⟨s, hmade⟩

theorem exists_makesFirst_of_ofCall {r : Registry} {head : Invocation Operand} {leading : List Expr}
    {children : List Operand} (hdiv : divide head.args = .ok (leading, children))
    {chain : List (Invocation Operand)} {e : Element} (h : (ofCall r head chain).outcome = .ok e) :
    ∃ s, MakesFirst (r.forMethod head.name) s head.pos.line head.name leading children chain e := by
  obtain ⟨s, hmade⟩ := exists_makeCall_of_ofCall h
  obtain ⟨_, _, hdiv', hfirst⟩ := makesFirst_of_makeCall hmade
  cases hdiv.symm.trans hdiv'
  exact ⟨s, hfirst⟩

/-- A form makes the element, if it takes the call and the element meets it. -/
theorem tryForms_of_met {pos : Position} {name : String} {leading : List Expr}
    {children : List Operand} {chain : List (Invocation Operand)} (failures : List BuildProblem)
    {s : Signature} (behind : List Signature) {values : List (Param × Option Value)}
    (hb : bindScalars s.scalarParams pos.line name leading = .ok values)
    (hc : checkChain s chain = .ok ()) {e : Element}
    (hmade : (construct s values children chain).outcome = .ok e)
    (hmet : s.unmet? e.properties = none) :
    (tryForms pos name leading children chain failures (s :: behind)).outcome = .ok (s, e) := by
  unfold tryForms
  simp only [hb, hc, ok_bind, pure, Except.pure]
  rw [Logged.outcome_bind, hmade, ok_bind, hmet]
  rfl

/-- A form that does not take the arguments leaves the call to those behind it. -/
theorem tryForms_of_refused {pos : Position} {name : String} {leading : List Expr}
    (children : List Operand) (chain : List (Invocation Operand)) (failures : List BuildProblem)
    {s : Signature} (behind : List Signature) {f : Failure} {p : BuildProblem}
    (hb : bindScalars s.scalarParams pos.line name leading = .error f)
    (hp : buildProblem? f = some p) :
    tryForms pos name leading children chain failures (s :: behind) =
      tryForms pos name leading children chain (failures ++ [p]) behind := by
  rw [tryForms]
  simp only [hb, error_bind, hp]

theorem makeCall_of_forms {r : Registry} {head : Invocation Operand}
    {chain : List (Invocation Operand)} {first : Signature} {behind : List Signature}
    (hf : r.forMethod head.name = first :: behind) {leading : List Expr} {children : List Operand}
    (hdiv : divide head.args = .ok (leading, children)) {made : Signature × Element}
    (ht : (tryForms head.pos head.name leading children chain [] (first :: behind)).outcome =
      .ok made) : (makeCall r head chain).outcome = .ok made := by
  unfold makeCall
  rw [hf]
  simp only [Logged.outcome_bind, Logged.outcome_ofExcept, hdiv, ok_bind]
  exact ht

theorem ofCall_of_makeCall {r : Registry} {head : Invocation Operand}
    {chain : List (Invocation Operand)} {s : Signature} {e : Element}
    (h : (makeCall r head chain).outcome = .ok (s, e)) : (ofCall r head chain).outcome = .ok e := by
  unfold ofCall
  rw [Logged.outcome_bind, h]
  rfl

/-- The first form of a method makes the element, if it takes the call and the element meets it. -/
theorem ofCall_of_first {r : Registry} {head : Invocation Operand}
    {chain : List (Invocation Operand)} {s : Signature} {behind : List Signature}
    (hf : r.forMethod head.name = s :: behind) {leading : List Expr} {children : List Operand}
    (hdiv : divide head.args = .ok (leading, children)) {values : List (Param × Option Value)}
    (hb : bindScalars s.scalarParams head.pos.line head.name leading = .ok values)
    (hc : checkChain s chain = .ok ()) {e : Element}
    (hmade : (construct s values children chain).outcome = .ok e)
    (hmet : s.unmet? e.properties = none) : (ofCall r head chain).outcome = .ok e :=
  ofCall_of_makeCall (makeCall_of_forms hf hdiv (tryForms_of_met [] behind hb hc hmade hmet))

/-- An expression that says a call is evaluated as a call of its method. -/
theorem evaluate_of_unplaced {x : Expr} {name : String} {es : List Expr}
    {cs : List (Invocation Expr)} (hx : x.unplaced = .call ⟨.start, name, es⟩ cs) {s : Scope}
    (hd : s.program.definition? name = none) :
    ∃ pos as invs, (evaluate s x) = ofCall s.registry ⟨pos, name, operands s as⟩ (invocations s invs) ∧
      as.map Expr.unplaced = es ∧ Expr.unplacedChain invs = cs := by
  cases x with
  | call head chain =>
    obtain ⟨pos, n, as⟩ := head
    simp only [Expr.unplaced, Expr.call.injEq, Invocation.mk.injEq, true_and] at hx
    obtain ⟨⟨rfl, has⟩, hchain⟩ := hx
    refine ⟨pos, as, chain, ?_, by rw [← Expr.unplacedAll_eq_map, has], hchain⟩
    simp only [evaluate, Scope.call, hd]
  | _ => cases hx

theorem says_of_unplacedChain {s : Scope} {invs : List (Invocation Expr)} {cs : List Call}
    (h : Expr.unplacedChain invs = cs.map fun c => ⟨.start, c.head.method, c.argExprs⟩) :
    List.Forall₂ Says (invocations s invs) cs := by
  induction cs generalizing invs with
  | nil =>
    cases invs with
    | nil =>
      rw [invocations]
      exact .nil
    | cons inv invs => cases h
  | cons c cs ih =>
    cases invs with
    | nil => cases h
    | cons inv invs =>
      obtain ⟨pos, n, as⟩ := inv
      simp only [Expr.unplacedChain, List.map_cons, List.cons.injEq, Invocation.mk.injEq, true_and]
        at h
      obtain ⟨⟨rfl, has⟩, hrest⟩ := h
      rw [invocations]
      refine .cons ⟨rfl, ?_⟩ (ih hrest)
      rw [map_unplaced_operands, ← Expr.unplacedAll_eq_map, has]

/-! ### Programs -/

theorem outcome_ofSource {source : String} {p : Program} (h : parse source = .ok p) :
    (Element.ofSource .standard source).outcome = (ofProgram .standard p).outcome := by
  have hsize : Registry.standard.size ≠ 0 := by decide
  rw [Element.ofSource, Logged.outcome_bind, Logged.outcome_ofExcept, h, ok_bind, if_neg hsize]

end Build

end FluentPlan
