import FluentPlan.Proofs.Rebuilding.RampAndHold

/-!
Thread groups that are made again. How many arguments there are tells the forms that chain their
settings from those that take them as arguments; two forms of one sort are told apart by what is
chained, or by the last argument. Only a reference to a variable can go to either of the latter, and
then their code is the same.
-/

namespace FluentPlan

open Build Script Element Catalog Catalog.Plan

namespace Catalog.Plan

/-- How long a thread group runs. -/
def groupTime : Param := (Param.seconds "ThreadGroup.duration").require

/-- How often a thread group runs. -/
def groupLoops : Param := (Param.int loopCount).require

end Catalog.Plan

/-! ### Refused arguments -/

namespace Param

/-- A parameter for a whole number takes no duration. -/
theorem int_refuses_duration {p : Param} (hp : p.kind = .int) {ms : Int} {a : Expr}
    (ha : a.unplaced = durationExpr ms) (b : Option Value) : p.fromArg a ≠ .ok b := by
  obtain ⟨kind, prop, default, required, mandatory⟩ := p
  obtain rfl : kind = .int := hp
  unfold durationExpr at ha
  split_ifs at ha
  · obtain ⟨pos, rfl⟩ := Expr.eq_name_of_unplaced ha
    nofun
  · obtain ⟨pos, as, rfl, -⟩ := Expr.eq_call_of_unplaced ha
    nofun
  · obtain ⟨pos, as, rfl, -⟩ := Expr.eq_call_of_unplaced ha
    nofun

/-- A parameter for a duration takes no number. -/
theorem duration_refuses_number {p : Param} {unit : TimeUnit} (hp : p.kind = .duration unit)
    {t : String} {a : Expr} (ha : a.unplaced = .number .start t) (b : Option Value) :
    p.fromArg a ≠ .ok b := by
  obtain ⟨kind, prop, default, required, mandatory⟩ := p
  obtain rfl : kind = .duration unit := hp
  obtain ⟨pos, rfl⟩ := Expr.eq_number_of_unplaced ha
  nofun

end Param

/-! ### Arity -/

namespace Catalog.Plan

theorem isVariadic_of_mem_threadGroupForms :
    ∀ s ∈ threadGroupForms, ∀ p ∈ s.scalarParams, p.kind.isVariadic = false := by decide

/-- A form takes a name only, and chains its settings, or it takes at least two settings. -/
theorem sort_of_mem_threadGroupForms {s : Signature} (hs : s ∈ threadGroupForms) :
    ((s = rampHoldThreadGroup ∨ s = rampThreadGroup) ∧ s.scalarParams.length = 1) ∨
      ((s = durationThreadGroup ∨ s = threadGroup) ∧ s.scalarParams.countP (·.mandatory) = 2) := by
  simp only [threadGroupForms, List.mem_cons, List.not_mem_nil, or_false] at hs
  rcases hs with rfl | rfl | rfl | rfl
  · exact .inl ⟨.inl rfl, rfl⟩
  · exact .inl ⟨.inr rfl, rfl⟩
  · exact .inr ⟨.inl rfl, rfl⟩
  · exact .inr ⟨.inr rfl, rfl⟩

end Catalog.Plan

/-- Code has an argument for each mandatory parameter, and for no parameter more than one. -/
theorem arity_of_exprs {ps : List Param} (hv : ∀ p ∈ ps, p.kind.isVariadic = false)
    {vs : List (Param × Option Value)} (hp : vs.map Prod.fst = ps) {leading : List Expr}
    (hl : leading.map Expr.unplaced = vs.flatMap fun x => (Arg.scalar x.1 x.2).exprs) :
    ps.countP (·.mandatory) ≤ leading.length ∧ leading.length ≤ ps.length := by
  have hlen : leading.length = vs.countP fun x => (Arg.scalar x.1 x.2).isRendered := by
    rw [← List.length_map (f := Expr.unplaced), hl]
    refine length_flatMap_of_forall fun x hx => ?_
    obtain ⟨y, hy⟩ := Param.exists_exprs_eq (hv x.1 (hp ▸ List.mem_map_of_mem hx)) x.2
    cases hr : (Arg.scalar x.1 x.2).isRendered <;> simp [Arg.exprs, hr, hy]
  rw [hlen, ← hp, List.countP_map, List.length_map]
  exact ⟨List.countP_mono_left fun x _ hx => by simpa [Arg.isRendered] using .inl hx,
    List.countP_le_length⟩

theorem Build.Makes.arity {t : Signature} {line : Nat} {name : String} {leading : List Expr}
    {children : List Operand} {chain : List (Invocation Operand)} {e : Element}
    (h : Makes t line name leading children chain e)
    (hv : ∀ p ∈ t.scalarParams, p.kind.isVariadic = false) :
    t.scalarParams.countP (·.mandatory) ≤ leading.length ∧
      leading.length ≤ t.scalarParams.length := by
  obtain ⟨values, hbind, -⟩ := h.values
  have hle : t.scalarParams.countP (·.mandatory) ≤ t.scalarParams.length := List.countP_le_length
  rcases bindScalars_eq_ok hv hbind with ⟨hfull, -⟩ | ⟨hbrief, -⟩
  · omega
  · rw [← List.countP_eq_length_filter] at hbrief
    omega

theorem Build.Makes.map_fst {t : Signature} {line : Nat} {name : String} {leading : List Expr}
    {children : List Operand} {chain : List (Invocation Operand)} {e : Element}
    (h : Makes t line name leading children chain e)
    (hv : ∀ p ∈ t.scalarParams, p.kind.isVariadic = false) :
    ∃ values, values.map Prod.fst = t.scalarParams ∧
      (construct t values children chain).outcome = .ok e := by
  obtain ⟨values, hbind, hmade⟩ := h.values
  refine ⟨values, ?_, hmade⟩
  rcases bindScalars_eq_ok hv hbind with ⟨-, hb⟩ | ⟨-, hb⟩ <;> exact map_fst_of_bindValues hb

/-! ### Settings that are missing -/

namespace Build

/-- A call chained to a form is one of its modifiers. -/
theorem exists_modifier_of_checkChain {s : Signature} {chain : List (Invocation Operand)}
    (h : checkChain s chain = .ok ()) {c : Invocation Operand} (hc : c ∈ chain)
    (hn : c.name ≠ childrenMethod) : ∃ m ∈ s.modifiers, m.method = c.name := by
  induction chain with
  | nil => cases hc
  | cons d chain ih =>
    rw [checkChain] at h
    split_ifs at h with hd ha
    · obtain ⟨m, hm, h⟩ := exists_of_bind_eq_ok h
      rcases List.mem_cons.mp hc with rfl | hc
      · unfold findModifier at hm
        split at hm
        · next m' hfind =>
          exact ⟨m', List.mem_of_find?_eq_some hfind, by simpa using List.find?_some hfind⟩
        · cases hm
      · exact ih h hc
    · cases h
    · rcases List.mem_cons.mp hc with rfl | hc
      · exact absurd hn hd
      · exact ih h hc

/-- A form that chains its settings makes no thread group where none of them is there. -/
theorem not_makes_of_isTail {t : Signature} (ht : t = rampHoldThreadGroup ∨ t = rampThreadGroup)
    {tail : List (Invocation Operand)} (htail : IsTail tail) {line : Nat} {name : String}
    {leading : List Expr} {children : List Operand} {e : Element} :
    ¬ Makes t line name leading children tail e := by
  intro h
  have hparams : t.scalarParams = [threadGroupName] := by rcases ht with rfl | rfl <;> rfl
  obtain ⟨values, hv, hmade⟩ := h.map_fst (by rw [hparams]; decide)
  obtain ⟨props, first, d, more, stored, hprops, -, hchain, hstored, rfl⟩ :=
    exists_of_construct hmade
  rw [hparams] at hv
  obtain ⟨v, rfl⟩ := eq_singleton_of_map_fst hv
  cases hprops
  have hd : d = ⟨.empty, []⟩ := (applyChain_tail htail hchain).1
  have hcalled : (tail.map (·.name)).filter (· ≠ childrenMethod) = [] := by
    rcases htail with rfl | ⟨inv, rfl, hinv⟩
    · rfl
    · simp [hinv]
  rw [hcalled, hd] at hstored
  have hcount : stored.get? "ThreadGroup.num_threads" = none := by
    rcases ht with rfl | rfl <;> cases hstored <;> decide
  have hguarded : (guarded t stored).get? "ThreadGroup.num_threads" = none := by
    rcases ht with rfl | rfl <;> exact (Guard.get?_apply (by decide) stored).trans hcount
  have hmem : threadCount ∈ t.allParams := by rcases ht with rfl | rfl <;> decide
  exact Signature.unmet?_of_absent hmem rfl rfl (by decide) hguarded h.met

end Build

/-! ### References in place of settings -/

namespace Told

variable {s : Signature} {e : Element} {vs : List (Param × Option Value)}
  {blocks : List (Modifier × List Call)}

/-- A value goes to another parameter than its own only as a reference. -/
theorem goes_other (h : Told s e vs blocks) {x : Param × Option Value} (hx : x ∈ vs)
    (hr : x.1.isRestored = true) (hplaced : x.1.isPlaced = true) (hm : x.1.mandatory = true)
    {p : Param} (hpm : p.mandatory = true) (hname : p.kind ≠ .displayName)
    (hlist : p.kind ≠ .textList)
    (hrefuses : ∀ v, x.1.kind.fits v = true → Refuses (x.1, some v) p) : Goes x p := by
  have hrendered : (Arg.scalar x.1 x.2).isRendered = true := by simp [Arg.isRendered, hm]
  have hknown := h.known hx (not_holdDuration_of_isPlaced hplaced) hrendered
  refine ⟨hpm.trans hm.symm, .inr ⟨hname, hlist, ?_, ?_⟩, fun _ => hknown, fun hk => ?_⟩
  · simp only [Param.isRestored, Bool.and_eq_true, Bool.not_eq_true'] at hr
    exact hr.1.1.2
  · obtain ⟨q, v⟩ := x
    cases hknown.found_of_isRestored hr with
    | dynamic ht => exact .inl ⟨_, rfl, ht⟩
    | read _ _ hread => exact .inr (hrefuses _ (ParamKind.fits_of_read hread))
  · simp [Param.isPlaced, hk] at hplaced

/-- The last argument of the form with a duration goes to the form with a number of loops, or the
other way round, only as a reference. -/
theorem goes_of_plain (h : Told s e vs blocks) {q p : Param}
    (hs : s.scalarParams = [threadGroupName, threadCount, q])
    (hq : q = groupTime ∨ q = groupLoops) (hp : p = groupTime ∨ p = groupLoops) :
    List.Forall₂ Goes vs [threadGroupName, threadCount, p] := by
  have hfst := h.map_fst.trans hs
  obtain ⟨⟨_, u⟩, _, rfl, rfl, htwo⟩ := List.map_eq_cons_iff.mp hfst
  obtain ⟨⟨_, v⟩, _, rfl, rfl, hone⟩ := List.map_eq_cons_iff.mp htwo
  obtain ⟨⟨q, w⟩, _, rfl, rfl, hnil⟩ := List.map_eq_cons_iff.mp hone
  obtain rfl := List.map_eq_nil_iff.mp hnil
  have hname : threadGroupName.isRestorable = true := by decide
  have hcount : threadCount.isRestorable = true := by decide
  have htime : groupTime.isRestorable = true ∧ groupTime.isRestored = true ∧
      groupTime.isPlaced = true := by decide
  have hloops : groupLoops.isRestorable = true ∧ groupLoops.isRestored = true ∧
      groupLoops.isPlaced = true := by decide
  have hlast : (q, w) ∈ [(threadGroupName, u), (threadCount, v), (q, w)] := by simp
  refine .cons (h.goes_self (by simp) hname) (.cons (h.goes_self (by simp) hcount) (.cons ?_ .nil))
  rcases hq with rfl | rfl <;> rcases hp with rfl | rfl
  · exact h.goes_self hlast htime.1
  · refine h.goes_other hlast htime.2.1 htime.2.2 rfl rfl nofun nofun fun w hw a ha => ?_
    cases w with
    | duration ms => exact Param.int_refuses_duration rfl (List.singleton_inj.mp ha).symm
    | _ => cases hw
  · refine h.goes_other hlast hloops.2.1 hloops.2.2 rfl rfl nofun nofun fun w hw a ha => ?_
    cases w with
    | integer n => exact Param.duration_refuses_number rfl (List.singleton_inj.mp ha).symm
    | _ => cases hw
  · exact h.goes_self hlast hloops.1

end Told

/-! ### The form that ramps up and holds -/

theorem Told.restored_of_rampHold {e e' : Element} {vs : List (Param × Option Value)}
    {blocks : List (Modifier × List Call)} (h : Told rampHoldThreadGroup e vs blocks)
    {leading : List Expr}
    (hl : leading.map Expr.unplaced = vs.flatMap fun x => (Arg.scalar x.1 x.2).exprs)
    {invs tail : List (Invocation Operand)}
    (hi : List.Forall₂ Says invs (blocks.flatMap Prod.snd)) (htail : IsTail tail) {line : Nat}
    {name : String} {children : List Operand}
    (hmakes : Makes rampHoldThreadGroup line name leading children (invs ++ tail) e') :
    e'.kind = groupKind ∧ e'.enabled = true ∧
      (elements (children ++ tail.flatMap (·.args))).outcome = .ok e'.children ∧
      Restored rampHoldThreadGroup vs blocks e' := by
  obtain ⟨⟨_, cs⟩, rfl, hm⟩ :=
    List.map_eq_singleton_iff.mp (h.modifiers.trans modifiers_rampHoldThreadGroup)
  obtain rfl : rampAndHold = _ := hm.symm
  have hcalls : modifierCalls e rampAndHold = .ok cs := h.calls _ List.mem_cons_self
  rw [List.flatMap_cons, List.flatMap_nil, List.append_nil] at hi
  rcases modifierCalls_single rfl hcalls with ⟨hguard, -⟩ | ⟨-, us, hus, ⟨-, rfl⟩ | ⟨hdef, rfl⟩⟩
  · cases hguard
  · cases hi
    exact absurd hmakes (not_makes_of_isTail (.inl rfl) htail)
  · obtain ⟨inv, invs', hsaid, hnil, rfl⟩ := List.forall₂_cons_right_iff.mp hi
    cases hnil
    have hsaid : Says inv (.chained rampAndHold.method (argsOf us)) := hsaid
    have hshown : SaysValues (.chained rampAndHold.method (argsOf us)) :=
      h.said _ List.mem_cons_self _ List.mem_cons_self
    obtain ⟨values, hbind, hmade⟩ := hmakes.values
    have hown : ∀ p ∈ rampHoldThreadGroup.scalarParams, p.isRestorable = true := by decide
    obtain ⟨hkeeps, hv⟩ := keeps_of_bindScalars (restorable_of_mem_tail (s := rampThreadGroup) List.mem_cons_self)
      (h.goes hown) hl hbind
    obtain ⟨w, rfl⟩ := eq_singleton_of_map_fst hv
    obtain ⟨hkind, hname, hen, hchildren, ys, after, hbound, hafter, hprops⟩ :=
      exists_bound_of_construct hsaid.1 htail hmade
    have hapart : ∀ key ∈ ["ThreadGroup.num_threads", rampTime, "ThreadGroup.duration"],
        key ≠ "ThreadGroup.scheduler" := by decide
    obtain ⟨ws, hws, halike, hfst⟩ := valuesOf_rampAndHold hus hshown hsaid hbound hafter
      fun key hk => by rw [hprops, Properties.get?_put_of_ne after "true" (hapart key hk)]
    refine ⟨hkind, hen, hchildren, ⟨?_, ?_⟩⟩
    · refine valuesOf_of_returns e' "" (hkeeps.imp fun x y hxy => hxy.1) fun y hy => ?_
      obtain ⟨x, -, -, hy'⟩ := exists_of_forall₂ hkeeps hy
      obtain rfl := List.mem_singleton.mp hy
      obtain ⟨t, ht⟩ := hy' rfl
      have hone : (([(threadGroupName, w)].map Prod.fst).filter
          fun p => p.kind = .displayName).length ≤ 1 := by
        show ([threadGroupName].filter fun p => p.kind = .displayName).length ≤ 1
        decide
      exact valueOf_of_name rfl ht (hname.trans (nameOf_eq hone hy rfl ht _))
    · refine ⟨[_], .cons ⟨modifierCalls_of_valuesOf rfl (fun g hg => by cases hg) hws
        ((allDefault_of_allAlike halike).trans hdef), .cons ?_ .nil⟩ .nil⟩
      exact ⟨us, ws, rfl, rfl, halike, map_fst_of_valuesOf hus, hfst⟩

end FluentPlan
