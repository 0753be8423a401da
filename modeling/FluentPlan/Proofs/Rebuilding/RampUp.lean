import FluentPlan.Proofs.Rebuilding.Made

/-!
Thread groups that ramp up. They have their settings in chained calls: how many threads, how long they
ramp up, and perhaps how long they hold. Their forms take such a call back exactly if it says how many
threads there are and if the times, once they are stored, are not those of a group that does not ramp up
or does not run at all.
-/

namespace FluentPlan

open Build Script Element Catalog Catalog.Plan

namespace Catalog.Plan

/-- The call that ramps up. -/
def rampTo : Modifier := .ofParams "rampTo" [threadCount, rampTimeParam]

/-- The call that gives a number of loops to a group that ramps up. -/
def holdIterating : Modifier := .ofParams "holdIterating" [.int loopCount]

theorem modifiers_rampThreadGroup : rampThreadGroup.modifiers = [rampTo, holdIterating] := rfl

/-- How many milliseconds a group runs that ramps up and then holds. A reference to a variable counts
for nothing in the sum. -/
def runTime : Option Value → Option Value → Option Int
  | some (.duration ramp), some (.duration hold) => some (ramp + hold)
  | _, some (.duration hold) => some hold
  | _, _ => none

end Catalog.Plan

/-! ### Times that are stored -/

namespace Param

/-- A time of whole seconds is stored as the number of seconds. -/
theorem Counted.stored_eq_iff {v : Option Value} (hv : Counted .seconds v) {p : Param}
    (hp : p.Counts .seconds) (n : Int) :
    p.stored v = some (toString n) ↔ v = some (.duration (n * 1000)) := by
  cases hv with
  | @dynamic t ht =>
    refine iff_of_false (fun h => ?_) (fun h => by cases h)
    rw [Option.some.inj h, not_isDynamic_toString] at ht
    cases ht
  | units m hr =>
    rw [hp.stored]
    simp only [Option.some.injEq, TimeUnit.millis, Value.duration.injEq]
    refine ⟨fun h => ?_, fun h => ?_⟩
    · have hread := integerOfText?_toString m
      rw [h, integerOfText?_toString] at hread
      rw [Option.some.inj hread]
    · rw [show m = n by omega]

theorem Counted.stored_ne_empty {v : Option Value} (hv : Counted .seconds v) {p : Param}
    (hp : p.Counts .seconds) : p.stored v ≠ some "" := by
  cases hv with
  | @dynamic t ht =>
    intro h
    cases h
    cases ht
  | units m hr =>
    rw [hp.stored]
    intro h
    have hempty := not_isEmpty_toString m
    rw [Option.some.inj h] at hempty
    cases hempty

/-- The total of two times is nothing exactly if they say so. -/
theorem Counted.moveBy_eq_zero_iff {r x w : Option Value} (hr : Counted .seconds r)
    (hx : Counted .seconds x) (h : Param.moveBy x (offsetOf r) = .ok w) :
    w = some (.duration 0) ↔ runTime r x = some 0 := by
  cases hx with
  | dynamic ht =>
    cases h
    cases hr <;> simp [runTime]
  | units m hm =>
    cases hr with
    | dynamic ht =>
      cases h
      simp [runTime]
    | units n hn =>
      simp only [offsetOf, Param.moveBy] at h
      split_ifs at h
      cases h
      simp [runTime, Int.add_comm]

end Param

/-! ### Guards -/

theorem accepts_isIn_iff (key : String) (vs : List String) (props : Properties) :
    (Guard.isIn key vs).accepts props = true ↔ ∃ v ∈ vs, props.get? key = some v := by
  rw [Guard.accepts]
  cases props.get? key <;> simp

/-- A group that was stored ramps up exactly if it does not take none or one second. -/
theorem accepts_hasRamp_iff {r : Option Value} (hr : Param.Counted .seconds r) {props : Properties}
    (h : props.get? rampTime = rampTimeParam.stored r) :
    hasRamp.accepts props = true ↔ r ≠ some (.duration 0) ∧ r ≠ some (.duration 1000) := by
  have hcounts := Param.isTimed_rampTimeParam.1
  have hzero : rampTimeParam.stored r = some "0" ↔ r = some (.duration 0) :=
    hr.stored_eq_iff hcounts 0
  have hone : rampTimeParam.stored r = some "1" ↔ r = some (.duration 1000) :=
    hr.stored_eq_iff hcounts 1
  have hempty := hr.stored_ne_empty hcounts
  rw [hasRamp, Guard.accepts, Bool.not_eq_true', Bool.eq_false_iff, ne_eq, accepts_isIn_iff, h]
  simp only [List.mem_cons, List.not_mem_nil, or_false, exists_eq_or_imp, exists_eq_left, hempty,
    hzero, hone, false_or, not_or, ne_eq]

/-- A group runs at all that was stored exactly if its time is not nothing. -/
theorem accepts_runs_iff {w : Option Value} (hw : Param.Counted .seconds w) {props : Properties}
    (h : props.get? "ThreadGroup.duration" = holdTimeParam.stored w) :
    (Guard.not (.isIn "ThreadGroup.duration" ["", "0"])).accepts props = true ↔
      w ≠ some (.duration 0) := by
  have hcounts := Param.isTimed_holdTimeParam.1
  have hzero : holdTimeParam.stored w = some "0" ↔ w = some (.duration 0) :=
    hw.stored_eq_iff hcounts 0
  have hempty := hw.stored_ne_empty hcounts
  rw [Guard.accepts, Bool.not_eq_true', Bool.eq_false_iff, ne_eq, accepts_isIn_iff, h]
  simp only [List.mem_cons, List.not_mem_nil, or_false, exists_eq_or_imp, exists_eq_left, hempty,
    hzero, false_or, ne_eq]

/-! ### Numbers of threads -/

namespace Build

/-- A call that says a number of threads and then times is bound to values. -/
theorem exists_bound_count {m : Modifier} (ts : List (Param × Option Value))
    (hm : m.params = threadCount :: ts.map Prod.fst) (hflag : m.flag = false)
    (hcounted : ∀ x ∈ ts, x.1.IsTimed .seconds ∧ x.1.mandatory = true ∧ Param.Counted .seconds x.2)
    {n : Option Value} (hn : n ≠ none) {e : Element} (hvalue : threadCount.valueOf e "" = .ok n)
    {inv : Invocation Operand}
    (hsaid : Says inv (.chained m.method
      (((threadCount, n) :: ts).map fun x => .scalar x.1 x.2))) :
    ∃ k, k ≠ none ∧ bound m inv = .ok ((threadCount, k) :: ts) := by
  obtain ⟨n, rfl⟩ := Option.ne_none_iff_exists'.mp hn
  have hvar {x : Param × Option Value} (hx : x ∈ ts) : x.1.kind.isVariadic = false := by
    rcases (hcounted x hx).1.1 with hk | ⟨key, hk⟩ <;> rw [hk] <;> rfl
  have hpass : List.Forall₂ Passes ((threadCount, some n) :: ts)
      (threadCount :: ts.map Prod.fst) := by
    refine .cons (passes_found (by decide)
      (Param.found_of_valueOf (by decide) (fun unit key h => by cases h) hvalue)) ?_
    rw [List.forall₂_map_right_iff]
    refine List.forall₂_same.mpr fun x hx => ⟨hvar hx, rfl, ?_⟩
    obtain ⟨hp, -, hv⟩ := hcounted x hx
    obtain ⟨a, ha⟩ := Param.exists_exprs_eq (hvar hx) x.2
    exact ⟨a, ha, fun b hb => ⟨x.2, hv.fromArg hp.1 (by rw [ha, hb]), id⟩⟩
  have hargs := hsaid.2
  simp only [Call.argExprs, Call.chained, Call.childExprs, List.append_nil, List.flatMap_map]
    at hargs
  obtain ⟨ys, hys, -⟩ := exists_bindAll hpass (List.forall_mem_cons.mpr ⟨rfl, fun x hx => by
    simp [Arg.isRendered, (hcounted x hx).2.1]⟩)
    (show (inv.args.map (·.expr)).map Expr.unplaced = _ by rw [List.map_map]; exact hargs) inv.pos.line inv.name
  have hbound : bound m inv = .ok ys := by
    unfold bound
    rw [hflag, Bool.false_and, hm]
    exact hys
  obtain ⟨k, hk, -, -, rfl⟩ := exists_of_bound_count ts hm hflag hcounted hsaid hbound
  exact ⟨k, hk, hbound⟩

/-- What a call that says a number of threads and then times was made from: it is there unless nothing is
said. -/
theorem modifierCalls_count {m : Modifier} (ts : List (Param × Option Value))
    (hm : m.params = threadCount :: ts.map Prod.fst) (heach : m.each = none) (hguard : m.guard = none)
    (hflag : m.flag = false) {e : Element} {n : Option Value} (hn : threadCount.valueOf e "" = .ok n)
    (hts : ∀ x ∈ ts, x.1.kind ≠ .children ∧ x.1.valueOf e "" = .ok x.2) {cs : List Call}
    (h : modifierCalls e m = .ok cs) :
    (n = none ∧ cs = []) ∨
      cs = [.chained m.method (((threadCount, n) :: ts).map fun x => .scalar x.1 x.2)] := by
  have hvalue {x : Param × Option Value} (hx : x.1.valueOf e "" = .ok x.2) :
      (do let v ← x.1.valueOf e ""; return (x.1, v) : Except Failure _) = .ok x := by
    rw [hx]
    rfl
  have hvalues : valuesOf e "" m.params = .ok ((threadCount, n) :: ts) := by
    rw [hm]
    refine (mapM_eq_ok_iff _ _ _).mpr (.cons (hvalue (x := (threadCount, n)) hn) ?_)
    rw [List.forall₂_map_left_iff]
    exact List.forall₂_same.mpr fun x hx => hvalue (hts x hx).2
  have hargs : argsOf ((threadCount, n) :: ts) =
      ((threadCount, n) :: ts).map fun x => .scalar x.1 x.2 :=
    argsOf_eq (List.forall_mem_cons.mpr ⟨show threadCount.kind ≠ .children by decide, fun x hx => (hts x hx).1⟩)
  rcases modifierCalls_single heach h with ⟨hno, -⟩ | ⟨-, us, hus, hcases⟩
  · rw [hguard] at hno
    cases hno
  · obtain rfl := Except.ok.inj (hvalues.symm.trans hus)
    rcases hcases with ⟨hdef, rfl⟩ | ⟨-, rfl⟩
    · refine .inl ⟨?_, rfl⟩
      cases n with
      | none => rfl
      | some n =>
        exfalso
        unfold allDefault at hdef
        cases n <;> cases hdef
    · exact .inr (by rw [hflag, hargs, Bool.false_and, if_neg Bool.false_ne_true])

/-! ### Groups that ramp up -/

section

variable {values : List (Param × Option Value)}
  (hfst : values.map Prod.fst = rampThreadGroup.scalarParams) {cs ds : List Call}
  (hcs : ∀ c ∈ cs, c.head.method = rampTo.method)
  (hds : ∀ c ∈ ds, c.head.method = holdIterating.method) {invs tail : List (Invocation Operand)}
  (hi : List.Forall₂ Says invs (cs ++ ds)) (ht : IsTail tail) {children : List Operand} {e' : Element}
  (h : (construct rampThreadGroup values children (invs ++ tail)).outcome = .ok e')

include hfst hcs hds hi ht h

theorem exists_get?_of_construct_ramp :
    ∃ vss, List.Forall₂ (Binds rampTo) cs vss ∧ ∀ key ∈ ["ThreadGroup.num_threads", rampTime],
      e'.properties.get? key =
        (Properties.empty.putAll (blockEntries rampTo 0 vss ++ silentEntries (rampTo, cs))).get?
          key := by
  have hmethods : ∀ b ∈ [(rampTo, cs), (holdIterating, ds)], ∀ c ∈ b.2,
      c.head.method = b.1.method :=
    List.forall_mem_cons.mpr ⟨hcs, List.forall_mem_singleton.mpr hds⟩
  have hguards : ∀ b ∈ [(rampTo, cs), (holdIterating, ds)], b.1.guard = none :=
    List.forall_mem_cons.mpr ⟨rfl, List.forall_mem_singleton.mpr rfl⟩
  have hunguarded : ∀ b ∈ [(rampTo, cs), (holdIterating, ds)], b.2 ≠ [] →
      ∀ g, b.1.guard = some g → g.accepts Properties.empty = true := fun b hb _ g hg => by
    rw [hguards b hb] at hg
    cases hg
  obtain ⟨vss, hvss, hget⟩ := exists_get?_of_construct
    (restorable_of_mem_tail (s := rampThreadGroup) List.mem_cons_self) hfst rfl hmethods
    (by simpa using hi) ht h hunguarded List.mem_cons_self rfl
  have hregion : ∀ key ∈ ["ThreadGroup.num_threads", rampTime],
      inRegion rampTo.region key = true := by decide
  exact ⟨vss, hvss, fun key hkey => hget key (hregion key hkey)⟩

end

/-- A group that was made without a call that ramps up has no number of threads. -/
theorem get?_of_construct_idle {values : List (Param × Option Value)}
    (hfst : values.map Prod.fst = rampThreadGroup.scalarParams) {ds : List Call}
    (hds : ∀ c ∈ ds, c.head.method = holdIterating.method) {invs tail : List (Invocation Operand)}
    (hi : List.Forall₂ Says invs ds) (ht : IsTail tail) {children : List Operand} {e' : Element}
    (h : (construct rampThreadGroup values children (invs ++ tail)).outcome = .ok e') :
    e'.properties.get? "ThreadGroup.num_threads" = none := by
  obtain ⟨vss, hvss, hget⟩ := exists_get?_of_construct_ramp hfst (List.forall_mem_nil _) hds hi ht h
  cases hvss
  exact (hget _ List.mem_cons_self).trans rfl

/-- A group that was made with a call that ramps up has the number of threads and the time that the call
says. -/
theorem get?_of_construct_ramp {values : List (Param × Option Value)}
    (hfst : values.map Prod.fst = rampThreadGroup.scalarParams) {n r : Option Value}
    (hr : Param.Counted .seconds r) {ds : List Call}
    (hds : ∀ c ∈ ds, c.head.method = holdIterating.method) {invs tail : List (Invocation Operand)}
    (hi : List.Forall₂ Says invs
      (.chained rampTo.method [.scalar threadCount n, .scalar rampTimeParam r] :: ds))
    (ht : IsTail tail) {children : List Operand} {e' : Element}
    (h : (construct rampThreadGroup values children (invs ++ tail)).outcome = .ok e') :
    n ≠ none ∧ ∃ k, k ≠ none ∧
      e'.properties.get? "ThreadGroup.num_threads" = threadCount.stored k ∧
      e'.properties.get? rampTime = rampTimeParam.stored r := by
  have hmethod : ∀ c ∈ [Call.chained rampTo.method [.scalar threadCount n, .scalar rampTimeParam r]],
      c.head.method = rampTo.method := List.forall_mem_singleton.mpr rfl
  obtain ⟨vss, hvss, hget⟩ := exists_get?_of_construct_ramp hfst hmethod hds hi ht h
  obtain ⟨ys, _, ⟨inv, hsaid, hbound⟩, hnil, rfl⟩ := List.forall₂_cons_left_iff.mp hvss
  cases hnil
  obtain ⟨k, hk, hn, -, rfl⟩ := exists_of_bound_count [(rampTimeParam, r)] rfl rfl
    (List.forall_mem_singleton.mpr ⟨Param.isTimed_rampTimeParam, rfl, hr⟩) hsaid hbound
  have hblock : Properties.empty.putAll (blockEntries rampTo 0 [[(threadCount, k), (rampTimeParam, r)]]
      ++ silentEntries (rampTo, [.chained rampTo.method
        [.scalar threadCount n, .scalar rampTimeParam r]])) =
      rampTimeParam.storeRaw r (threadCount.storeRaw k .empty "") "" := by
    have hguard : rampTo.guard = none := rfl
    have hlead : lead rampTo 0 = "" := rfl
    rw [Param.storeRaw_eq, Param.storeRaw_eq, ← Properties.putAll_append]
    simp [blockEntries, silentEntries, hguard, hlead]
    rfl
  refine ⟨hn, k, hk, ?_, ?_⟩
  · rw [hget _ List.mem_cons_self, hblock, Param.get?_storeRaw_of_ne rfl (by decide),
      Param.get?_storeRaw rfl hk]
  · rw [hget _ (List.mem_cons_of_mem _ List.mem_cons_self), hblock,
      Param.get?_storeRaw rfl hr.ne_none]

/-- The properties that a signature requires are there if it requires some parameters with a property that
is there. -/
theorem hasRequired_of_forall {s : Signature} {props : Properties}
    (h : ∀ p ∈ s.allParams, p.required = true → props.contains p.propText = true) :
    s.hasRequired props = true := by
  refine List.all_eq_true.mpr fun p hp => ?_
  cases hr : p.required with
  | false => rfl
  | true =>
    have hcontains := h p hp hr
    cases hprop : p.prop with
    | none => rfl
    | some key =>
      rw [Param.propText, hprop, Option.getD_some] at hcontains
      simp [hcontains]

theorem contains_of_stored {p : Param} {v : Option Value} (hv : v ≠ none) {props : Properties}
    {key : String} (h : props.get? key = p.stored v) : props.contains key = true := by
  obtain ⟨v, rfl⟩ := Option.ne_none_iff_exists'.mp hv
  rw [Properties.contains, h]
  cases v <;> rfl

/-- A group that was stored meets the form that ramps up exactly if it does ramp up. -/
theorem unmet?_ramp_iff {k r : Option Value} (hk : k ≠ none) (hr : Param.Counted .seconds r)
    {props : Properties} (hthreads : props.get? "ThreadGroup.num_threads" = threadCount.stored k)
    (hramp : props.get? rampTime = rampTimeParam.stored r) :
    rampThreadGroup.unmet? props = none ↔
      r ≠ some (.duration 0) ∧ r ≠ some (.duration 1000) := by
  have hall : ∀ p ∈ rampThreadGroup.allParams, p.required = true →
      p = threadCount ∨ p = rampTimeParam := by decide
  have hrequired : rampThreadGroup.hasRequired props = true :=
    hasRequired_of_forall fun p hp hreq => by
      rcases hall p hp hreq with rfl | rfl
      · exact contains_of_stored hk hthreads
      · exact contains_of_stored hr.ne_none hramp
  rw [Signature.unmet?_eq_none_iff, hrequired, ← accepts_hasRamp_iff hr hramp]
  exact and_iff_right rfl

section

variable {e : Element} {vs : List (Param × Option Value)}
  (hv : scalarValues rampThreadGroup e = .ok vs) {leading : List Expr}
  (hl : leading.map Expr.unplaced = vs.flatMap fun x => (Arg.scalar x.1 x.2).exprs)
  {cs ds : List Call} (hcs : modifierCalls e rampTo = .ok cs)
  (hds : modifierCalls e holdIterating = .ok ds) {invs tail : List (Invocation Operand)}
  (hi : List.Forall₂ Says invs (cs ++ ds)) (ht : IsTail tail) {children : List Operand}
  {n r : Option Value} (hn : threadCount.valueOf e "" = .ok n)
  (hr : rampTimeParam.valueOf e "" = .ok r)

include hv hl hcs hds hi ht hn hr

/-- The form that ramps up makes an element of its own code exactly if that says how many threads there
are and ramps up, and the children are built. -/
theorem exists_makes_ramp_iff (hleading : checkLeading rampThreadGroup children = .ok ())
    (line : Nat) (name : String) :
    (∃ e', Makes rampThreadGroup line name leading children (invs ++ tail) e') ↔
      (n ≠ none ∧ r ≠ some (.duration 0) ∧ r ≠ some (.duration 1000)) ∧
        ∃ es, (elements (children ++ tail.flatMap (·.args))).outcome = .ok es := by
  have hs := restorable_of_mem_tail (s := rampThreadGroup) List.mem_cons_self
  have hcounted := Param.counted_parse Param.isTimed_rampTimeParam hr
  have hmethods : ∀ c ∈ cs, c.head.method = rampTo.method :=
    fun c hc => method_of_modifierCalls hcs hc
  have hmethods' : ∀ c ∈ ds, c.head.method = holdIterating.method :=
    fun c hc => method_of_modifierCalls hds hc
  have hblocks : ∀ b ∈ [(rampTo, cs), (holdIterating, ds)], modifierCalls e b.1 = .ok b.2 :=
    List.forall_mem_cons.mpr ⟨hcs, List.forall_mem_singleton.mpr hds⟩
  have hcalls := modifierCalls_count (m := rampTo) [(rampTimeParam, r)] rfl rfl rfl rfl hn
    (List.forall_mem_singleton.mpr ⟨show rampTimeParam.kind ≠ .children by decide, hr⟩) hcs
  constructor
  · rintro ⟨e', hmakes⟩
    obtain ⟨values, hbind, hmade⟩ := hmakes.values
    have hfst := (none_of_bindScalars hs hv hl hbind).2
    have hcalled : ∀ b ∈ [(rampTo, cs), (holdIterating, ds)], ∀ c ∈ b.2,
        c.head.method = b.1.method :=
      List.forall_mem_cons.mpr ⟨hmethods, List.forall_mem_singleton.mpr hmethods'⟩
    refine ⟨?_, e'.children,
      (construct_eq_ok hs hfst rfl hcalled (by simpa using hi) ht hmade).2.2.2.1⟩
    rcases hcalls with ⟨-, rfl⟩ | rfl
    · have hnone := get?_of_construct_idle hfst hmethods' hi ht hmade
      have hrequired := List.all_eq_true.mp ((Signature.unmet?_eq_none_iff _ _).mp hmakes.met).1
        threadCount (by decide)
      have hreq : threadCount.required = true := rfl
      have hprop : threadCount.prop = some "ThreadGroup.num_threads" := rfl
      simp [hreq, hprop, Properties.contains, hnone] at hrequired
    · obtain ⟨hne, k, hk, hthreads, hramp⟩ := get?_of_construct_ramp hfst hcounted hmethods' hi ht hmade
      exact ⟨hne, (unmet?_ramp_iff hk hcounted hthreads hramp).mp hmakes.met⟩
  · rintro ⟨⟨hne, hzero, hone⟩, es, hes⟩
    have hgiven : ∀ x ∈ vs, x.2 ≠ none := by
      intro x hx hnone
      obtain ⟨hp, hvalue⟩ := mem_of_valuesOf hv hx
      rw [hnone] at hvalue
      have hdefault : ∀ p ∈ rampThreadGroup.scalarParams, p.default ≠ none := by decide
      exact hdefault x.1 hp (Param.default_of_valueOf_none hvalue)
    obtain ⟨values, hbind, hfst, -⟩ := exists_bindScalars_of_valuesOf hs hv hgiven hl line name
    have hcs' := hcalls.resolve_left fun h => hne h.1
    subst hcs'
    have hnulls : ∀ b ∈ [(rampTo, [Call.chained rampTo.method [.scalar threadCount n,
        .scalar rampTimeParam r]]), (holdIterating, ds)], ∀ c ∈ b.2, ∀ p,
        Arg.scalar p none ∈ c.head.args → p.takesNull = true := by
      refine List.forall_mem_cons.mpr ⟨List.forall_mem_singleton.mpr fun p hp => ?_,
        List.forall_mem_singleton.mpr fun c hc p hp => takesNull_of_modifierCalls
          (hs.modifiers _ (by simp [modifiers_rampThreadGroup])) (.inl ⟨rfl, _, rfl⟩) hds hc hp⟩
      have hp : Arg.scalar p none ∈ [Arg.scalar threadCount n, .scalar rampTimeParam r] := hp
      rcases List.mem_pair.mp hp with heq | heq
      · injection heq with _ hnone
        exact absurd hnone.symm hne
      · injection heq with _ hnone
        exact absurd hnone.symm hcounted.ne_none
    obtain ⟨e', hmade⟩ := exists_construct hs hfst rfl hblocks (by simpa using hi) ht hnulls hleading hes
    obtain ⟨-, k, hk, hthreads, hramp⟩ := get?_of_construct_ramp hfst hcounted hmethods' hi ht hmade
    exact ⟨e', checkChain_of_says hs rfl hblocks (by simpa using hi) ht fun _ => rfl,
      ⟨values, hbind, hmade⟩, (unmet?_ramp_iff hk hcounted hthreads hramp).mpr ⟨hzero, hone⟩⟩

end

/-! ### Groups that ramp up and hold -/

/-- A time to hold that was read can be stored behind the time before it. -/
theorem exists_moveBy_holdTime {e : Element} {r x : Option Value}
    (hr : rampTimeParam.valueOf e "" = .ok r) (hx : holdTimeParam.valueOf e "" = .ok x) :
    ∃ w, Param.moveBy x (Param.offsetOf r) = .ok w := by
  obtain ⟨u, hu, hx⟩ := exists_of_bind_eq_ok hx
  obtain ⟨d, hd, hx⟩ := exists_of_bind_eq_ok hx
  have hback : Param.moveBy x (d.map fun y => - -y) = .ok u := by
    have := (Param.counted_parse Param.isTimed_holdTimeParam hu).moveBy_neg hx
    rwa [Option.map_map] at this
  have hnone (v : Option Value) : Param.moveBy v none = .ok v := by
    cases v with
    | none => rfl
    | some v => cases v <;> rfl
  have hraw : rampTimeParam.parse (e.properties.get? ("" ++ rampTime)) = .ok r := hr
  unfold Param.offset? at hd
  -- without a time before it, or with an empty one, the time is stored as it is
  have hunmoved (hr : r = some (.duration 0)) (hd : d = none) :
      ∃ w, Param.moveBy x (Param.offsetOf r) = .ok w := by
    subst hr hd
    obtain rfl : x = u := Except.ok.inj ((hnone x).symm.trans hback)
    obtain ht | ⟨m, hm⟩ := Param.counted_parse Param.isTimed_holdTimeParam hu
    · exact ⟨_, rfl⟩
    · refine ⟨some (.duration (m * TimeUnit.seconds.millis)), ?_⟩
      simp only [Param.offsetOf, Param.moveBy, Int.add_zero, hm, if_true]
  cases hget : e.properties.get? ("" ++ rampTime) with
  | none =>
    rw [hget] at hraw hd
    cases hraw
    cases hd
    exact hunmoved rfl rfl
  | some raw =>
    rw [hget] at hraw hd
    rw [Option.getD_some] at hd
    cases hempty : raw.isEmpty with
    | true =>
      rw [String.isEmpty_iff.mp hempty] at hraw hd
      cases hraw
      cases hd
      exact hunmoved rfl rfl
    | false =>
      cases hdyn : isDynamic raw with
      | true =>
        rw [Param.parse_of_isDynamic _ hdyn] at hraw
        cases hraw
        exact ⟨x, hnone x⟩
      | false =>
        rw [Param.parse, if_neg (by simp [hempty]), if_neg (by simp [hdyn]),
          show rampTimeParam.kind = .duration .seconds from rfl, ParamKind.read,
          ParamKind.readDuration] at hraw
        cases hn : Number.integerOfText? raw with
        | none =>
          rw [hn] at hraw
          cases hraw
        | some m =>
          simp only [hn, ParamKind.span] at hraw hd
          split_ifs at hraw hd
          cases hraw
          cases hd
          exact ⟨u, by simpa [Param.offsetOf] using hback⟩

theorem checkChain_rampAndHold {inv : Invocation Operand} (hinv : inv.name = rampAndHold.method)
    {tail : List (Invocation Operand)} (ht : IsTail tail) :
    checkChain rampHoldThreadGroup (inv :: tail) = .ok () := by
  have hne : inv.name ≠ childrenMethod := by
    rw [hinv]
    decide
  have hfind : findModifier rampHoldThreadGroup inv.pos.line inv.name = .ok rampAndHold := by
    rw [hinv]
    rfl
  rw [checkChain, if_pos hne, hfind]
  exact checkChain_of_isTail rfl ht

/-- A group is made of a name and of one call whose values can be stored. -/
theorem construct_rampAndHold (u : Option Value) {inv : Invocation Operand}
    (hinv : inv.name = rampAndHold.method) {tail : List (Invocation Operand)} (ht : IsTail tail)
    {ys : List (Param × Option Value)} (hbound : bound rampAndHold inv = .ok ys) {after : Properties}
    (hafter : storeAll "" ys .empty = .ok after) {children : List Operand}
    (hleading : checkLeading rampHoldThreadGroup children = .ok ()) {first more : List Element}
    (hfirst : (elements children).outcome = .ok first)
    (hmore : (elements (tail.flatMap (·.args))).outcome = .ok more) :
    (construct rampHoldThreadGroup [(threadGroupName, u)] children (inv :: tail)).outcome =
      .ok ⟨groupKind, nameOf rampHoldThreadGroup.defaultName [(threadGroupName, u)], true,
        after.put "ThreadGroup.scheduler" "true", first ++ more⟩ := by
  have hne : inv.name ≠ childrenMethod := by
    rw [hinv]
    decide
  have hfind : findModifier rampHoldThreadGroup inv.pos.line inv.name = .ok rampAndHold := by
    rw [hinv]
    rfl
  have happly : applyModifier rampAndHold inv ⟨.empty, []⟩ = .ok ⟨after, []⟩ := by
    have hbind : bindAll rampAndHold.params inv.pos.line inv.name (inv.args.map (·.expr)) = .ok ys :=
      hbound
    have hargs : applyArgs rampAndHold inv ⟨.empty, []⟩ = .ok ⟨after, []⟩ := by
      unfold applyArgs
      rw [hbind, ok_bind, show rampAndHold.each = none from rfl, hafter]
      rfl
    have hflag : rampAndHold.flag = false := rfl
    unfold applyModifier
    rw [hflag, Bool.false_and, hargs]
    rfl
  have hchain : (applyChain rampHoldThreadGroup (inv :: tail) ⟨.empty, []⟩).outcome =
      .ok (⟨after, []⟩, more) := by
    rw [applyChain, if_neg hne]
    simp only [Logged.outcome_bind, Logged.outcome_ofExcept, hfind, happly, ok_bind]
    exact applyChain_of_isTail _ ht hmore _
  have hcalled : (((inv :: tail).map (·.name)).filter (· ≠ childrenMethod)).contains
      rampAndHold.method = true := by
    simp [hinv, show rampAndHold.method ≠ childrenMethod by decide]
  refine outcome_construct (show _ = Except.ok Properties.empty from rfl) hleading hfirst hchain ?_
  rw [modifiers_rampHoldThreadGroup, storeUncalled, hcalled]
  rfl

/-- What a call that ramps up and holds stores, one time behind the other. -/
theorem storeAll_rampAndHold (k : Option Value) {r : Option Value} (hr : Param.Counted .seconds r)
    (x : Option Value) :
    storeAll "" [(threadCount, k), (rampTimeParam, r), (holdTimeParam, x)] .empty =
      (Param.moveBy x (Param.offsetOf r)).map fun w => holdTimeParam.storeRaw w
        (rampTimeParam.storeRaw r (threadCount.storeRaw k .empty "") "") "" := by
  let before := rampTimeParam.storeRaw r (threadCount.storeRaw k .empty "") ""
  have hoffset : Param.offset? .seconds rampTime before "" = .ok (Param.offsetOf r) :=
    Param.offset?_of_stored hr Param.isTimed_rampTimeParam.1
      (by rw [String.empty_append, Param.get?_storeRaw rfl hr.ne_none])
  have hhold : holdTimeParam.store x before "" =
      (Param.moveBy x (Param.offsetOf r)).map fun w => holdTimeParam.storeRaw w before "" := by
    change (do
      let d ← Param.offset? .seconds rampTime before ""
      let v ← Param.moveBy x d
      return holdTimeParam.storeRaw v before "") = _
    rw [hoffset]
    rfl
  change (do let after ← holdTimeParam.store x before ""; storeAll "" [] after) = _
  rw [hhold]
  cases Param.moveBy x (Param.offsetOf r) <;> rfl

/-- A group that was stored meets the form that ramps up and holds exactly if it does ramp up and runs at
all. -/
theorem unmet?_rampHold_iff {k r w : Option Value} (hk : k ≠ none) (hr : Param.Counted .seconds r)
    (hw : Param.Counted .seconds w) :
    rampHoldThreadGroup.unmet? ((holdTimeParam.storeRaw w
        (rampTimeParam.storeRaw r (threadCount.storeRaw k .empty "") "") "").put
          "ThreadGroup.scheduler" "true") = none ↔
      (r ≠ some (.duration 0) ∧ r ≠ some (.duration 1000)) ∧ w ≠ some (.duration 0) := by
  generalize hprops : (holdTimeParam.storeRaw w _ "").put "ThreadGroup.scheduler" "true" = props
  have hother {key : String} (hk : key ≠ "ThreadGroup.scheduler") : props.get? key =
      (holdTimeParam.storeRaw w (rampTimeParam.storeRaw r (threadCount.storeRaw k .empty "") "")
        "").get? key := by
    rw [← hprops, Properties.get?_put_of_ne _ _ hk]
  have hduration : props.get? "ThreadGroup.duration" = holdTimeParam.stored w := by
    rw [hother (by decide), Param.get?_storeRaw rfl hw.ne_none]
  have hramp : props.get? rampTime = rampTimeParam.stored r := by
    rw [hother (by decide), Param.get?_storeRaw_of_ne rfl (by decide),
      Param.get?_storeRaw rfl hr.ne_none]
  have hthreads : props.get? "ThreadGroup.num_threads" = threadCount.stored k := by
    rw [hother (by decide), Param.get?_storeRaw_of_ne rfl (by decide),
      Param.get?_storeRaw_of_ne rfl (by decide), Param.get?_storeRaw rfl hk]
  have hscheduled : (Guard.equals "ThreadGroup.scheduler" "true").accepts props = true := by
    simp [Guard.accepts, ← hprops]
  have hall : ∀ p ∈ rampHoldThreadGroup.allParams, p.required = true →
      p = threadCount ∨ p = rampTimeParam ∨ p = holdTimeParam := by decide
  have hrequired : rampHoldThreadGroup.hasRequired props = true :=
    hasRequired_of_forall fun p hp hreq => by
      rcases hall p hp hreq with rfl | rfl | rfl
      · exact contains_of_stored hk hthreads
      · exact contains_of_stored hr.ne_none hramp
      · exact contains_of_stored hw.ne_none hduration
  have hguard : rampHoldThreadGroup.guard.all (·.accepts props) = (hasRamp.accepts props &&
    ((Guard.equals "ThreadGroup.scheduler" "true").accepts props &&
      ((Guard.not (.isIn "ThreadGroup.duration" ["", "0"])).accepts props && true))) := rfl
  rw [Signature.unmet?_eq_none_iff, hrequired, ← accepts_hasRamp_iff hr hramp,
    ← accepts_runs_iff hw hduration, hguard, hscheduled, Bool.true_and, Bool.and_true,
    Bool.and_eq_true]
  exact and_iff_right rfl

section

variable {e : Element} {vs : List (Param × Option Value)}
  (hv : scalarValues rampHoldThreadGroup e = .ok vs) {leading : List Expr}
  (hl : leading.map Expr.unplaced = vs.flatMap fun x => (Arg.scalar x.1 x.2).exprs)
  {cs : List Call} (hcs : modifierCalls e rampAndHold = .ok cs) {invs tail : List (Invocation Operand)}
  (hi : List.Forall₂ Says invs cs) (ht : IsTail tail) {children : List Operand}
  {n r x : Option Value} (hn : threadCount.valueOf e "" = .ok n)
  (hr : rampTimeParam.valueOf e "" = .ok r) (hx : holdTimeParam.valueOf e "" = .ok x)

include hv hl hcs hi ht hn hr hx

/-- The form that ramps up and holds makes an element of its own code exactly if that says how many threads
there are, ramps up and takes some time, and the children are built. -/
theorem exists_makes_rampHold_iff (hleading : checkLeading rampHoldThreadGroup children = .ok ())
    (line : Nat) (name : String) :
    (∃ e', Makes rampHoldThreadGroup line name leading children (invs ++ tail) e') ↔
      (n ≠ none ∧ (r ≠ some (.duration 0) ∧ r ≠ some (.duration 1000)) ∧ runTime r x ≠ some 0) ∧
        ∃ es, (elements (children ++ tail.flatMap (·.args))).outcome = .ok es := by
  have hr' := Param.counted_parse Param.isTimed_rampTimeParam hr
  have hx' := Param.counted_holdTime hx
  have hcounted : ∀ y ∈ [(rampTimeParam, r), (holdTimeParam, x)],
      y.1.IsTimed .seconds ∧ y.1.mandatory = true ∧ Param.Counted .seconds y.2 :=
    List.forall_mem_cons.mpr ⟨⟨Param.isTimed_rampTimeParam, rfl, hr'⟩,
      List.forall_mem_singleton.mpr ⟨Param.isTimed_holdTimeParam, rfl, hx'⟩⟩
  obtain ⟨w, hw⟩ := exists_moveBy_holdTime hr hx
  have hw' := hx'.moveBy (Param.offsetOf_counted hr') hw
  have hruns := Param.Counted.moveBy_eq_zero_iff hr' hx' hw
  have hramp : rampTimeParam.kind ≠ .children := by decide
  have hhold : holdTimeParam.kind ≠ .children := by decide
  have hcalls := modifierCalls_count (m := rampAndHold)
    [(rampTimeParam, r), (holdTimeParam, x)] rfl rfl rfl rfl hn (List.forall_mem_cons.mpr
      ⟨⟨hramp, hr⟩, List.forall_mem_singleton.mpr ⟨hhold, hx⟩⟩) hcs
  constructor
  · rintro ⟨e', hmakes⟩
    rcases hcalls with ⟨-, rfl⟩ | rfl
    · cases hi
      exact absurd hmakes (not_makes_of_isTail (.inl rfl) ht)
    · obtain ⟨inv, _, hsaid, hnil, rfl⟩ := List.forall₂_cons_right_iff.mp hi
      cases hnil
      obtain ⟨values, hvalues, hmade⟩ := hmakes.map_fst (by decide)
      obtain ⟨u, rfl⟩ := eq_singleton_of_map_fst hvalues
      obtain ⟨-, -, -, hchildren, ys, after, hbound, hafter, hprops⟩ :=
        exists_bound_of_construct hsaid.1 ht hmade
      obtain ⟨k, hk, hne, -, rfl⟩ := exists_of_bound_count _ rfl rfl hcounted hsaid hbound
      rw [storeAll_rampAndHold k hr', hw] at hafter
      cases hafter
      have hmet := hmakes.met
      rw [hprops, unmet?_rampHold_iff hk hr' hw', ne_eq (a := w), hruns] at hmet
      exact ⟨⟨hne, hmet⟩, _, hchildren⟩
  · rintro ⟨⟨hne, hramps, hrun⟩, es, hes⟩
    obtain rfl := hcalls.resolve_left fun h => hne h.1
    obtain ⟨inv, _, hsaid, hnil, rfl⟩ := List.forall₂_cons_right_iff.mp hi
    cases hnil
    have hgiven : ∀ y ∈ vs, y.2 ≠ none := by
      intro y hy hnone
      obtain ⟨hp, hvalue⟩ := mem_of_valuesOf hv hy
      rw [hnone] at hvalue
      have hdefault : ∀ p ∈ rampHoldThreadGroup.scalarParams, p.default ≠ none := by decide
      exact hdefault y.1 hp (Param.default_of_valueOf_none hvalue)
    obtain ⟨values, hbind, hfst, -⟩ := exists_bindScalars_of_valuesOf
      (restorable_of_mem_tail (s := rampThreadGroup) List.mem_cons_self) hv hgiven hl line name
    obtain ⟨u, rfl⟩ := eq_singleton_of_map_fst hfst
    obtain ⟨k, hk, hbound⟩ := exists_bound_count _ rfl rfl hcounted hne hn hsaid
    have hstored := storeAll_rampAndHold k hr' x
    rw [hw] at hstored
    obtain ⟨first, more, hfirst, hmore, -⟩ := exists_of_elements_append hes
    have hmade := construct_rampAndHold u hsaid.1 ht hbound hstored hleading hfirst hmore
    refine ⟨_, checkChain_rampAndHold hsaid.1 ht, ⟨_, hbind, hmade⟩, ?_⟩
    exact (unmet?_rampHold_iff hk hr' hw').mpr ⟨hramps, fun hnone => hrun (hruns.mp hnone)⟩

end

end Build

end FluentPlan
