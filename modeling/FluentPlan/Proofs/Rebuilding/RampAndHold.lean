import FluentPlan.Proofs.Param.Offset
import FluentPlan.Proofs.Rebuilding.Told

/-!
Thread groups that ramp up and hold. The time they hold is stored together with the time they ramp up,
so that neither is read from its own entry alone; what one call stored is read as what it said.
-/

namespace FluentPlan

open Build Script Element Catalog Catalog.Plan

namespace Catalog.Plan

/-- How long a thread group ramps up. -/
def rampTimeParam : Param := (Param.seconds rampTime).require

/-- How long a thread group holds, behind the time it ramps up. -/
def holdTimeParam : Param :=
  (Param.ofKind (.holdDuration .seconds rampTime) "ThreadGroup.duration").require

/-- The call that ramps up and holds. -/
def rampAndHold : Modifier :=
  .ofParams "rampToAndHold" [threadCount, rampTimeParam, holdTimeParam]

theorem modifiers_rampHoldThreadGroup : rampHoldThreadGroup.modifiers = [rampAndHold] := rfl

end Catalog.Plan

namespace Param

theorem get?_storeRaw {p : Param} {key : String} (hp : p.prop = some key) {v : Option Value}
    (hv : v ≠ none) (props : Properties) : (p.storeRaw v props "").get? key = p.stored v := by
  obtain ⟨v, rfl⟩ := Option.ne_none_iff_exists'.mp hv
  obtain ⟨t, ht⟩ : ∃ t, p.stored (some v) = some t := by cases v <;> exact ⟨_, rfl⟩
  rw [storeRaw_eq, hp, Option.bind_some, ht]
  simp [Properties.putAll_cons]

theorem get?_storeRaw_of_ne {p : Param} {key k : String} (hp : p.prop = some key) (hk : k ≠ key)
    (v : Option Value) (props : Properties) :
    (p.storeRaw v props "").get? k = props.get? k := by
  rw [storeRaw_eq, hp, Option.bind_some]
  refine Properties.get?_putAll_of_not_mem fun e he hek => hk ?_
  obtain ⟨t, -, rfl⟩ := Option.map_eq_some_iff.mp (Option.mem_toList.mp he)
  simpa using hek.symm

theorem isTimed_rampTimeParam : rampTimeParam.IsTimed .seconds := ⟨.inl rfl, rfl⟩

theorem isTimed_holdTimeParam : holdTimeParam.IsTimed .seconds := ⟨.inr ⟨_, rfl⟩, rfl⟩

theorem Counted.ne_none {unit : TimeUnit} {v : Option Value} (h : Counted unit v) : v ≠ none := by
  cases h <;> nofun

/-- A time to hold is counted in the unit of its property, as the time before it is. -/
theorem counted_holdTime {e : Element} {v : Option Value}
    (h : holdTimeParam.valueOf e "" = .ok v) : Counted .seconds v := by
  obtain ⟨u, hu, h⟩ := exists_of_bind_eq_ok h
  obtain ⟨d, hd, h⟩ := exists_of_bind_eq_ok h
  refine (counted_parse isTimed_holdTimeParam hu).moveBy (fun ms hms => ?_) h
  obtain ⟨k, rfl, rfl⟩ := Option.map_eq_some_iff.mp hms
  obtain ⟨n, rfl⟩ := exists_of_offset? hd k rfl
  exact ⟨-n, (Int.neg_mul n _).symm⟩

theorem get?_store_holdTime {x : Option Value} {before after : Properties}
    (h : holdTimeParam.store x before "" = .ok after) {key : String}
    (hk : key ≠ "ThreadGroup.duration") : after.get? key = before.get? key := by
  obtain ⟨d, -, h⟩ := exists_of_bind_eq_ok h
  obtain ⟨w, -, h⟩ := exists_of_bind_eq_ok h
  cases h
  exact get?_storeRaw_of_ne rfl hk w before

/-- What is stored of a time to hold, behind the time before it, is read again. -/
theorem valueOf_holdTime {r x : Option Value} (hr : Counted .seconds r) (hx : Counted .seconds x)
    {before after : Properties} (hramp : before.get? rampTime = rampTimeParam.stored r)
    (h : holdTimeParam.store x before "" = .ok after) {e : Element}
    (he : ∀ key ∈ [rampTime, "ThreadGroup.duration"], e.properties.get? key = after.get? key) :
    holdTimeParam.valueOf e "" = .ok x := by
  have hoffset {props : Properties} (hp : props.get? rampTime = rampTimeParam.stored r) :
      offset? .seconds rampTime props "" = .ok (offsetOf r) :=
    offset?_of_stored hr isTimed_rampTimeParam.1 (by rwa [String.empty_append])
  obtain ⟨d, hd, h⟩ := exists_of_bind_eq_ok h
  rw [hoffset hramp] at hd
  cases hd
  obtain ⟨w, hw, h⟩ := exists_of_bind_eq_ok h
  cases h
  have hcounted : Counted .seconds w := hx.moveBy (offsetOf_counted hr) hw
  have hkept : e.properties.get? rampTime = rampTimeParam.stored r := by
    rw [he _ List.mem_cons_self, get?_storeRaw_of_ne rfl (by decide), hramp]
  have hraw : e.properties.get? "ThreadGroup.duration" = holdTimeParam.stored w := by
    rw [he _ (by simp), get?_storeRaw rfl hcounted.ne_none]
  have hextract : holdTimeParam.extract e "" = holdTimeParam.stored w := hraw
  have hmoved := hx.moveBy_neg hw
  change (do
    let v ← holdTimeParam.parse (holdTimeParam.extract e "")
    let d ← offset? .seconds rampTime e.properties ""
    moveBy v (d.map fun x => -x)) = _
  rw [hextract, hcounted.parse_stored isTimed_holdTimeParam.1, ok_bind, hoffset hkept]
  exact hmoved

end Param

namespace Build

/-- A call that says a number of threads and then times binds these times, and a number from which the
one that it says returns. -/
theorem exists_of_bound_count {m : Modifier} (ts : List (Param × Option Value))
    (hm : m.params = threadCount :: ts.map Prod.fst) (hflag : m.flag = false)
    (hcounted : ∀ x ∈ ts, x.1.IsTimed .seconds ∧ x.1.mandatory = true ∧ Param.Counted .seconds x.2)
    {n : Option Value} {inv : Invocation Operand}
    (hsaid : Says inv (.chained m.method
      (((threadCount, n) :: ts).map fun x => .scalar x.1 x.2)))
    {ys : List (Param × Option Value)} (hb : bound m inv = .ok ys) :
    ∃ k, k ≠ none ∧ n ≠ none ∧
      (threadCount.Known n → Param.Returns (threadCount, n) (threadCount, k)) ∧
      ys = (threadCount, k) :: ts := by
  have hvalues : bindValues (fun _ => true) (threadCount :: ts.map Prod.fst)
      (inv.args.map (·.expr)) = .ok ys := by
    unfold bound at hb
    rw [hflag, Bool.false_and] at hb
    exact hm ▸ bindAll_eq_ok hb
  have hargs := hsaid.2
  simp only [Call.argExprs, Call.chained, Call.childExprs, List.append_nil, List.flatMap_map]
    at hargs
  let P (u v : Param × Option Value) : Prop :=
    (u.1 = threadCount → v.1 = u.1 ∧ v.2 ≠ none ∧ u.2 ≠ none ∧ (u.1.Known u.2 → Param.Returns u v)) ∧
      (u.1 ≠ threadCount → v = u)
  have hrestored : threadCount.isRestored = true := by decide
  have hnumber : ∃ e, threadCount.exprs n = [e] ∧ ∀ a b, a.unplaced = e →
      threadCount.fromArg a = .ok b → P (threadCount, n) (threadCount, b) := by
    obtain ⟨e, he⟩ := Param.exists_exprs_eq (p := threadCount) rfl n
    refine ⟨e, he, fun a b ha hb => ⟨fun _ => ⟨rfl, Param.ne_none_of_fromArg_int rfl hb, ?_, ?_⟩,
      fun h => absurd rfl h⟩⟩
    · rintro rfl
      obtain ⟨pos, rfl⟩ := Expr.eq_null_of_unplaced (ha.trans (List.singleton_inj.mp he).symm)
      cases hb
    · exact fun hn => hn.returns hrestored (by rw [he, ha]) hb
  have htimed {x : Param × Option Value} (hx : x ∈ ts) :
      ∃ e, x.1.exprs x.2 = [e] ∧ ∀ a b, a.unplaced = e → x.1.fromArg a = .ok b → P x (x.1, b) := by
    obtain ⟨hp, -, hv⟩ := hcounted x hx
    have hvar : x.1.kind.isVariadic = false := by
      rcases hp.1 with hk | ⟨key, hk⟩ <;> rw [hk] <;> rfl
    obtain ⟨e, he⟩ := Param.exists_exprs_eq hvar x.2
    refine ⟨e, he, fun a b ha hb => ⟨fun h => ?_, fun _ => ?_⟩⟩
    · rcases hp.1 with hk | ⟨key, hk⟩ <;> rw [h] at hk <;> cases hk
    · rw [hv.fromArg hp.1 (by rw [he, ha])] at hb
      exact congrArg (Prod.mk x.1) (Except.ok.inj hb).symm
  have hnever {Q : Prop} (h : true = false) : Q := by cases h
  have hall : List.Forall₂ P ((threadCount, n) :: ts) ys := by
    refine (bindValues_forall₂ (.cons ⟨rfl, rfl, fun _ => hnumber, hnever⟩ ?_)
      (by rw [List.map_map]; exact hargs) hvalues).1
    rw [List.forall₂_map_right_iff]
    refine List.forall₂_same.mpr fun x hx => ⟨?_, ?_, fun _ => htimed hx, hnever⟩
    · rcases (hcounted x hx).1.1 with hk | ⟨key, hk⟩ <;> rw [hk] <;> rfl
    · simp [Arg.isRendered, (hcounted x hx).2.1]
  obtain ⟨y, zs, hy, hzs, rfl⟩ := List.forall₂_cons_left_iff.mp hall
  obtain ⟨hfst, hk, hn, hreturns⟩ := hy.1 rfl
  obtain ⟨_, k⟩ := y
  obtain rfl : _ = threadCount := hfst
  refine ⟨k, hk, hn, hreturns, ?_⟩
  have heq : List.Forall₂ Eq ts zs := (forall₂_mem hzs).imp fun x z hxz => by
    refine (hxz.2.2.2 fun h => ?_).symm
    rcases (hcounted x hxz.1).1.1 with hk | ⟨key, hk⟩ <;> rw [h] at hk <;> cases hk
  rw [List.forall₂_eq_eq_eq] at heq
  rw [heq]

/-- What a call that ramps up and holds was made from is read where the call stored it. -/
theorem valuesOf_rampAndHold {old : Element} {vs : List (Param × Option Value)}
    (hv : valuesOf old "" rampAndHold.params = .ok vs)
    (hs : SaysValues (.chained rampAndHold.method (argsOf vs))) {inv : Invocation Operand}
    (hsaid : Says inv (.chained rampAndHold.method (argsOf vs)))
    {ys : List (Param × Option Value)} (hb : bound rampAndHold inv = .ok ys) {props : Properties}
    (hstore : storeAll "" ys .empty = .ok props) {e : Element}
    (he : ∀ key ∈ ["ThreadGroup.num_threads", rampTime, "ThreadGroup.duration"],
      e.properties.get? key = props.get? key) :
    ∃ ws, valuesOf e "" rampAndHold.params = .ok ws ∧ AllAlike vs ws ∧
      ws.map Prod.fst = rampAndHold.params := by
  have hfst : vs.map Prod.fst = [threadCount, rampTimeParam, holdTimeParam] := map_fst_of_valuesOf hv
  obtain ⟨⟨_, n⟩, _, rfl, rfl, htwo⟩ := List.map_eq_cons_iff.mp hfst
  obtain ⟨⟨_, r⟩, _, rfl, rfl, hone⟩ := List.map_eq_cons_iff.mp htwo
  obtain ⟨⟨_, x⟩, _, rfl, rfl, hnil⟩ := List.map_eq_cons_iff.mp hone
  obtain rfl := List.map_eq_nil_iff.mp hnil
  have hargs : argsOf [(threadCount, n), (rampTimeParam, r), (holdTimeParam, x)] =
      [.scalar threadCount n, .scalar rampTimeParam r, .scalar holdTimeParam x] := rfl
  rw [hargs] at hs hsaid
  have hvalue {y : Param × Option Value}
      (hy : y ∈ [(threadCount, n), (rampTimeParam, r), (holdTimeParam, x)]) :=
    (mem_of_valuesOf hv hy).2
  obtain ⟨hnone, hdouble⟩ := hs threadCount n List.mem_cons_self
  have hn : threadCount.Known n :=
    Param.known_of_valueOf (fun _ _ h => by cases h) (hvalue (y := (threadCount, n)) (by simp)) hnone hdouble
  have hr : Param.Counted .seconds r :=
    Param.counted_parse Param.isTimed_rampTimeParam
      (hvalue (y := (rampTimeParam, r)) (by simp))
  have hx : Param.Counted .seconds x :=
    Param.counted_holdTime (hvalue (y := (holdTimeParam, x)) (by simp))
  obtain ⟨m, hm, -, hreturns, rfl⟩ := exists_of_bound_count
    [(rampTimeParam, r), (holdTimeParam, x)] rfl rfl (List.forall_mem_cons.mpr
      ⟨⟨Param.isTimed_rampTimeParam, rfl, hr⟩, List.forall_mem_singleton.mpr
        ⟨Param.isTimed_holdTimeParam, rfl, hx⟩⟩) hsaid hb
  obtain ⟨-, w, hw, halike⟩ := hreturns hn
  obtain ⟨first, hfirst, hstore⟩ := exists_of_bind_eq_ok hstore
  obtain ⟨second, hsecond, hstore⟩ := exists_of_bind_eq_ok hstore
  obtain ⟨third, hthird, hstore⟩ := exists_of_bind_eq_ok hstore
  obtain rfl : third = props := Except.ok.inj hstore
  obtain rfl : threadCount.storeRaw m .empty "" = first := Except.ok.inj hfirst
  obtain rfl : rampTimeParam.storeRaw r _ "" = second := Except.ok.inj hsecond
  have hkept {key : String} (hk : key ∈ ["ThreadGroup.num_threads", rampTime])
      (hne : key ≠ "ThreadGroup.duration") : e.properties.get? key =
        (rampTimeParam.storeRaw r (threadCount.storeRaw m .empty "") "").get? key := by
    rw [he key (List.mem_append_left ["ThreadGroup.duration"] hk),
      Param.get?_store_holdTime hthird hne]
  have hcount : threadCount.extract e "" = threadCount.stored m := by
    refine (hkept (by simp) (by decide)).trans ?_
    rw [Param.get?_storeRaw_of_ne rfl (by decide), Param.get?_storeRaw rfl hm]
  have hramp : rampTimeParam.extract e "" = rampTimeParam.stored r := by
    refine (hkept (by simp) (by decide)).trans ?_
    rw [Param.get?_storeRaw rfl hr.ne_none]
  have hnw : threadCount.valueOf e "" = .ok w := by
    rw [← hw]
    exact congrArg threadCount.parse hcount
  have hrw : rampTimeParam.valueOf e "" = .ok r := by
    rw [← hr.parse_stored Param.isTimed_rampTimeParam.1]
    exact congrArg rampTimeParam.parse hramp
  have hxw : holdTimeParam.valueOf e "" = .ok x :=
    Param.valueOf_holdTime hr hx (Param.get?_storeRaw rfl hr.ne_none _) hthird
      fun key hk => he key (List.mem_cons_of_mem _ hk)
  refine ⟨[(threadCount, w), (rampTimeParam, r), (holdTimeParam, x)], ?_,
    .cons halike (.cons (Param.Alike.refl _ _) (.cons (Param.Alike.refl _ _) .nil)), rfl⟩
  refine (mapM_eq_ok_iff _ _ _).mpr (.cons ?_ (.cons ?_ (.cons ?_ .nil)))
  · rw [hnw]
    rfl
  · rw [hrw]
    rfl
  · rw [hxw]
    rfl

/-- What the form that ramps up and holds makes of a name and one call. -/
theorem exists_bound_of_construct {w : Option Value} {children : List Operand}
    {inv : Invocation Operand} (hinv : inv.name = rampAndHold.method)
    {tail : List (Invocation Operand)} (htail : IsTail tail) {e : Element}
    (h : (construct rampHoldThreadGroup [(threadGroupName, w)] children (inv :: tail)).outcome =
      .ok e) :
    e.kind = groupKind ∧ e.name = nameOf rampHoldThreadGroup.defaultName [(threadGroupName, w)] ∧
      e.enabled = true ∧ (elements (children ++ tail.flatMap (·.args))).outcome = .ok e.children ∧
      ∃ ys after, bound rampAndHold inv = .ok ys ∧ storeAll "" ys .empty = .ok after ∧
        e.properties = after.put "ThreadGroup.scheduler" "true" := by
  obtain ⟨props, first, d, more, stored, hprops, hfirst, hchain, hstored, rfl⟩ :=
    exists_of_construct h
  cases hprops
  have hmethod : rampAndHold.method ≠ childrenMethod := by decide
  have hfind : findModifier rampHoldThreadGroup inv.pos.line inv.name = .ok rampAndHold := by
    rw [hinv]
    rfl
  rw [applyChain, if_neg (by rwa [hinv])] at hchain
  simp only [Logged.outcome_bind, Logged.outcome_ofExcept, hfind, ok_bind] at hchain
  obtain ⟨mid, hmid, hchain⟩ := exists_of_bind_eq_ok hchain
  obtain ⟨ys, after, hbound, hafter, hguard, -, -⟩ :=
    applyModifier_eq_ok (fun hf => by cases hf) hmid
  obtain ⟨hd, hmore⟩ := applyChain_tail htail hchain
  have hd : d = mid := hd
  have hguard : mid.props = after := hguard
  have hcalled : (((inv :: tail).map (·.name)).filter (· ≠ childrenMethod)).contains
      rampAndHold.method = true := by
    simp [hinv, hmethod]
  rw [modifiers_rampHoldThreadGroup, storeUncalled, hcalled, hd, hguard] at hstored
  obtain rfl : after = stored := Except.ok.inj hstored
  exact ⟨rfl, rfl, rfl, elements_append hfirst hmore, ys, after, hbound, hafter, rfl⟩

end Build

end FluentPlan
