import FluentPlan.Proofs.Building.Readable
import FluentPlan.Proofs.Rebuilding.RampAndHold

/-!
Times of thread groups that ramp up and hold. A call stores the time to hold together with the time to
ramp up, both in whole seconds, and overwrites what calls before it stored; so whatever the calls, the
times can be read.
-/

namespace FluentPlan

open Build Script Catalog Catalog.Plan

namespace Param

/-- A value that is stored as one of whole units, by itself and behind an offset of whole units. -/
structure CountedAs (p : Param) (unit : TimeUnit) (v w : Option Value) : Prop where
  counted : Counted unit w
  stored : p.stored v = p.stored w
  moved : ∀ d u, (∀ ms, d = some ms → ∃ n, ms = n * unit.millis) → moveBy v d = .ok u →
    ∃ u', moveBy w d = .ok u' ∧ p.stored u = p.stored u'

theorem Counted.countedAs {unit : TimeUnit} {v : Option Value} (h : Counted unit v) (p : Param) :
    p.CountedAs unit v v := ⟨h, rfl, fun _ u _ hu => ⟨u, hu, rfl⟩⟩

/-- A duration is stored without the part of a unit that it ends with. -/
theorem countedAs_duration {p : Param} {unit : TimeUnit} (hp : p.IsTimed unit) {ms : Int}
    (h : Duration.inRange ms = true) : p.CountedAs unit (some (.duration ms))
      (some (.duration (ms / unit.millis * unit.millis))) := by
  have hpos : unit.millis ≠ 0 := by cases unit <;> decide
  have hstored (ms : Int) : p.stored (some (.duration ms)) = some (toString (ms / unit.millis)) := by
    have hformat : formatValue p.kind (.duration ms) = toString (ms / unit.millis) := by
      rcases hp.1 with hk | ⟨key, hk⟩ <;> rw [hk] <;> rfl
    exact congrArg some hformat
  refine ⟨.units _ (Duration.inRange_floor unit ms ▸ h), ?_, fun d u hd hu => ?_⟩
  · rw [hstored, hstored, Int.mul_ediv_cancel _ hpos]
  · cases d with
    | none =>
      cases hu
      exact ⟨_, rfl, by rw [hstored, hstored, Int.mul_ediv_cancel _ hpos]⟩
    | some m =>
      obtain ⟨n, rfl⟩ := hd m rfl
      have hfloor : ms / unit.millis * unit.millis + n * unit.millis =
          (ms + n * unit.millis) / unit.millis * unit.millis := by
        rw [Int.add_mul_ediv_right _ _ hpos, Int.add_mul]
      simp only [moveBy] at hu
      split_ifs at hu with hin
      cases hu
      refine ⟨some (.duration ((ms + n * unit.millis) / unit.millis * unit.millis)), ?_, ?_⟩
      · simp only [moveBy, hfloor, Duration.inRange_floor, hin, if_true]
      · rw [hstored, hstored, Int.mul_ediv_cancel _ hpos]

/-- The value of an argument for a parameter for durations is a duration in range. -/
theorem exists_duration_of_argValue {p : Param} {unit : TimeUnit} (hp : p.IsTimed unit) {a : Expr}
    {v : Option Value} (h : p.argValue a = .ok v) :
    ∃ ms, Duration.inRange ms = true ∧ v = some (.duration ms) := by
  rcases hp.1 with hk | ⟨key, hk⟩ <;>
  · unfold argValue at h
    simp only [hk] at h
    split at h
    · next ms _ =>
      split_ifs at h with hin
      cases h
      exact ⟨ms, hin, rfl⟩
    · cases h

/-- A value that code gives to a parameter for durations is stored as one of whole units. -/
theorem exists_countedAs {p : Param} {unit : TimeUnit} (hp : p.IsTimed unit) {v : Option Value}
    (h : p.Given v) : ∃ w, p.CountedAs unit v w := by
  cases h with
  | default => exact ⟨_, (hp.2 ▸ counted_default unit : Counted unit p.default).countedAs p⟩
  | @arg a _ hvar h =>
    have hvalue (h : p.argValue a = .ok v) : ∃ w, p.CountedAs unit v w := by
      obtain ⟨ms, hin, rfl⟩ := exists_duration_of_argValue hp h
      exact ⟨_, countedAs_duration hp hin⟩
    unfold fromArg at h
    split at h
    · split_ifs at h with hdyn
      · cases h
        exact ⟨_, (Counted.dynamic hdyn).countedAs p⟩
      · exact hvalue h
    · exact hvalue h
  | args hvar h =>
    rcases hp.1 with hk | ⟨key, hk⟩ <;> rw [hk] at hvar <;> cases hvar
  | presence b hk =>
    rcases hp.1 with hk' | ⟨key, hk'⟩ <;> rw [hk'] at hk <;> cases hk

theorem storeRaw_congr {p : Param} {v w : Option Value} (h : p.stored v = p.stored w)
    (props : Properties) (lead : String) : p.storeRaw v props lead = p.storeRaw w props lead := by
  rw [storeRaw_eq, storeRaw_eq, h]

theorem CountedAs.store_holdTime {v w : Option Value} (h : holdTimeParam.CountedAs .seconds v w)
    {before after : Properties} (hs : holdTimeParam.store v before "" = .ok after) :
    holdTimeParam.store w before "" = .ok after := by
  obtain ⟨d, hd, hs⟩ := exists_of_bind_eq_ok hs
  obtain ⟨u, hu, hs⟩ := exists_of_bind_eq_ok hs
  obtain ⟨u', hu', hstored⟩ := h.moved d u (exists_of_offset? hd) hu
  cases hs
  change (do
    let d ← offset? .seconds rampTime before ""
    let v ← moveBy w d
    return holdTimeParam.storeRaw v before "") = _
  rw [hd, ok_bind, hu', ok_bind, storeRaw_congr hstored]
  rfl

end Param

/-! ### Properties -/

/-- The keys under which the call that ramps up and holds stores its values. -/
def timeKeys : List String := ["ThreadGroup.num_threads", rampTime, "ThreadGroup.duration"]

/-- Whether the values of the call that ramps up and holds can be read. -/
def ReadsTimes (props : Properties) : Prop :=
  ∀ e : Element, e.properties = props → ∀ p ∈ rampAndHold.params, ∃ v, p.valueOf e "" = .ok v

theorem mem_params_rampAndHold {p : Param} :
    p ∈ rampAndHold.params ↔ p = threadCount ∨ p = rampTimeParam ∨ p = holdTimeParam := by
  simp [rampAndHold, Modifier.ofParams]

theorem readsTimes_empty : ReadsTimes .empty := by
  rintro ⟨kind, name, enabled, props, children⟩ he p hp
  cases he
  rcases mem_params_rampAndHold.mp hp with rfl | rfl | rfl <;> exact ⟨_, rfl⟩

/-- The values are read under their keys only. -/
theorem ReadsTimes.congr {props after : Properties} (h : ReadsTimes props)
    (hk : ∀ key ∈ timeKeys, after.get? key = props.get? key) : ReadsTimes after := by
  intro e he p hp
  obtain ⟨v, hv⟩ := h { e with properties := props } rfl p hp
  have hget {key : String} (hkey : key ∈ timeKeys) : e.properties.get? key = props.get? key :=
    he ▸ hk key hkey
  have hcount : e.properties.get? ("" ++ "ThreadGroup.num_threads") =
      props.get? ("" ++ "ThreadGroup.num_threads") := hget (by decide)
  have hramp : e.properties.get? ("" ++ rampTime) = props.get? ("" ++ rampTime) := hget (by decide)
  have hhold : e.properties.get? ("" ++ "ThreadGroup.duration") =
      props.get? ("" ++ "ThreadGroup.duration") := hget (by decide)
  refine ⟨v, hv ▸ ?_⟩
  rcases mem_params_rampAndHold.mp hp with rfl | rfl | rfl
  · exact congrArg threadCount.parse hcount
  · exact congrArg rampTimeParam.parse hramp
  · have hparse := congrArg holdTimeParam.parse hhold
    have hoffset : Param.offset? .seconds rampTime e.properties "" =
        Param.offset? .seconds rampTime props "" := by
      unfold Param.offset?
      rw [hramp]
    change (do
      let v ← holdTimeParam.parse (e.properties.get? ("" ++ "ThreadGroup.duration"))
      let d ← Param.offset? .seconds rampTime e.properties ""
      Param.moveBy v (d.map fun x => -x)) = _
    rw [hparse, hoffset]
    rfl

/-- After a call that ramps up and holds its values can be read. -/
theorem ReadsTimes.storeAll {n r x : Option Value} (hn : threadCount.Given n) (hr : rampTimeParam.Given r)
    (hx : holdTimeParam.Given x) {props after : Properties} (h : ReadsTimes props)
    (hs : storeAll "" [(threadCount, n), (rampTimeParam, r), (holdTimeParam, x)] props = .ok after) :
    ReadsTimes after := by
  obtain ⟨first, hfirst, hs⟩ := exists_of_bind_eq_ok hs
  obtain ⟨second, hsecond, hs⟩ := exists_of_bind_eq_ok hs
  obtain ⟨third, hthird, hs⟩ := exists_of_bind_eq_ok hs
  obtain rfl : third = after := Except.ok.inj hs
  obtain rfl : threadCount.storeRaw n props "" = first := Except.ok.inj hfirst
  obtain rfl : rampTimeParam.storeRaw r _ "" = second := Except.ok.inj hsecond
  obtain ⟨r', hr'⟩ := Param.exists_countedAs Param.isTimed_rampTimeParam hr
  obtain ⟨x', hx'⟩ := Param.exists_countedAs Param.isTimed_holdTimeParam hx
  rw [Param.storeRaw_congr hr'.stored] at hthird
  have hhold := hx'.store_holdTime hthird
  intro e he p hp
  rcases mem_params_rampAndHold.mp hp with rfl | rfl | rfl
  · have hkept : e.properties.get? "ThreadGroup.num_threads" =
        (threadCount.storeRaw n props "").get? "ThreadGroup.num_threads" := by
      rw [he, Param.get?_store_holdTime hthird (by decide), Param.get?_storeRaw_of_ne rfl (by decide)]
    cases n with
    | none =>
      obtain ⟨v, hv⟩ := h { e with properties := props } rfl threadCount hp
      exact ⟨v, hv ▸ congrArg threadCount.parse hkept⟩
    | some n =>
      rw [Param.get?_storeRaw rfl (by simp)] at hkept
      obtain ⟨v, hv⟩ := Param.exists_parse_stored (p := threadCount) rfl rfl hn
      exact ⟨v, hv ▸ congrArg threadCount.parse hkept⟩
  · have hkept : e.properties.get? rampTime = rampTimeParam.stored r' := by
      rw [he, Param.get?_store_holdTime hthird (by decide), Param.get?_storeRaw rfl hr'.counted.ne_none]
    exact ⟨r', (congrArg rampTimeParam.parse hkept).trans
      (hr'.counted.parse_stored Param.isTimed_rampTimeParam.1)⟩
  · exact ⟨x', Param.valueOf_holdTime hr'.counted hx'.counted
      (Param.get?_storeRaw rfl hr'.counted.ne_none _) hhold fun key _ => he ▸ rfl⟩

/-! ### Calls -/

namespace Build

theorem readsTimes_storeAll {values : List (Param × Option Value)}
    (hp : values.map Prod.fst = rampAndHold.params) (hg : ∀ x ∈ values, x.1.Given x.2)
    {props after : Properties} (hs : storeAll "" values props = .ok after) (h : ReadsTimes props) :
    ReadsTimes after := by
  obtain ⟨⟨_, n⟩, _, rfl, rfl, htwo⟩ := List.map_eq_cons_iff.mp hp
  obtain ⟨⟨_, r⟩, _, rfl, rfl, hone⟩ := List.map_eq_cons_iff.mp htwo
  obtain ⟨⟨_, x⟩, _, rfl, rfl, hnil⟩ := List.map_eq_cons_iff.mp hone
  obtain rfl := List.map_eq_nil_iff.mp hnil
  simp only [List.forall_mem_cons] at hg
  exact h.storeAll hg.1 hg.2.1 hg.2.2.1 hs

theorem readsTimes_applyModifier {c : Invocation Operand} {d after : Draft}
    (h : applyModifier rampAndHold c d = .ok after) (hd : ReadsTimes d.props) :
    ReadsTimes after.props := by
  obtain ⟨values, props, hbound, hstore, hguard, -, -⟩ := applyModifier_eq_ok (fun hf => by cases hf) h
  obtain rfl : after.props = props := hguard
  exact readsTimes_storeAll (map_fst_of_bindValues (bindAll_eq_ok hbound))
    (fun x hx => (given_of_bound (fun hf => by cases hf) hbound x hx).2) hstore hd

/-- Of a group that ramps up and holds the times can be read. -/
theorem readsTimes_of_makes {line : Nat} {name : String} {leading : List Expr}
    {children : List Operand} {chain : List (Invocation Operand)} {e : Element}
    (h : Makes rampHoldThreadGroup line name leading children chain e) : ReadsTimes e.properties := by
  obtain ⟨values, hbind, hmade⟩ := h.values
  obtain ⟨taken, hbind⟩ := exists_bindValues_of_bindScalars hbind
  obtain ⟨props, first, d, more, stored, hprops, -, hchain, hstored, rfl⟩ := exists_of_construct hmade
  -- the name is the only value that does not come from a modifier
  obtain ⟨⟨_, w⟩, _, rfl, rfl, hnil⟩ := List.map_eq_cons_iff.mp (map_fst_of_bindValues hbind)
  obtain rfl := List.map_eq_nil_iff.mp hnil
  obtain rfl : Properties.empty = props := Except.ok.inj hprops
  have hd : ReadsTimes d.props := applyChain_induction (fun m hm _ _ _ h hd => by
    obtain rfl := List.mem_singleton.mp hm
    exact readsTimes_applyModifier h hd) hchain readsTimes_empty
  have hall : ReadsTimes stored := by
    rw [modifiers_rampHoldThreadGroup, storeUncalled] at hstored
    split_ifs at hstored
    · obtain rfl : d.props = stored := Except.ok.inj hstored
      exact hd
    · obtain ⟨mid, hmid, hstored⟩ := exists_of_bind_eq_ok hstored
      obtain rfl : mid = stored := Except.ok.inj hstored
      refine readsTimes_storeAll ?_ (fun x hx => ?_) hmid hd
      · rfl
      · obtain ⟨p, -, rfl⟩ := List.mem_map.mp hx
        exact .default
  have hwrites : ∀ key ∈ timeKeys, key ∉ rampHoldThreadGroup.guard.elim [] Guard.writes := by decide
  exact hall.congr fun key hk => Guard.get?_apply (hwrites key hk) stored

end Build

/-- A group that ramps up and holds has a call of its own, whatever it was made from. -/
theorem exists_ownCall_rampHoldThreadGroup {line : Nat} {name : String} {leading : List Expr}
    {children : List Operand} {chain : List (Invocation Operand)} {e : Element}
    (h : Makes rampHoldThreadGroup line name leading children chain e) (o : Options) :
    ∃ r, Element.ownCall o rampHoldThreadGroup e = .ok r := by
  refine Element.exists_ownCall (by decide) (Element.exists_valuesOf fun p hp => ?_) fun m hm => ?_
  · obtain rfl := List.mem_singleton.mp (List.mem_of_mem_filter hp)
    exact Param.exists_valueOf_of_readsAll rfl e ""
  · obtain rfl := List.mem_singleton.mp hm
    exact Element.exists_modifierCalls_of_values rfl
      (Element.exists_valuesOf fun p hp => readsTimes_of_makes h e rfl p hp) (by decide)

end FluentPlan
