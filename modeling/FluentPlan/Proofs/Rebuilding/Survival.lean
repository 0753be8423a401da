import FluentPlan.Proofs.Param.Saying
import FluentPlan.Proofs.Rebuilding.Reading

/-!
Values that survive code. What was read for a value is stored, and the value is found there again,
as long as the parameter looks for it where it stores it: kinds with one property and lists always do,
addresses and durations with an offset have further properties to mind.
-/

namespace FluentPlan

open Script Java Text

namespace Param

open ParamKind

/-- Whether a value is found again, behind a lead, where another one was stored. -/
def Restores (p : Param) (w : Option Value) (bag : Properties) (lead : String) (v : Value) : Prop :=
  ∃ props, p.store w bag lead = .ok props ∧ ∀ e : Element, e.properties = props →
    ∃ v', p.valueOf e lead = .ok (some v') ∧ p.kind.Agree v v'

/-- Whether a value survives code: its text, as the arguments of a call, is parsed and read, and
what was read restores the value. -/
def Survives (p : Param) (v : Value) (lead : String) (bag : Properties) (name : String)
    (indent : List Char) (blocks : Bool) : Prop :=
  ∃ pos args w,
    Script.parse (String.ofList (name.toList ++ '(' :: p.render (some v) indent blocks ++ [')'])) =
      .ok ⟨[], .call ⟨pos, name, args⟩ []⟩ ∧
    p.Takes args w ∧ p.Restores w bag lead v

/-- Properties that hold nothing, or only the offset of a duration as an element has it. -/
def KeepsOffset (p : Param) (e : Element) (lead : String) (bag : Properties) : Prop :=
  bag = .empty ∨ ∃ unit key raw, p.kind = .holdDuration unit key ∧
    e.properties.get? (lead ++ key) = some raw ∧ bag = Properties.empty.put (lead ++ key) raw

/-- Whether a parameter looks for a value in the place where it stores it. An address does not stand
in the place of its host. A duration that counts itself as its offset is zero. Without a property
nothing is stored, so that only the default is found, less the offset where that was kept. -/
def HasPlace (p : Param) (v : Value) (e : Element) (lead : String) (bag : Properties) : Prop :=
  match p.kind with
  | .url => p.prop ≠ some domainKey ∧ (p.prop = none → p.default = some v)
  | .holdDuration _ key =>
    (p.prop = some key → ∀ ms, v = .duration ms → ms = 0) ∧
      (p.prop = none → p.default = some v ∨
        bag.get? (lead ++ key) = e.properties.get? (lead ++ key))
  | _ => True

/-- A value survives code just when what is read for it restores it. -/
theorem Sayable.exists_survives_iff {p : Param} {v : Value} (h : p.Sayable v)
    (hp : p.kind.isLasting = true) {name : String} (hn : isPlainName name = true)
    {indent : List Char} (hi : indent.all isIndent = true) (blocks : Bool) (lead : String)
    (bag : Properties) :
    ∃ w, p.Echoed v w ∧
      (p.Survives v lead bag name indent blocks ↔ p.Restores (some w) bag lead v) := by
  obtain ⟨pos, args, hparse, hargs⟩ := h.exists_parse hp hn hi blocks
  obtain ⟨w, hw, hecho⟩ := h.exists_takes hp hargs
  refine ⟨w, hecho, ?_, fun hr => ⟨pos, args, some w, hparse, hw, hr⟩⟩
  rintro ⟨pos', args', w', hparse', hw', hr⟩
  rw [hparse] at hparse'
  cases hparse'
  rwa [hw.unique hw']

/-! ### Stored values -/

/-- What is found after storing decides what is restored. -/
theorem restores_iff_of_found {p : Param} {w : Option Value} {bag props : Properties}
    {lead : String} {found : Except Failure (Option Value)} (hs : p.store w bag lead = .ok props)
    (hf : ∀ e : Element, e.properties = props → p.valueOf e lead = found) (v : Value) :
    p.Restores w bag lead v ↔ ∃ v', found = .ok (some v') ∧ p.kind.Agree v v' := by
  constructor
  · rintro ⟨props', hs', hall⟩
    rw [hs] at hs'
    cases hs'
    obtain ⟨v', hv', hagree⟩ := hall ⟨"", none, true, props, []⟩ rfl
    rw [hf _ rfl] at hv'
    exact ⟨v', hv', hagree⟩
  · rintro ⟨v', hfound, hagree⟩
    exact ⟨props, hs, fun e he => ⟨v', (hf e he).trans hfound, hagree⟩⟩

/-- Where the value that is found after storing is known, it decides what is restored. -/
theorem restores_iff_of_valueOf {p : Param} {w : Option Value} {bag props : Properties}
    {lead : String} {found : Option Value} (hs : p.store w bag lead = .ok props)
    (hf : ∀ e : Element, e.properties = props → p.valueOf e lead = .ok found) (v : Value) :
    p.Restores w bag lead v ↔ ∃ v', found = some v' ∧ p.kind.Agree v v' := by
  rw [restores_iff_of_found hs hf]
  simp only [Except.ok.injEq]

theorem exists_stored (p : Param) (w : Value) : ∃ t, p.stored (some w) = some t := by
  cases w <;> exact ⟨_, rfl⟩

theorem storeRaw_of_stored {p : Param} {key t : String} (hp : p.prop = some key)
    {w : Option Value} (ht : p.stored w = some t) (bag : Properties) (lead : String) :
    p.storeRaw w bag lead = bag.put (lead ++ key) t := by
  rw [storeRaw_eq, hp, ht]
  rfl

theorem storeRaw_of_none {p : Param} (hp : p.prop = none) (w : Option Value) (bag : Properties)
    (lead : String) : p.storeRaw w bag lead = bag := by
  rw [storeRaw_eq, hp]
  rfl

/-- Whether values are kept as they are in one property, in which they are looked for. -/
def isSingle : ParamKind → Bool
  | .textList | .url | .displayName | .holdDuration _ _ => false
  | _ => true

theorem store_of_isSingle {p : Param} (hp : isSingle p.kind = true) (w : Option Value)
    (bag : Properties) (lead : String) : p.store w bag lead = .ok (p.storeRaw w bag lead) := by
  obtain ⟨kind, prop, default, required, mandatory⟩ := p
  cases kind <;> first | rfl | cases hp

theorem valueOf_of_isSingle {p : Param} (hp : isSingle p.kind = true) (e : Element)
    (lead : String) :
    p.valueOf e lead = p.parse (p.prop.bind fun key => e.properties.get? (lead ++ key)) := by
  obtain ⟨kind, prop, default, required, mandatory⟩ := p
  cases kind <;> first | rfl | cases hp

theorem restores_of_isSingle {p : Param} (hp : isSingle p.kind = true) {e : Element}
    {lead : String} {v w : Value} (hv : p.valueOf e lead = .ok (some v)) (hw : p.Echoed v w) :
    p.Restores (some w) .empty lead v := by
  refine ⟨_, store_of_isSingle hp (some w) .empty lead, fun f hf => ?_⟩
  rw [valueOf_of_isSingle hp] at hv ⊢
  rw [hf]
  cases hprop : p.prop with
  | none =>
    rw [hprop] at hv
    exact ⟨v, hv, .same v⟩
  | some key =>
    have hlist : p.kind ≠ .textList := by
      intro hk
      rw [hk] at hp
      cases hp
    obtain ⟨t, ht⟩ := p.exists_stored w
    obtain ⟨v', hread, hagree⟩ := hw.reread
    rw [reread, if_neg hlist, ht] at hread
    rw [storeRaw_of_stored hprop ht, Option.bind_some, Properties.get?_put_self]
    exact ⟨v', hread, hagree⟩

/-! ### Lists -/

theorem restores_of_items {p : Param} (hk : p.kind = .textList) (items : List String)
    (lead : String) : p.Restores (some (.texts items)) .empty lead (.texts items) := by
  have hstore : p.store (some (.texts items)) .empty lead =
      .ok (Properties.empty.putAll (itemEntries (lead ++ p.propText ++ "/") 0 items)) := by
    simp only [store, hk, storeItems_eq]
  refine ⟨_, hstore, fun f hf => ⟨_, valueOf_of_items hk ?_, .same _⟩⟩
  have hregion : p.region lead = [.below (lead ++ p.propText ++ "/")] := by simp only [region, hk]
  have hall : (itemEntries (lead ++ p.propText ++ "/") 0 items).filter
      (fun x => inRegion (p.region lead) x.1) =
        itemEntries (lead ++ p.propText ++ "/") 0 items := by
    refine List.filter_eq_self.mpr fun x hx => ?_
    have hcovers := covers_itemEntries hx
    simpa [hregion, inRegion] using hcovers
  rw [hf, Properties.filter_putAll_of_nodup (inRegion (p.region lead)), hall]
  rw [hall]
  exact nodup_itemEntries _ _ _

/-! ### Addresses -/

/-- A text behind itself as its host is a longer one. -/
theorem exists_joinUrl_self {t : String} (ht : t.isEmpty = false) :
    ∃ r, joinUrl (some t) t "" "" = some r ∧ t.length < r.length := by
  have hempty : "".isEmpty = true := rfl
  have hhost : "http".length + "://".length = 7 := by decide
  simp only [joinUrl, ht, hempty, Bool.false_eq_true, if_false, if_true, Bool.true_or,
    Option.getD_some, Bool.false_or]
  split_ifs
  · refine ⟨_, rfl, ?_⟩
    simp only [String.length_append]
    omega
  · refine ⟨_, rfl, ?_⟩
    simp only [String.length_append]
    omega

/-- The text of an address is what it is read from. -/
theorem stored_of_parse {p : Param} (hk : p.kind = .url) {r : String} (he : r.isEmpty = false)
    {v : Option Value} (h : p.parse (some r) = .ok v) : p.stored v = some r := by
  simp only [parse, he, Bool.false_eq_true, if_false, hk, ParamKind.read] at h
  split_ifs at h
  · cases h
    rfl
  · cases h
    simp only [stored, hk]
    rfl

/-- An address that was stored as its own host is another one. -/
theorem stored_ne_of_domain {p : Param} (hk : p.kind = .url) (hp : p.prop = some domainKey)
    {t lead : String} (ht : t.isEmpty = false) {e : Element}
    (he : e.properties = Properties.empty.put (lead ++ domainKey) t) {v : Option Value}
    (hv : p.valueOf e lead = .ok v) : p.stored v ≠ some t := by
  obtain ⟨r, hr, hlt⟩ := exists_joinUrl_self ht
  have hother (key : String) (hne : key ≠ domainKey) : e.properties.get? (lead ++ key) = none := by
    rw [he, Properties.get?_put_of_ne, Properties.get?_empty]
    exact fun h => hne ((String.append_right_inj lead).mp h)
  have hextract : p.extract e lead = some r := by
    have hown : e.properties.get? (lead ++ domainKey) = some t := by
      rw [he, Properties.get?_put_self]
    have hprotocol := hother protocolKey (by decide)
    have hport := hother portKey (by decide)
    simp only [extract, hk, propText, hp, Option.getD_some, hown, hprotocol, hport,
      Option.getD_none, hr]
  have hempty : r.isEmpty = false := by
    rw [Bool.eq_false_iff]
    intro h
    rw [String.isEmpty_iff.mp h] at hlt
    exact absurd hlt (Nat.not_lt_zero _)
  simp only [valueOf, hk, hextract] at hv
  rw [stored_of_parse hk hempty hv]
  intro h
  rw [Option.some.inj h] at hlt
  exact Nat.lt_irrefl _ hlt

theorem restores_url_iff {p : Param} (hk : p.kind = .url) {v : Value} (hv : p.Found (some v))
    (lead : String) : p.Restores (some v) .empty lead v ↔
      p.prop ≠ some domainKey ∧ (p.prop = none → p.default = some v) := by
  have hstore : p.store (some v) .empty lead = .ok (p.storeRaw (some v) .empty lead) := by
    simp only [store, hk]
  have hcharset : p.kind ≠ .charset := by simp [hk]
  have hread : p.reread (some v) = .ok (some v) :=
    reread_of_found (by rw [hk]; rfl) (by simp [hk]) hv
  obtain ⟨t, ht⟩ := p.exists_stored v
  rw [reread, if_neg (by simp [hk]), ht] at hread
  have hnonempty : t.isEmpty = false := by
    cases hv with
    | dynamic hd =>
      cases ht
      exact ne_empty_of_isDynamic hd
    | read he hd h =>
      rw [hk] at h
      cases h
      rw [stored_of_not_isDynamic p rfl, hk] at ht
      cases ht
      exact he
  cases hprop : p.prop with
  | none =>
    rw [storeRaw_of_none hprop] at hstore
    rw [restores_iff_of_valueOf hstore fun e he => by
      rw [valueOf_of_path hk (by rw [he]; rfl), he, Properties.get?_empty, parse]]
    constructor
    · rintro ⟨v', hdefault, hagree⟩
      exact ⟨(Option.some_ne_none _).symm, fun _ => by rw [hdefault, hagree.eq hcharset]⟩
    · rintro ⟨-, hdefault⟩
      exact ⟨v, hdefault rfl, .same v⟩
  | some key =>
    rw [storeRaw_of_stored hprop ht] at hstore
    by_cases hkey : key = domainKey
    · subst hkey
      refine iff_of_false ?_ fun h => h.1 rfl
      rintro ⟨props, hprops, hall⟩
      rw [hstore] at hprops
      cases hprops
      obtain ⟨v', hv', hagree⟩ := hall ⟨"", none, true, _, []⟩ rfl
      obtain rfl := hagree.eq hcharset
      exact stored_ne_of_domain hk hprop hnonempty rfl hv' ht
    · have hdomain : (Properties.empty.put (lead ++ key) t).get? (lead ++ domainKey) = none := by
        rw [Properties.get?_put_of_ne, Properties.get?_empty]
        exact fun h => hkey ((String.append_right_inj lead).mp h).symm
      have htext : p.propText = key := by rw [propText, hprop]; rfl
      rw [restores_iff_of_valueOf hstore fun e he => by
        rw [valueOf_of_path hk (by rw [he]; exact hdomain), he, htext, Properties.get?_put_self,
          hread]]
      exact iff_of_true ⟨v, rfl, .same v⟩
        ⟨fun h => hkey (Option.some.inj h), fun h => absurd h (Option.some_ne_none key)⟩

/-! ### Durations with an offset -/

theorem offset?_congr {unit : TimeUnit} {key lead : String} {a b : Properties}
    (h : a.get? (lead ++ key) = b.get? (lead ++ key)) :
    offset? unit key a lead = offset? unit key b lead := by
  simp only [offset?, h]

theorem offset?_of_get?_eq_none {unit : TimeUnit} {key lead : String} {props : Properties}
    (h : props.get? (lead ++ key) = none) : offset? unit key props lead = .ok none := by
  have hempty : Number.integerOfText? "" = none := by decide
  simp only [offset?, h, Option.getD_none, hempty]

section

variable {p : Param} {unit : TimeUnit} {key : String} (hk : p.kind = .holdDuration unit key)

include hk

theorem valueOf_hold (e : Element) (lead : String) {d : Option Int}
    (hd : offset? unit key e.properties lead = .ok d) :
    p.valueOf e lead = (p.parse (p.prop.bind fun k => e.properties.get? (lead ++ k))).bind
      fun v => moveBy v (d.map fun x => -x) := by
  have hextract : p.extract e lead = p.prop.bind fun k => e.properties.get? (lead ++ k) := by
    simp only [extract, hk]
  simp only [valueOf, hk, hextract, hd]
  rfl

/-- What a duration of an element is made of: a total and an offset, both counted. -/
theorem exists_of_valueOf_hold (hdef : p.HasReadDefault) {e : Element} {lead : String} {v : Value}
    (hv : p.valueOf e lead = .ok (some v)) :
    ∃ u d, p.parse (p.prop.bind fun k => e.properties.get? (lead ++ k)) = .ok (some u) ∧
      offset? unit key e.properties lead = .ok d ∧ Counted unit (some u) ∧
      moveBy (some u) (d.map fun x => -x) = .ok (some v) := by
  have hlist : p.kind ≠ .textList := by simp [hk]
  have hextract : p.extract e lead = p.prop.bind fun k => e.properties.get? (lead ++ k) := by
    simp only [extract, hk]
  simp only [valueOf, hk, hextract] at hv
  obtain ⟨u, hu, hv⟩ := exists_of_bind_eq_ok hv
  obtain ⟨d, hd, hv⟩ := exists_of_bind_eq_ok hv
  cases u with
  | none => cases hv
  | some u => exact ⟨u, d, hu, hd, (sayable_of_parse hlist hdef hu).counted (.inr ⟨key, hk⟩), hv⟩

theorem counted_of_valueOf_hold (hdef : p.HasReadDefault) {e : Element} {lead : String} {v : Value}
    (hv : p.valueOf e lead = .ok (some v)) : Counted unit (some v) := by
  obtain ⟨u, d, -, hd, hcu, hmove⟩ := exists_of_valueOf_hold hk hdef hv
  refine hcu.moveBy (fun ms hms => ?_) hmove
  obtain ⟨x, rfl, rfl⟩ := Option.map_eq_some_iff.mp hms
  obtain ⟨n, rfl⟩ := exists_of_offset? hd x rfl
  exact ⟨-n, by rw [Int.neg_mul]⟩

section

variable {v s : Value} {bag : Properties} {lead : String} {d : Option Int}
  (hd : offset? unit key bag lead = .ok d) (hv : Counted unit (some v))
  (hs : moveBy (some v) d = .ok (some s))

include hd hs

theorem store_hold : p.store (some v) bag lead = .ok (p.storeRaw (some s) bag lead) := by
  simp only [store, hk, hd, hs, ok_bind]
  rfl

/-- Without a property the default is found, less the offset. -/
theorem restores_hold_none_iff (hp : p.prop = none) {u : Option Value}
    (hu : moveBy p.default (d.map fun x => -x) = .ok u) :
    p.Restores (some v) bag lead v ↔ u = some v := by
  have hstore := store_hold hk hd hs
  rw [storeRaw_of_none hp] at hstore
  rw [restores_iff_of_valueOf hstore fun e he => by
    rw [valueOf_hold hk e lead (by rw [he]; exact hd), hp]
    exact hu]
  constructor
  · rintro ⟨v', rfl, hagree⟩
    rw [hagree.eq (by simp [hk])]
  · rintro rfl
    exact ⟨v, rfl, .same v⟩

include hv

/-- The total is stored as a text that is read as the total. -/
theorem exists_stored_hold {k : String} (hp : p.prop = some k) :
    ∃ t, p.store (some v) bag lead = .ok (bag.put (lead ++ k) t) ∧ p.stored (some s) = some t ∧
      Counted unit (some s) ∧ p.parse (some t) = .ok (some s) := by
  have hcs := hv.moveBy (exists_of_offset? hd) hs
  obtain ⟨t, ht⟩ := p.exists_stored s
  have hstore := store_hold hk hd hs
  have hread := hcs.parse_stored (.inr ⟨key, hk⟩)
  rw [storeRaw_of_stored hp ht] at hstore
  rw [ht] at hread
  exact ⟨t, hstore, ht, hcs, hread⟩

/-- Beside its offset a total is found as it was stored. -/
theorem restores_hold_of_ne {k : String} (hp : p.prop = some k) (hne : k ≠ key) :
    p.Restores (some v) bag lead v := by
  obtain ⟨t, hstore, -, -, hread⟩ := exists_stored_hold hk hd hv hs hp
  have hoffset : offset? unit key (bag.put (lead ++ k) t) lead = .ok d := by
    rw [← hd]
    refine offset?_congr (Properties.get?_put_of_ne bag t ?_)
    exact fun h => hne ((String.append_right_inj lead).mp h).symm
  rw [restores_iff_of_valueOf hstore fun e he => by
    rw [valueOf_hold hk e lead (by rw [he]; exact hoffset), hp, he, Option.bind_some,
      Properties.get?_put_self, hread]
    exact hv.moveBy_neg hs]
  exact ⟨v, rfl, .same v⟩

/-- A total in the place of its offset is taken from itself. -/
theorem restores_hold_own_iff (hp : p.prop = some key) :
    p.Restores (some v) bag lead v ↔ ∀ ms, v = .duration ms → ms = 0 := by
  obtain ⟨t, hstore, ht, hcs, hread⟩ := exists_stored_hold hk hd hv hs hp
  have hvalue (e : Element) (he : e.properties = bag.put (lead ++ key) t) :
      p.valueOf e lead = moveBy (some s) ((offsetOf (some s)).map fun x => -x) := by
    have hown : e.properties.get? (lead ++ key) = some t := by rw [he, Properties.get?_put_self]
    have hoffset := offset?_of_stored hcs (.inr ⟨key, hk⟩) (by rw [hown, ht])
    rw [valueOf_hold hk e lead hoffset, hp, Option.bind_some, hown, hread]
    rfl
  cases hv with
  | dynamic =>
    cases hs
    rw [restores_iff_of_valueOf hstore hvalue]
    exact iff_of_true ⟨_, rfl, .same _⟩ nofun
  | units n hr =>
    obtain ⟨m, rfl⟩ : ∃ m, s = .duration m := by
      cases d with
      | none =>
        cases hs
        exact ⟨_, rfl⟩
      | some x =>
        simp only [moveBy] at hs
        split_ifs at hs
        cases hs
        exact ⟨_, rfl⟩
    have hzero : moveBy (some (.duration m)) ((offsetOf (some (.duration m))).map fun x => -x) =
        .ok (some (.duration 0)) := by
      have hin : Duration.inRange 0 = true := by decide
      simp only [offsetOf, Option.map_some, moveBy, Int.add_right_neg, hin, if_true]
    rw [restores_iff_of_valueOf hstore fun e he => (hvalue e he).trans hzero]
    constructor
    · rintro ⟨v', hfound, hagree⟩ ms hms
      cases hfound
      rw [hagree.eq (by simp [hk])] at hms
      exact (Value.duration.inj hms).symm
    · intro h
      rw [h _ rfl]
      exact ⟨_, rfl, .same _⟩

end

theorem restores_hold_iff (hdef : p.HasReadDefault) {e : Element} {lead : String} {v : Value}
    (hv : p.valueOf e lead = .ok (some v)) {bag : Properties} (hbag : p.KeepsOffset e lead bag) :
    p.Restores (some v) bag lead v ↔
      (p.prop = some key → ∀ ms, v = .duration ms → ms = 0) ∧
        (p.prop = none → p.default = some v ∨
          bag.get? (lead ++ key) = e.properties.get? (lead ++ key)) := by
  obtain ⟨u, d, hu, hd, hcu, hmove⟩ := exists_of_valueOf_hold hk hdef hv
  have hcv := counted_of_valueOf_hold hk hdef hv
  have hnone (x : Value) : moveBy (some x) none = .ok (some x) := by cases x <;> rfl
  have hback : moveBy (some v) d = .ok (some u) := by
    have h := hcu.moveBy_neg hmove
    rwa [Option.map_map, show ((fun x : Int => -x) ∘ fun x => -x) = id by funext x; simp,
      Option.map_id_fun, id] at h
  -- the bag has no offset, or that of the element
  obtain ⟨d', s, hd', hs, hcase⟩ : ∃ d' s, offset? unit key bag lead = .ok d' ∧
      moveBy (some v) d' = .ok (some s) ∧
      (bag.get? (lead ++ key) = none ∧ d' = none ∨
        bag.get? (lead ++ key) = e.properties.get? (lead ++ key) ∧ d' = d) := by
    rcases hbag with rfl | ⟨unit', key', raw, hk', hraw, rfl⟩
    · exact ⟨none, v, offset?_of_get?_eq_none rfl, hnone v, .inl ⟨rfl, rfl⟩⟩
    · rw [hk] at hk'
      cases hk'
      have hget : (Properties.empty.put (lead ++ key) raw).get? (lead ++ key) =
          e.properties.get? (lead ++ key) := by rw [Properties.get?_put_self, hraw]
      exact ⟨d, u, by rw [← hd, offset?_congr hget], hback, .inr ⟨hget, rfl⟩⟩
  cases hprop : p.prop with
  | some k =>
    by_cases hkk : k = key
    · subst hkk
      rw [restores_hold_own_iff hk hd' hcv hs hprop]
      exact ⟨fun h => ⟨fun _ => h, nofun⟩, fun h => h.1 rfl⟩
    · exact iff_of_true (restores_hold_of_ne hk hd' hcv hs hprop hkk)
        ⟨fun h => absurd (Option.some.inj h) hkk, nofun⟩
  | none =>
    have hdefault : p.default = some u := by
      rw [hprop] at hu
      exact Except.ok.inj hu
    rcases hcase with ⟨hget, rfl⟩ | ⟨hget, rfl⟩
    · rw [restores_hold_none_iff hk hd' hs hprop (by rw [hdefault]; exact hnone u), hget, hdefault]
      refine ⟨fun h => ⟨nofun, fun _ => .inl h⟩, fun h => (h.2 rfl).elim id fun habsent => ?_⟩
      -- without an offset the value is the default
      rw [offset?_of_get?_eq_none habsent.symm] at hd
      cases hd
      rw [Option.map_none, hnone] at hmove
      exact Except.ok.inj hmove
    · rw [restores_hold_none_iff hk hd' hs hprop (by rw [hdefault]; exact hmove)]
      exact iff_of_true rfl ⟨nofun, fun _ => .inr hget⟩

end

/-! ### Survival -/

theorem eq_empty_of_keepsOffset {p : Param} (hk : ∀ unit key, p.kind ≠ .holdDuration unit key)
    {e : Element} {lead : String} {bag : Properties} (h : p.KeepsOffset e lead bag) :
    bag = .empty := by
  rcases h with rfl | ⟨unit, key, raw, hold, -⟩
  · rfl
  · exact absurd hold (hk unit key)

/-- What an element holds of a parameter can be said. -/
theorem sayable_of_valueOf {p : Param} (hd : p.HasReadDefault) {e : Element} {lead : String}
    {v : Value} (hv : p.valueOf e lead = .ok (some v)) : p.Sayable v := by
  have hwhole := hv
  unfold valueOf at hv
  split at hv
  · next hk =>
    obtain ⟨entries, -, hv⟩ := exists_of_bind_eq_ok hv
    cases hv
    exact .listed hk _
  · next unit key hk => exact (counted_of_valueOf_hold hk hd hwhole).sayable (.inr ⟨key, hk⟩)
  · next hk hh => exact sayable_of_parse hk hd hv

/-- What stands for a value restores it just when the parameter looks for it where it stores it. -/
theorem Echoed.restores_iff_hasPlace {p : Param} {v w : Value} (hw : p.Echoed v w)
    (hp : p.kind.isLasting = true) (hd : p.HasReadDefault) {e : Element} {lead : String}
    (hv : p.valueOf e lead = .ok (some v)) {bag : Properties} (hbag : p.KeepsOffset e lead bag) :
    p.Restores (some w) bag lead v ↔ p.HasPlace v e lead bag := by
  have hsay := sayable_of_valueOf hd hv
  cases hk : p.kind with
  | holdDuration unit key =>
    obtain rfl := hw.exact (.inl (by rw [hk]; rfl))
    simp only [HasPlace, hk]
    exact restores_hold_iff hk hd hv hbag
  | url =>
    obtain rfl := hw.exact (.inl (by rw [hk]; rfl))
    obtain rfl := eq_empty_of_keepsOffset (by simp [hk]) hbag
    have hfound : p.Found (some w) := by
      cases hsay with
      | found hl h => exact h
      | listed hl | nothing hl => simp [hk] at hl
    simp only [HasPlace, hk]
    exact restores_url_iff hk hfound lead
  | textList =>
    obtain rfl := hw.exact (.inr hk)
    obtain rfl := eq_empty_of_keepsOffset (by simp [hk]) hbag
    cases hsay with
    | found hl h => exact absurd hk hl
    | listed hl items =>
      exact iff_of_true (restores_of_items hk items lead) (by simp [HasPlace, hk])
    | nothing hl => simp [hk] at hl
  | displayName => simp [hk, isLasting] at hp
  | _ =>
    obtain rfl := eq_empty_of_keepsOffset (by simp [hk]) hbag
    exact iff_of_true (restores_of_isSingle (by rw [hk]; rfl) hv hw) (by simp [HasPlace, hk])

section

variable {p : Param} (hp : p.kind.isLasting = true) (hd : p.HasReadDefault) {e : Element}
  {lead : String} {v : Value} (hv : p.valueOf e lead = .ok (some v)) {bag : Properties}
  (hbag : p.KeepsOffset e lead bag) {name : String} (hn : isPlainName name = true)
  {indent : List Char} (hi : indent.all isIndent = true) {blocks : Bool}

include hp hd hv hbag hn hi

/-- A value without a place is lost. -/
theorem hasPlace_of_survives (h : p.Survives v lead bag name indent blocks) :
    p.HasPlace v e lead bag := by
  obtain ⟨w, hecho, hiff⟩ :=
    (sayable_of_valueOf hd hv).exists_survives_iff hp hn hi blocks lead bag
  exact (hecho.restores_iff_hasPlace hp hd hv hbag).mp (hiff.mp h)

/-- A value that an element has of a parameter survives code, in whatever layout, just when the
parameter looks for it where it stores it. -/
theorem survives_iff_hasPlace :
    p.Survives v lead bag name indent blocks ↔ p.HasPlace v e lead bag := by
  obtain ⟨w, hecho, hiff⟩ :=
    (sayable_of_valueOf hd hv).exists_survives_iff hp hn hi blocks lead bag
  exact hiff.trans (hecho.restores_iff_hasPlace hp hd hv hbag)

end

/-- A hold time of a minute behind a ramp of half a minute. -/
theorem survives_iff_hasPlace_hold :
    let p : Param :=
      ⟨.holdDuration .seconds "ramp", some "duration", some (.duration 0), false, true⟩
    let props := Properties.ofList [("g/duration", "90"), ("g/ramp", "30")]
    let e : Element := ⟨"Group", none, true, props, []⟩
    let bag := Properties.empty.put "g/ramp" "30"
    (p.kind.isLasting = true ∧ p.HasReadDefault ∧ p.valueOf e "g/" = .ok (some (.duration 60000)) ∧
      p.KeepsOffset e "g/" bag ∧ isPlainName "hold" = true ∧ "\t".toList.all isIndent = true) ∧
      p.Survives (.duration 60000) "g/" bag "hold" "\t".toList true := by
  intro p props e bag
  have hd : p.HasReadDefault := .inr (.inl rfl)
  have hramp : offset? .seconds "ramp" props "g/" = .ok (some 30000) := by
    have hint : Number.integerOfText? "30" = some 30 := by decide
    simp only [offset?, show props.get? ("g/" ++ "ramp") = some "30" by decide, Option.getD_some,
      hint]
    rfl
  have hread : p.kind.read "90" = .ok (.duration 90000) := by
    have hint : Number.integerOfText? "90" = some 90 := by decide
    simp only [p, ParamKind.read, ParamKind.readDuration, hint]
    rfl
  have hv : p.valueOf e "g/" = .ok (some (.duration 60000)) := by
    rw [valueOf_hold rfl e "g/" hramp, show p.prop.bind (fun k => e.properties.get? ("g/" ++ k)) =
      some "90" by decide, parse_of_read (by decide) (by decide) hread]
    rfl
  have hbag : p.KeepsOffset e "g/" bag := .inr ⟨.seconds, "ramp", "30", rfl, by decide, rfl⟩
  have hn : isPlainName "hold" = true := by decide
  have hi : "\t".toList.all isIndent = true := by decide
  refine ⟨⟨rfl, hd, hv, hbag, hn, hi⟩, (survives_iff_hasPlace rfl hd hv hbag hn hi).mpr ?_⟩
  exact ⟨fun h => absurd (Option.some.inj h) (by decide), fun h => absurd h (by decide)⟩

/-- Values without a place: an address that is stored as its own host, a duration that is its own
offset, and both where there is no property to store them. -/
theorem not_survives_out_of_place :
    let lost (p : Param) (props : List (String × String)) (v : Value) : Prop :=
      let e : Element := ⟨"Group", none, true, .ofList props, []⟩
      p.kind.isLasting = true ∧ p.HasReadDefault ∧ p.valueOf e "" = .ok (some v) ∧
        ¬ p.Survives v "" .empty "hold" [] false
    lost ⟨.url, some "HTTPSampler.domain", none, false, true⟩ [("HTTPSampler.domain", "a")]
        (.text "http://a/a") ∧
      lost ⟨.url, none, none, false, true⟩ [("None", "a")] (.text "a") ∧
      lost ⟨.holdDuration .milliseconds "d", some "d", some (.duration 5000), false, true⟩ []
        (.duration 5000) ∧
      lost ⟨.holdDuration .milliseconds "r", none, some (.duration 5000), false, true⟩
        [("r", "2000")] (.duration 3000) := by
  intro lost
  have hlost {p : Param} {props : List (String × String)} {v : Value}
      (hp : p.kind.isLasting = true) (hd : p.HasReadDefault)
      (hv : p.valueOf ⟨"Group", none, true, .ofList props, []⟩ "" = .ok (some v))
      (hplace : ¬ p.HasPlace v ⟨"Group", none, true, .ofList props, []⟩ "" .empty) :
      lost p props v :=
    ⟨hp, hd, hv, fun h => hplace (hasPlace_of_survives hp hd hv (.inl rfl) (by decide) rfl h)⟩
  have hfive (kind : ParamKind) (prop : Option String)
      (hk : ∃ key, kind = .holdDuration .milliseconds key) :
      HasReadDefault ⟨kind, prop, some (.duration 5000), false, true⟩ := by
    obtain ⟨key, rfl⟩ := hk
    exact .inr (.inr ⟨"5000", by decide, by rfl⟩)
  refine ⟨hlost rfl (.inl rfl) ?_ ?_, hlost rfl (.inl rfl) ?_ ?_,
    hlost rfl (hfive _ _ ⟨_, rfl⟩) ?_ ?_, hlost rfl (hfive _ _ ⟨_, rfl⟩) ?_ ?_⟩
  · have hraw : extract ⟨.url, some "HTTPSampler.domain", none, false, true⟩
        ⟨"Group", none, true, .ofList [("HTTPSampler.domain", "a")], []⟩ "" =
          some "http://a/a" := by
      decide +kernel
    simp only [valueOf, hraw]
    exact parse_of_read (by decide +kernel) (by decide +kernel) rfl
  · exact fun h => h.1 rfl
  · rfl
  · exact fun h => absurd (h.2 rfl) (by decide)
  · rfl
  · exact fun h => absurd (h.1 rfl 5000 rfl) (by decide)
  · rfl
  · exact fun h => (h.2 rfl).elim (fun h => absurd h (by decide)) fun h => absurd h (by decide)

end Param

end FluentPlan
