import FluentPlan.Proofs.Building.Resolution
import FluentPlan.Proofs.Fault.Building
import FluentPlan.Proofs.Number.Text
import FluentPlan.Proofs.Param.Offset

/-!
What building stores can be read. The text that stores the value of an argument is one that the kind of
its parameter reads; no other parameter writes under its key; and whatever stands below a collection or
a list does so under an index.
-/

namespace FluentPlan

open Build Script Number Text ParamKind

/-! ### Texts that store values -/

theorem Duration.inRange_floor (unit : TimeUnit) (millis : Int) :
    inRange (millis / unit.millis * unit.millis) = inRange millis := by
  have hsame : millis / unit.millis * unit.millis / millisPerDay = millis / millisPerDay := by
    cases unit
    · simp [TimeUnit.millis]
    · simp only [TimeUnit.millis, millisPerDay]
      omega
  rw [inRange, inRange, hsame]

theorem EnumType.ofRaw?_of_isTold {t : EnumType} (ht : t.isTold = true) {name : String} {m : Member}
    (h : t.ofName? name = some m) : t.ofRaw? m.raw = some m := by
  obtain ⟨x, hx, rfl⟩ := Option.map_eq_some_iff.mp h
  have htold := List.all_eq_true.mp ht x (List.mem_of_find?_eq_some hx)
  rw [Bool.and_eq_true, decide_eq_true_eq, decide_eq_true_eq] at htold
  exact htold.2

namespace ParamKind

/-- Whether a kind reads the text that stores a value. -/
structure Rereads (kind : ParamKind) (v : Value) : Prop where
  static : v.isDynamic = false
  read : ∃ w, kind.read (Param.formatValue kind v) = .ok w

theorem ReadsBack.rereads {kind : ParamKind} {v : Value} (h : kind.ReadsBack v) : kind.Rereads v :=
  ⟨h.static, v, h.read⟩

theorem rereads_int {raw : String} {v : Value} (h : int.read raw = .ok v) : int.Rereads v := by
  obtain ⟨n, rfl, hl, hh⟩ := fits_of_readInteger h
  exact (readsBack_int hl hh).rereads

theorem rereads_double {raw : String} {v : Value} (h : double.read raw = .ok v) :
    double.Rereads v := by
  have h : readDouble raw = .ok v := h
  unfold readDouble at h
  split at h
  · cases h
  · next x hx =>
    split_ifs at h with hfin
    cases h
    exact (readsBack_double hfin (Double.ofText?_text hfin (Double.isProper_ofText? hx))).rereads

theorem rereads_charset {raw : String} {v : Value} (h : charset.read raw = .ok v) :
    charset.Rereads v := by
  have h : readCharset raw = .ok v := h
  simp only [readCharset] at h
  split_ifs at h with h0 hs
  cases h
  refine ⟨rfl, .text (String.ofList (trim isBlank raw.toList)), ?_⟩
  change readCharset (String.ofList (trim isBlank raw.toList)) = _
  simp only [readCharset, String.toList_ofList, trim_trim, hs, if_true]
  rw [if_neg h0]

/-- The name that stands for a constant is one of a charset, with nothing around it. -/
theorem nameOfConstant_clean {constant s : String}
    (h : Charset.nameOfConstant? constant = some s) : trim isBlank s.toList = s.toList ∧
      s.toList.contains '\x00' = false ∧ (Charset.ofName? s).isSome = true := by
  obtain ⟨before, behind, hl, -⟩ := List.lookup_eq_some_iff.mp h
  have hm : (constant, s) ∈ before ++ (constant, s) :: behind := by simp
  rw [← hl] at hm
  have hall : ∀ x ∈ [("UTF_8", "UTF-8"), ("US_ASCII", "US-ASCII"), ("ISO_8859_1", "ISO-8859-1"),
      ("UTF_16", "UTF-16"), ("UTF_16BE", "UTF-16BE"), ("UTF_16LE", "UTF-16LE")],
      trim isBlank x.2.toList = x.2.toList ∧ x.2.toList.contains '\x00' = false ∧
        (Charset.ofName? x.2).isSome = true := by decide
  exact hall _ hm

theorem rereads_nameOfConstant {constant s : String}
    (h : Charset.nameOfConstant? constant = some s) : charset.Rereads (.text s) := by
  obtain ⟨htrim, h0, hname⟩ := nameOfConstant_clean h
  refine ⟨rfl, .text s, ?_⟩
  change readCharset s = _
  simp only [readCharset, htrim, h0, String.ofList_toList, hname, Bool.false_eq_true, if_false,
    if_true]

end ParamKind

namespace Param

/-- The text that stores the value of an argument is one that the kind of the parameter reads. -/
theorem rereads_of_argValue {p : Param} (hp : p.kind.isEchoed = true) {a : Expr} {v : Value}
    (h : p.argValue a = .ok (some v)) : p.kind.Rereads v := by
  obtain ⟨kind, prop, default, required, mandatory⟩ := p
  unfold argValue at h
  dsimp only at h hp ⊢
  split at h
  · next b =>
    cases h
    cases b <;> exact ⟨rfl, _, rfl⟩
  · split_ifs at h
    · split at h
      · next hread =>
        cases h
        exact rereads_int hread
      · cases h
    · cases h
  · cases hp
  · split at h
    · next hread =>
      cases h
      exact rereads_double hread
    · cases h
  · cases hp
  · cases h
    exact ⟨rfl, _, rfl⟩
  · cases h
    exact ⟨rfl, _, rfl⟩
  · cases h
    exact ⟨rfl, _, rfl⟩
  · cases h
  · cases h
  · cases h
  · next unit =>
    split at h
    · next ms _ =>
      split_ifs at h with hin
      cases h
      refine ⟨rfl, .duration (ms / unit.millis * unit.millis), ?_⟩
      simp only [formatValue, ParamKind.read, readDuration, integerOfText?_toString, span,
        Duration.inRange_floor, hin, if_true]
    · cases h
  · cases hp
  · next type _ _ _ =>
    split at h
    · next m hm =>
      cases h
      obtain ⟨name, -, hname⟩ := Option.bind_eq_some_iff.mp hm
      refine ⟨rfl, .member m, ?_⟩
      simp only [formatValue, ParamKind.read, EnumType.ofRaw?_of_isTold hp hname]
    · cases h
  · split at h
    · next stored hs =>
      cases h
      unfold charsetArg? at hs
      split at hs
      · obtain ⟨constant, -, hs⟩ := Option.bind_eq_some_iff.mp hs
        obtain ⟨name, hname, hs⟩ := Option.bind_eq_some_iff.mp hs
        cases hs
        exact rereads_nameOfConstant hname
      · split_ifs at hs
        cases hs
      · cases hs
    · split at h
      · next hread =>
        cases h
        exact rereads_charset hread
      · cases h
    · cases h
  · split_ifs at h
    · cases h
      exact ⟨rfl, _, rfl⟩
    · cases h
  · cases h

theorem exists_parse_of_read {p : Param} {raw : String} {v : Value} (h : p.kind.read raw = .ok v) :
    ∃ w, p.parse (some raw) = .ok w := by
  unfold parse
  dsimp only
  split_ifs
  · exact ⟨_, rfl⟩
  · exact ⟨_, rfl⟩
  · rw [h]
    exact ⟨_, rfl⟩

theorem exists_parse_of_rereads {p : Param} {v : Value} (h : p.kind.Rereads v) :
    ∃ w, p.parse (p.stored (some v)) = .ok w := by
  obtain ⟨w, hw⟩ := h.read
  rw [stored_of_not_isDynamic p h.static]
  exact exists_parse_of_read hw

/-- What stores a value that code gives to a parameter can be read. -/
theorem exists_parse_stored {p : Param} (hp : p.kind.isEchoed = true) (hd : p.readsDefault = true)
    {v : Option Value} (h : p.Given v) : ∃ w, p.parse (p.stored v) = .ok w := by
  cases h with
  | default =>
    unfold readsDefault at hd
    cases hdef : p.default with
    | none => exact ⟨_, rfl⟩
    | some v =>
      rw [hdef] at hd
      simp only [Bool.and_eq_true, Bool.not_eq_true'] at hd
      cases hread : p.kind.read (formatValue p.kind v) with
      | ok w => exact exists_parse_of_rereads ⟨hd.1.2, w, hread⟩
      | error m => simp [hread] at hd
  | @arg a _ hvar h =>
    have hvalue {v : Option Value} (h : p.argValue a = .ok v) : ∃ w, p.parse (p.stored v) = .ok w := by
      cases v with
      | none => exact ⟨_, rfl⟩
      | some v => exact exists_parse_of_rereads (rereads_of_argValue hp h)
    unfold fromArg at h
    split at h
    · split_ifs at h with hdyn
      · cases h
        exact ⟨_, parse_of_isDynamic p hdyn⟩
      · exact hvalue h
    · exact hvalue h
  | @args as _ hvar h =>
    obtain ⟨items, rfl⟩ := (failsWithin_go p as []).2 v h
    have hk : p.kind = .textArray := by
      cases hk : p.kind with
      | textArray => rfl
      | textList =>
        rw [hk] at hp
        cases hp
      | _ =>
        rw [hk] at hvar
        cases hvar
    refine exists_parse_of_rereads ⟨rfl, ?_⟩
    rw [hk]
    exact ⟨_, rfl⟩
  | presence b hk =>
    refine exists_parse_of_rereads ?_
    rw [hk]
    cases b <;> exact ⟨rfl, _, rfl⟩

end Param

/-! ### Keys and who writes under them -/

/-- Whether a kind reads any text. -/
def ParamKind.readsAll : ParamKind → Bool
  | plain | text | displayName | classRef | url | children | textArray => true
  | _ => false

theorem Param.exists_valueOf_of_readsAll {p : Param} (h : p.kind.readsAll = true) (e : Element)
    (lead : String) : ∃ v, p.valueOf e lead = .ok v := by
  have hread (raw : String) : ∃ v, p.kind.read raw = .ok v := by
    cases hk : p.kind <;> first | exact ⟨_, rfl⟩ | (rw [hk] at h; cases h)
  have hparse (raw : Option String) : ∃ v, p.parse raw = .ok v := by
    cases raw with
    | none => exact ⟨_, rfl⟩
    | some t => exact exists_parse_of_read (hread t).choose_spec
  have hvalue : p.valueOf e lead = p.parse (p.extract e lead) := by
    unfold valueOf
    split
    · next hk =>
      rw [hk] at h
      cases h
    · next hk =>
      rw [hk] at h
      cases h
    · rfl
  rw [hvalue]
  exact hparse _

/-- A parameter that has one property and does not read any text. -/
theorem Param.simple_of_isEchoed {p : Param} (he : p.kind.isEchoed = true)
    (hr : p.kind.readsAll = false) :
    (∀ lead, p.region lead = [.exact (lead ++ p.propText)]) ∧
      (∀ v lead, p.entries v lead =
        (p.prop.bind fun key => (p.stored v).map fun t => (lead ++ key, t)).toList) ∧
      ∀ (e : Element) lead,
        p.valueOf e lead = p.parse (p.prop.bind fun key => e.properties.get? (lead ++ key)) := by
  obtain ⟨kind, prop, default, required, mandatory⟩ := p
  cases kind with
  | bool | int | double | duration _ | enum _ _ | charset =>
    exact ⟨fun _ => rfl, fun _ _ => rfl, fun _ _ => rfl⟩
  | long | float | holdDuration _ _ | textList => cases he
  | _ => cases hr

/-- Texts under indices have indices. -/
theorem exists_of_mem_itemEntries {base : String} {index : Nat} {items : List String}
    {e : String × String} (h : e ∈ itemEntries base index items) :
    ∃ i : Nat, e.1 = base ++ toString i := by
  induction items generalizing index with
  | nil => cases h
  | cons s items ih =>
    rcases List.mem_cons.mp h with rfl | h
    · exact ⟨index, rfl⟩
    · exact ih h

theorem Param.exists_indexed {base : String} {es : List (String × String)}
    (h : ∀ e ∈ es, ∀ tail, behind? base e.1 = some tail → Number.isDigits tail = true →
      ∃ n, indexValue tail = .ok n) : ∃ found, indexed base es = .ok found := by
  induction es with
  | nil => exact ⟨[], rfl⟩
  | cons e es ih =>
    obtain ⟨key, value⟩ := e
    obtain ⟨hhead, htail⟩ := List.forall_mem_cons.mp h
    obtain ⟨found, hfound⟩ := ih htail
    unfold indexed
    split
    · next tail hb =>
      split_ifs with hd
      · obtain ⟨n, hn⟩ := hhead tail hb hd
        rw [hn, hfound]
        exact ⟨_, rfl⟩
      · exact ⟨found, hfound⟩
    · exact ⟨found, hfound⟩

/-- The keys under which a modifier writes the values of a parameter. -/
def Modifier.reach (m : Modifier) (p : Param) : List KeyPattern :=
  match m.each with
  | some each => [.below (each ++ "/")]
  | none => p.region ""

namespace Signature

/-- The parameters whose values are stored, each with the keys under which that happens. -/
def places (s : Signature) : List (Param × List KeyPattern) :=
  s.scalarParams.map (fun p => (p, p.region "")) ++
    s.modifiers.flatMap fun m => m.params.map fun p => (p, m.reach p)

/-- Whether nothing else is written where a parameter is looked for that does not read any text. -/
def isUnmixed (s : Signature) : Bool :=
  s.places.all fun x => x.1.kind.readsAll || (x.2 = x.1.region "" &&
    (s.places.all fun y => y = x || regionsApart y.2 x.2) &&
    s.guardKeys.all fun k => !inRegion x.2 k)

/-- Whether a key has an index if it stands below a collection. -/
def isNumbered (each : String) : KeyPattern → Bool
  | .exact key => match Element.indexIn? (each ++ "/") key with
    | .ok _ => true
    | .error _ => false
  | .below _ => false

/-- Whether whatever is written below a collection has an index there. -/
def numbersAll (s : Signature) : Bool :=
  s.modifiers.all fun m => m.each.all fun each =>
    (s.guardKeys.all fun k => isNumbered each (.exact k)) &&
    (s.scalarParams.all fun p => (p.region "").all (isNumbered each)) &&
    s.modifiers.all fun n => match n.each with
      | some other => other = each
      | none => n.params.all fun p => (p.region "").all (isNumbered each)

end Signature

theorem Registry.isUnmixed_standard :
    standard.signatures.all Signature.isUnmixed = true := by decide +kernel

theorem Registry.numbersAll_standard :
    standard.signatures.all Signature.numbersAll = true := by decide +kernel

namespace Signature.Restorable

variable {s : Signature} (hs : s.Restorable)

include hs

theorem restored_of_scalar {p : Param} (hp : p ∈ s.scalarParams) : p.isRestored = true :=
  (Bool.and_eq_true_iff.mp (hs.scalars p hp)).1

theorem restored_of_modifier {m : Modifier} (hm : m ∈ s.modifiers) {p : Param} (hp : p ∈ m.params) :
    p.kind.isVariadic = true ∨ p.isRestored = true := by
  rcases (hs.modifiers m hm).divided with hlist | hdiv
  · unfold Modifier.isListing at hlist
    split at hlist
    · next q hq =>
      rw [hq] at hp
      obtain rfl := List.mem_singleton.mp hp
      simp only [Bool.and_eq_true] at hlist
      exact .inl hlist.1.1.1
    · cases hlist
  · have hall := List.all_eq_true.mp (Bool.and_eq_true_iff.mp hdiv).1 p hp
    exact .inr (Bool.and_eq_true_iff.mp hall).1

/-- Each property that is not a guard's has a place from which it was written. -/
theorem exists_place_of_entered {e : String × String} (h : Entered s e) :
    e.1 ∈ s.guardKeys ∨ ∃ x ∈ s.places, ∃ v lead, x.1.Given v ∧ e ∈ x.1.entries v lead ∧
      inRegion x.2 e.1 = true ∧ (x.2 = x.1.region "" → lead = "") := by
  cases h with
  | @scalar p v hp hn hv he =>
    have hplaced := Param.isPlaced_of_isRestorable (hs.scalars p hp) hn
    exact .inr ⟨(p, p.region ""), List.mem_append_left _ (List.mem_map_of_mem hp), v, "", hv, he,
      Param.inRegion_of_mem_entries hplaced he, fun _ => rfl⟩
  | @setting m p v i hm hp hv he =>
    have hr := hs.modifiers m hm
    have hown := Param.inRegion_of_mem_entries (hr.placed p hp) he
    refine .inr ⟨(p, m.reach p), List.mem_append_right _ (List.mem_flatMap.mpr ⟨m, hm,
      List.mem_map_of_mem hp⟩), v, lead m i, hv, he, ?_, fun hreach => ?_⟩
    · have hin := hr.inRegion_of_lead hp hown
      unfold Modifier.reach
      unfold Modifier.region at hin
      unfold lead at hown
      cases heach : m.each with
      | some each =>
        rw [heach] at hin
        exact hin
      | none =>
        rw [heach] at hown
        exact hown
    · cases heach : m.each with
      | none => simp only [lead, heach]
      | some each =>
        dsimp only at hreach
        rw [hr.region_of_each heach hp, Modifier.reach, heach] at hreach
        cases hreach
  | guard hg he => exact .inl (hs.writes_subset_guardKeys hg he)

section

variable (hu : s.isUnmixed = true) {props : Properties} (hw : Written s props)

include hu hw

/-- Where a parameter does not read any text, only values given to it are stored. -/
theorem given_of_unmixed {x : Param × List KeyPattern} (hx : x ∈ s.places)
    (hk : x.1.kind.readsAll = false) {key t : String} (hin : inRegion (x.1.region "") key = true)
    (hget : props.get? key = some t) : ∃ v, x.1.Given v ∧ (key, t) ∈ x.1.entries v "" := by
  have hall := List.all_eq_true.mp hu x hx
  rw [hk, Bool.false_or, Bool.and_eq_true, Bool.and_eq_true, decide_eq_true_eq] at hall
  obtain ⟨⟨hown, hothers⟩, hguards⟩ := hall
  rw [← hown] at hin
  rcases hs.exists_place_of_entered (hs.entered_of_written hw hget) with hguard | hplace
  · have hout := List.all_eq_true.mp hguards key hguard
    rw [hin] at hout
    cases hout
  · obtain ⟨y, hy, v, lead, hv, he, hin', hlead⟩ := hplace
    have hsame := List.all_eq_true.mp hothers y hy
    rw [Bool.or_eq_true, decide_eq_true_eq] at hsame
    rcases hsame with rfl | hapart
    · rw [hlead hown] at he
      exact ⟨v, hv, he⟩
    · rw [not_inRegion_of_apart hapart hin'] at hin
      cases hin

/-- The texts of a list have indices. -/
theorem exists_valueOf_of_textList {x : Param × List KeyPattern} (hx : x ∈ s.places)
    (hk : x.1.kind = .textList) {e : Element} (he : e.properties = props) :
    ∃ v, x.1.valueOf e "" = .ok v := by
  have hregion : x.1.region "" = [.below ("" ++ x.1.propText ++ "/")] := by
    unfold Param.region
    rw [hk]
  obtain ⟨found, hfound⟩ : ∃ found, Param.indexed ("" ++ x.1.propText ++ "/") e.properties.entries =
      .ok found := by
    refine Param.exists_indexed fun entry hentry tail hb hd => ?_
    have hget : props.get? entry.1 = some entry.2 := Properties.get?_eq_some_iff.mpr (he ▸ hentry)
    have hin : inRegion (x.1.region "") entry.1 = true := by
      rw [hregion]
      simp only [inRegion, List.any_cons, List.any_nil, KeyPattern.covers, hb, Option.isSome_some,
        Bool.or_false]
    obtain ⟨v, -, hmem⟩ := hs.given_of_unmixed hu hw hx (by rw [hk]; rfl) hin hget
    have hitems : x.1.entries v "" =
        itemEntries ("" ++ x.1.propText ++ "/") 0 (Param.itemsOf v) := by
      unfold Param.entries
      rw [hk]
    rw [hitems] at hmem
    obtain ⟨i, hi⟩ := exists_of_mem_itemEntries hmem
    dsimp only at hi
    rw [hi, behind?_append] at hb
    cases hb
    refine ⟨i, ?_⟩
    rw [Param.indexValue, Number.readNatural?_toString]
  unfold Param.valueOf
  rw [hk]
  dsimp only
  rw [hfound]
  exact ⟨_, rfl⟩

/-- What a parameter finds in an element that was written for its signature can be read. -/
theorem exists_valueOf {x : Param × List KeyPattern} (hx : x ∈ s.places)
    (hp : x.1.kind.isVariadic = true ∨ x.1.isRestored = true) {e : Element} (he : e.properties = props) :
    ∃ v, x.1.valueOf e "" = .ok v := by
  cases hk : x.1.kind.readsAll with
  | true => exact x.1.exists_valueOf_of_readsAll hk e ""
  | false =>
    by_cases hlist : x.1.kind = .textList
    · exact hs.exists_valueOf_of_textList hu hw hx hlist he
    · have hrestored : x.1.isRestored = true := by
        refine hp.resolve_left fun hvar => ?_
        cases hkind : x.1.kind with
        | textList => exact hlist hkind
        | textArray =>
          rw [hkind] at hk
          cases hk
        | _ =>
          rw [hkind] at hvar
          cases hvar
      simp only [Param.isRestored, Bool.and_eq_true, Bool.not_eq_true'] at hrestored
      obtain ⟨⟨⟨hecho, -⟩, hdefault⟩, -⟩ := hrestored
      obtain ⟨hregion, hentries, hvalue⟩ := Param.simple_of_isEchoed hecho hk
      rw [hvalue]
      cases hprop : x.1.prop with
      | none => exact ⟨_, rfl⟩
      | some key =>
        rw [Option.bind_some, he]
        cases hget : props.get? ("" ++ key) with
        | none => exact ⟨_, rfl⟩
        | some t =>
          have hin : inRegion (x.1.region "") ("" ++ key) = true := by
            simp [hregion, Param.propText, hprop, inRegion, KeyPattern.covers]
          obtain ⟨v, hv, hmem⟩ := hs.given_of_unmixed hu hw hx hk hin hget
          rw [hentries, hprop, Option.bind_some, Option.mem_toList] at hmem
          obtain ⟨u, hu', hpair⟩ := Option.map_eq_some_iff.mp hmem
          obtain rfl : u = t := (Prod.mk.inj hpair).2
          rw [← hu']
          exact Param.exists_parse_stored hecho hdefault hv

end

/-- Whatever stands below a collection does so under an index. -/
theorem exists_indices (hn : s.numbersAll = true) {props : Properties} (hw : Written s props)
    {m : Modifier} (hm : m ∈ s.modifiers) {each : String} (heach : m.each = some each) :
    ∃ found, Element.indices props each "" = .ok found := by
  have hall := List.all_eq_true.mp hn m hm
  simp only [heach, Option.all_some, Bool.and_eq_true, List.all_eq_true] at hall
  obtain ⟨⟨hguards, hscalars⟩, hmodifiers⟩ := hall
  have hregion {ps : List KeyPattern} (h : ∀ a ∈ ps, isNumbered each a = true) {key : String}
      (hin : inRegion ps key = true) : ∃ o, Element.indexIn? (each ++ "/") key = .ok o := by
    obtain ⟨a, ha, hcovers⟩ := List.any_eq_true.mp hin
    have hnum := h a ha
    cases a with
    | below lead => cases hnum
    | exact k =>
      obtain rfl : key = k := by simpa [KeyPattern.covers] using hcovers
      cases ho : Element.indexIn? (each ++ "/") key with
      | ok o => exact ⟨o, rfl⟩
      | error f => simp [isNumbered, ho] at hnum
  have hfind : ∀ key ∈ props.keys, ∃ o, Element.indexIn? ("" ++ each ++ "/") key = .ok o := by
    intro k hk
    rw [String.empty_append]
    obtain ⟨⟨key, t⟩, ht, rfl⟩ := List.mem_map.mp hk
    have hentered := hs.entered_of_written hw (Properties.get?_eq_some_iff.mpr ht)
    cases hentered with
    | scalar hp hname hv he =>
      have hplaced := Param.isPlaced_of_isRestorable (hs.scalars _ hp) hname
      exact hregion (hscalars _ hp) (Param.inRegion_of_mem_entries hplaced he)
    | @setting n p v i hn' hp hv he =>
      have hin := Param.inRegion_of_mem_entries ((hs.modifiers n hn').placed p hp) he
      have hother := hmodifiers n hn'
      unfold lead at hin
      cases hne : n.each with
      | none =>
        rw [hne] at hother hin
        exact hregion (List.all_eq_true.mp (List.all_eq_true.mp hother p hp)) hin
      | some other =>
        rw [hne] at hother hin
        obtain rfl : other = each := by simpa using hother
        rw [(hs.modifiers n hn').region_of_each hne hp] at hin
        have hkey : key = Element.entryLead other i ++ p.propText := by
          simpa [inRegion, KeyPattern.covers] using hin
        exact ⟨_, hkey ▸ Element.indexIn?_entryLead other p.propText i⟩
    | guard hg he =>
      have hown : ∀ a ∈ [KeyPattern.exact key], isNumbered each a = true := by
        simpa using hguards key (hs.writes_subset_guardKeys hg he)
      exact hregion hown (by simp [inRegion, KeyPattern.covers])
  obtain ⟨found, hfound⟩ := exists_forall₂ hfind
  rw [Element.indices, (mapM_eq_ok_iff _ _ _).mpr hfound]
  exact ⟨_, rfl⟩

end Signature.Restorable

/-! ### Calls -/

namespace Element

theorem exists_valuesOf {e : Element} {lead : String} {ps : List Param}
    (h : ∀ p ∈ ps, ∃ v, p.valueOf e lead = .ok v) : ∃ values, valuesOf e lead ps = .ok values := by
  obtain ⟨values, hvalues⟩ := exists_forall₂ (R := fun (p : Param) x =>
      (do let v ← p.valueOf e lead; return (p, v) : Except Failure (Param × Option Value)) = .ok x)
    fun p hp => by
      obtain ⟨v, hv⟩ := h p hp
      exact ⟨(p, v), by rw [hv]; rfl⟩
  exact ⟨values, (mapM_eq_ok_iff _ _ _).mpr hvalues⟩

/-- A modifier without a collection has its calls, if its values can be read. -/
theorem exists_modifierCalls_of_values {e : Element} {m : Modifier} (hm : m.each = none)
    (hv : ∃ values, valuesOf e "" m.params = .ok values)
    (hc : ∀ p ∈ m.params, p.isComparable = true) : ∃ cs, modifierCalls e m = .ok cs := by
  obtain ⟨values, hvalues⟩ := hv
  obtain ⟨b, hb⟩ := exists_allDefault fun x hx => hc x.1 (mem_of_valuesOf hvalues hx).1
  unfold modifierCalls
  split
  · exact ⟨_, rfl⟩
  · rw [hm, hvalues, ok_bind, hb, ok_bind]
    cases b with
    | true => exact ⟨_, rfl⟩
    | false =>
      rw [if_neg Bool.false_ne_true]
      dsimp only
      split_ifs <;> exact ⟨_, rfl⟩

/-- An element has a call of its own, if its values can be read and its modifiers have their calls. -/
theorem exists_ownCall {o : Options} {s : Signature} (hs : s.isComparable = true) {e : Element}
    (hv : ∃ values, scalarValues s e = .ok values)
    (hm : ∀ m ∈ s.modifiers, ∃ cs, modifierCalls e m = .ok cs) : ∃ r, ownCall o s e = .ok r := by
  obtain ⟨values, hvalues⟩ := hv
  have hcomparable : ∀ x ∈ values, x.1.isComparable = true := fun x hx =>
    List.all_eq_true.mp hs x.1 (List.mem_append_left _
      (List.mem_of_mem_filter (mem_of_valuesOf hvalues hx).1))
  obtain ⟨b, hb⟩ := exists_allDefault hcomparable
  obtain ⟨calls, hcalls⟩ := exists_forall₂ hm
  have hchain := (mapM_eq_ok_iff _ _ _).mpr hcalls
  unfold ownCall
  rw [hvalues, ok_bind, hb, hchain]
  split_ifs
  · cases b <;> exact ⟨_, rfl⟩
  · exact ⟨_, rfl⟩

/-- A modifier with a collection has its calls, if the entries have indices and values that can be
read. -/
theorem exists_modifierCalls_of_each {e : Element} {m : Modifier} {each : String}
    (hm : m.each = some each) (hi : ∃ found, indices e.properties each "" = .ok found)
    (hv : ∀ p ∈ m.params, ∀ lead, ∃ v, p.valueOf e lead = .ok v) :
    ∃ cs, modifierCalls e m = .ok cs := by
  obtain ⟨found, hfound⟩ := hi
  unfold modifierCalls
  split
  · exact ⟨_, rfl⟩
  · rw [hm]
    dsimp only
    rw [hfound, ok_bind]
    have hentry : ∀ i ∈ found, ∃ c, (do
        let values ← valuesOf e (entryLead each i) m.params
        return .chained m.method (argsOf values) : Except Failure Call) = .ok c := by
      intro i _
      obtain ⟨values, hvalues⟩ : ∃ values, valuesOf e (entryLead each i) m.params = .ok values :=
        exists_valuesOf fun p hp => hv p hp _
      exact ⟨_, by rw [hvalues]; rfl⟩
    obtain ⟨cs, hcs⟩ := exists_forall₂ hentry
    exact ⟨cs, (mapM_eq_ok_iff _ _ _).mpr hcs⟩

end Element

/-- What is written for a signature has a call by the signature. -/
theorem Signature.Restorable.exists_ownCall {s : Signature} (hs : s.Restorable)
    (hu : s.isUnmixed = true) (hn : s.numbersAll = true) (hc : s.isComparable = true) (o : Options)
    {e : Element} (hw : Written s e.properties) : ∃ r, Element.ownCall o s e = .ok r := by
  refine Element.exists_ownCall hc (Element.exists_valuesOf fun p hp => ?_) fun m hm => ?_
  · exact hs.exists_valueOf hu hw (x := (p, p.region ""))
      (List.mem_append_left _ (List.mem_map_of_mem hp)) (.inr (hs.restored_of_scalar hp)) rfl
  · have hplace {p : Param} (hp : p ∈ m.params) : (p, m.reach p) ∈ s.places :=
      List.mem_append_right _ (List.mem_flatMap.mpr ⟨m, hm, List.mem_map_of_mem hp⟩)
    cases heach : m.each with
    | none =>
      refine Element.exists_modifierCalls_of_values heach (Element.exists_valuesOf fun p hp => ?_)
        fun p hp => List.all_eq_true.mp hc p
          (List.mem_append_right _ (List.mem_flatMap.mpr ⟨m, hm, hp⟩))
      exact hs.exists_valueOf hu hw (hplace hp) (hs.restored_of_modifier hm hp) rfl
    | some each =>
      refine Element.exists_modifierCalls_of_each heach (hs.exists_indices hn hw hm heach) fun p hp lead => ?_
      refine Param.exists_valueOf_of_readsAll ?_ e lead
      have hall := List.all_eq_true.mp hu _ (hplace hp)
      -- a parameter that does not read any text is looked for under its own key
      refine (Bool.or_eq_true_iff.mp hall).resolve_right fun hown => ?_
      simp only [Bool.and_eq_true, decide_eq_true_eq] at hown
      rw [(hs.modifiers m hm).region_of_each heach hp, Modifier.reach, heach] at hown
      cases hown.1.1

end FluentPlan
