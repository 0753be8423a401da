import FluentPlan.Proofs.Building.Readable
import FluentPlan.Proofs.Rebuilding.Survival
import FluentPlan.Proofs.Requirement.Hoisting

/-!
Which values of arguments their properties can hold. Properties count whole units of time, take an
empty text for none and a text that looks like a reference to a variable for one, and keep listed texts
with commas between them; arguments mind nothing of that.
-/

namespace FluentPlan

open Script Text

namespace ParamKind

/-- Whether the property of a kind can hold what arguments say. -/
def CanHold (kind : ParamKind) (v : Value) : Prop :=
  match kind, v with
  | .duration unit, .duration ms | .holdDuration unit _, .duration ms => unit.millis ∣ ms
  | .text, .text s | .url, .text s => s ≠ ""
  | .classRef, .text s => s ≠ "" ∧ isDynamic s = false
  | .charset, .text s => isDynamic s = false
  | .textArray, .texts items => items = [] ∨
      (items ≠ [""] ∧ (∀ s ∈ items, ',' ∉ s.toList) ∧
        isDynamic (String.intercalate "," items) = false)
  | _, _ => True

/-! ### Listed texts -/

theorem commaParts_intercalate_iff {items : List String} (hne : items ≠ []) :
    commaParts (String.intercalate "," items) = items ↔ ∀ s ∈ items, ',' ∉ s.toList := by
  have htext : (String.intercalate "," items).toList = joinWith [','] (items.map String.toList) := by
    have h := toList_intercalate_ofList "," (items.map String.toList)
    rwa [List.map_map, show String.ofList ∘ String.toList = id from funext fun _ =>
      String.ofList_toList, List.map_id] at h
  constructor
  · intro h s hs hcomma
    rw [← h] at hs
    obtain ⟨l, hl, rfl⟩ := List.mem_map.mp hs
    rw [String.toList_ofList] at hcomma
    exact (mem_of_mem_splitAt hl hcomma).2 rfl
  · intro h
    have hfree : ∀ l ∈ items.map String.toList, ',' ∉ l := by simpa using h
    rw [commaParts, htext, splitAt_joinWith (by simpa using hne) hfree, List.map_map]
    exact (List.map_congr_left fun s _ => String.ofList_toList).trans (List.map_id _)

theorem readsBack_textArray_iff {items : List String} (hne : items ≠ []) :
    textArray.ReadsBack (.texts items) ↔ items ≠ [""] ∧ (∀ s ∈ items, ',' ∉ s.toList) ∧
      isDynamic (String.intercalate "," items) = false := by
  have hread : textArray.read (String.intercalate "," items) = .ok (.texts items) ↔
      ∀ s ∈ items, ',' ∉ s.toList := by
    rw [← commaParts_intercalate_iff hne]
    constructor
    · intro h
      exact Value.texts.inj (Except.ok.inj h)
    · intro h
      exact congrArg (fun l => Except.ok (Value.texts l)) h
  constructor
  · intro h
    have hfree := hread.mp h.read
    refine ⟨?_, hfree, h.plain⟩
    rintro rfl
    exact absurd h.nonempty (by decide)
  · rintro ⟨hblank, hfree, hplain⟩
    refine ⟨rfl, ?_, hplain, hread.mpr hfree⟩
    -- an empty text has one piece, which is empty
    rw [Bool.eq_false_iff]
    intro hempty
    have hparts := (commaParts_intercalate_iff hne).mpr hfree
    have hraw : String.intercalate "," items = "" := String.isEmpty_iff.mp hempty
    rw [hraw] at hparts
    exact hblank hparts.symm

/-! ### Single arguments -/

theorem readsBack_text_iff {kind : ParamKind} (hk : kind = .text ∨ kind = .url ∨ kind = .classRef)
    (s : String) : kind.ReadsBack (.text s) ↔ s ≠ "" ∧ isDynamic s = false := by
  have hformat : Param.formatValue kind (.text s) = s := by
    rcases hk with rfl | rfl | rfl <;> rfl
  have hread : kind.read s = .ok (.text s) := by rcases hk with rfl | rfl | rfl <;> rfl
  constructor
  · intro h
    have hne := h.nonempty
    have hd := h.plain
    rw [hformat] at hne hd
    refine ⟨?_, hd⟩
    rintro rfl
    cases hne
  · rintro ⟨hne, hd⟩
    have he : s.isEmpty = false := by
      rw [Bool.eq_false_iff]
      exact fun h => hne (String.isEmpty_iff.mp h)
    exact readsBack_of_eq he hd hread rfl hformat

theorem readsBack_duration_iff {kind : ParamKind} {unit : TimeUnit}
    (hk : kind = .duration unit ∨ ∃ key, kind = .holdDuration unit key) {ms : Int}
    (hr : Duration.inRange ms = true) : kind.ReadsBack (.duration ms) ↔ unit.millis ∣ ms := by
  have hformat : Param.formatValue kind (.duration ms) = toString (ms / unit.millis) := by
    rcases hk with rfl | ⟨key, rfl⟩ <;> rfl
  have hread : kind.read (toString (ms / unit.millis)) =
      .ok (.duration (ms / unit.millis * unit.millis)) := by
    have hin : Duration.inRange (ms / unit.millis * unit.millis) = true := by
      rw [Duration.inRange_floor, hr]
    rcases hk with rfl | ⟨key, rfl⟩ <;>
      simp only [read, readDuration, integerOfText?_toString, span, hin, if_true]
  constructor
  · intro h
    have hback := h.read
    rw [hformat, hread] at hback
    exact ⟨ms / unit.millis, by rw [Int.mul_comm, Value.duration.inj (Except.ok.inj hback)]⟩
  · intro hdvd
    rw [Int.ediv_mul_cancel hdvd] at hread
    exact readsBack_of_eq (not_isEmpty_toString _) (not_isDynamic_toString _) hread rfl hformat

theorem readsBack_charset_iff {s : String} (ht : trim isBlank s.toList = s.toList)
    (h0 : s.toList.contains '\x00' = false) (hs : (Charset.ofName? s).isSome = true) :
    charset.ReadsBack (.text s) ↔ isDynamic s = false :=
  ⟨fun h => h.plain, fun hd => Param.readsBack_charset_of_trimmed hd ht h0 hs⟩

theorem readsBack_of_read_int {raw : String} {v : Value} (h : int.read raw = .ok v) :
    int.ReadsBack v := by
  obtain ⟨n, rfl, hl, hh⟩ := fits_of_readInteger (show readInteger intMin intMax raw = .ok v from h)
  exact readsBack_int hl hh

theorem readsBack_of_read_long {raw : String} {v : Value} (h : long.read raw = .ok v) :
    long.ReadsBack v := by
  obtain ⟨n, rfl, hl, hh⟩ :=
    fits_of_readInteger (show readInteger longMin longMax raw = .ok v from h)
  exact readsBack_long hl hh

theorem readsBack_of_read_double {kind : ParamKind} (hk : kind = .double ∨ kind = .float)
    {raw : String} {v : Value} (h : kind.read raw = .ok v) : kind.ReadsBack v := by
  have h : readDouble raw = .ok v := by rcases hk with rfl | rfl <;> exact h
  obtain ⟨x, rfl, hfin⟩ := fits_of_readDouble h
  have hproper := Number.Double.isProper_ofText? (ofText?_of_readDouble h)
  obtain ⟨hs, hne, hp, hr⟩ := readsBack_double hfin (Number.Double.ofText?_text hfin hproper)
  rcases hk with rfl | rfl <;> exact ⟨hs, hne, hp, hr⟩

/-- A charset that is read has a name with nothing around it. -/
theorem exists_of_readCharset {raw : String} {v : Value} (h : charset.read raw = .ok v) :
    ∃ s, v = .text s ∧ trim isBlank s.toList = s.toList ∧ s.toList.contains '\x00' = false ∧
      (Charset.ofName? s).isSome = true := by
  have h : readCharset raw = .ok v := h
  simp only [readCharset] at h
  split_ifs at h with h0 hs
  cases h
  refine ⟨_, rfl, ?_, ?_, hs⟩
  · rw [String.toList_ofList, trim_trim]
  · rw [String.toList_ofList, Bool.eq_false_iff]
    exact h0

/-- Whether the members of an enumeration are told apart, and their raw texts from references. -/
def isPlainEnum : ParamKind → Bool
  | enum type _ => type.isTold && type.members.all fun m => !m.2.isEmpty && !isDynamic m.2
  | _ => true

theorem readsBack_member {type : EnumType} {javaClass : String}
    (h : (enum type javaClass).isPlainEnum = true) {name : String} {m : Member}
    (hm : type.ofName? name = some m) : (enum type javaClass).ReadsBack (.member m) := by
  obtain ⟨htold, hraws⟩ := Bool.and_eq_true_iff.mp h
  have hraw := EnumType.ofRaw?_of_isTold htold hm
  obtain ⟨x, hx, rfl⟩ := Option.map_eq_some_iff.mp hm
  have hx := List.all_eq_true.mp hraws x (List.mem_of_find?_eq_some hx)
  simp only [Bool.and_eq_true, Bool.not_eq_true'] at hx
  refine ⟨rfl, hx.1, hx.2, ?_⟩
  simp only [Param.formatValue, ParamKind.read, hraw]

end ParamKind

namespace Param

open ParamKind

theorem charsetArg_clean {a : Expr} {s : String} (h : charsetArg? a = some (true, s)) :
    trim isBlank s.toList = s.toList ∧ s.toList.contains '\x00' = false ∧
      (Charset.ofName? s).isSome = true := by
  unfold charsetArg? at h
  split at h
  · obtain ⟨constant, -, h⟩ := Option.bind_eq_some_iff.mp h
    obtain ⟨name, hname, h⟩ := Option.bind_eq_some_iff.mp h
    cases h
    exact nameOfConstant_clean hname
  · split_ifs at h
    cases h
  · cases h

/-- What an argument says is read from the text that stores it just when the property can hold it. -/
theorem readsBack_iff_canHold {p : Param} (hk : p.kind ≠ .displayName)
    (he : p.kind.isPlainEnum = true) {a : Expr} (ha : ∀ pos s, a = .text pos s → isDynamic s = false)
    {v : Value} (h : p.argValue a = .ok (some v)) : p.kind.ReadsBack v ↔ p.kind.CanHold v := by
  obtain ⟨kind, prop, default, required, mandatory⟩ := p
  unfold argValue at h
  dsimp only at h hk he ⊢
  split at h
  · next b =>
    cases h
    refine iff_of_true ?_ trivial
    cases b <;> exact ⟨rfl, by decide, by decide, rfl⟩
  · split_ifs at h
    · split at h
      · next hread =>
        cases h
        exact iff_of_true (readsBack_of_read_int hread) trivial
      · cases h
    · cases h
  · split_ifs at h
    · split at h
      · next hread =>
        cases h
        exact iff_of_true (readsBack_of_read_long hread) trivial
      · cases h
    · cases h
  · split at h
    · next hread =>
      cases h
      exact iff_of_true (readsBack_of_read_double (.inl rfl) hread) trivial
    · cases h
  · split at h
    · next hread =>
      cases h
      exact iff_of_true (readsBack_of_read_double (.inr rfl) hread) trivial
    · cases h
  · next pos s =>
    cases h
    exact (readsBack_text_iff (.inl rfl) s).trans (and_iff_left (ha pos s rfl))
  · exact absurd rfl hk
  · next pos s =>
    cases h
    exact (readsBack_text_iff (.inr (.inl rfl)) s).trans (and_iff_left (ha pos s rfl))
  · cases h
  · cases h
  · cases h
  · split at h
    · split_ifs at h with hin
      cases h
      exact readsBack_duration_iff (.inl rfl) hin
    · cases h
  · split at h
    · split_ifs at h with hin
      cases h
      exact readsBack_duration_iff (.inr ⟨_, rfl⟩) hin
    · cases h
  · split at h
    · next m hm =>
      cases h
      obtain ⟨name, -, hname⟩ := Option.bind_eq_some_iff.mp hm
      exact iff_of_true (readsBack_member he hname) trivial
    · cases h
  · split at h
    · next stored hs =>
      cases h
      obtain ⟨htrim, h0, hname⟩ := charsetArg_clean hs
      exact readsBack_charset_iff htrim h0 hname
    · split at h
      · next hread =>
        cases h
        obtain ⟨s, rfl, htrim, h0, hname⟩ := exists_of_readCharset hread
        exact readsBack_charset_iff htrim h0 hname
      · cases h
    · cases h
  · split_ifs at h
    · cases h
      exact readsBack_text_iff (.inr (.inr rfl)) _
    · cases h
  · cases h

/-! ### Places -/

/-- The property that is read beside that of a parameter, if there is one. -/
def sideKey? (p : Param) : Option String :=
  match p.kind with
  | .url => some domainKey
  | .holdDuration _ key => some key
  | _ => none

/-- A parameter with a property of its own, and a default that no argument stands for without giving
anything to store. -/
structure HasOwnPlace (p : Param) : Prop where
  prop : p.prop ≠ none
  side : p.sideKey? ≠ p.prop
  named : p.kind ≠ .displayName
  told : p.kind.isPlainEnum = true
  text : p.default ≠ some (.text "")
  listed : p.kind = .textArray → p.default = some (.texts [])

theorem moveBy_none (v : Option Value) : moveBy v none = .ok v := by
  cases v with
  | none => rfl
  | some v => cases v <;> rfl

/-- What is found in the place of a parameter is what is read there. -/
theorem restores_iff_reread {p : Param} (hp : p.HasOwnPlace) (hk : p.kind ≠ .textList) (w : Value)
    (lead : String) (v : Value) : p.Restores (some w) .empty lead v ↔
      ∃ v', p.reread (some w) = .ok (some v') ∧ p.kind.Agree v v' := by
  obtain ⟨t, ht⟩ := p.exists_stored w
  obtain ⟨key, hprop⟩ := Option.ne_none_iff_exists'.mp hp.prop
  have hraw := storeRaw_of_stored hprop ht .empty lead
  have hown (e : Element) (he : e.properties = Properties.empty.put (lead ++ key) t) :
      e.properties.get? (lead ++ key) = some t := by rw [he, Properties.get?_put_self]
  have hside {other : String} (hside : p.sideKey? = some other) (e : Element)
      (he : e.properties = Properties.empty.put (lead ++ key) t) :
      e.properties.get? (lead ++ other) = none := by
    rw [he, Properties.get?_put_of_ne, Properties.get?_empty]
    intro h
    rw [String.append_right_inj] at h
    exact hp.side (hside.trans (by rw [hprop, h]))
  rw [reread, if_neg hk, ht]
  by_cases hsingle : isSingle p.kind = true
  · have hstore := store_of_isSingle hsingle (some w) .empty lead
    rw [hraw] at hstore
    refine restores_iff_of_found hstore (fun e he => ?_) v
    rw [valueOf_of_isSingle hsingle, hprop, Option.bind_some, hown e he]
  · cases hkind : p.kind with
    | url =>
      have hstore : p.store (some w) .empty lead = .ok (Properties.empty.put (lead ++ key) t) := by
        simp only [store, hkind, hraw]
      rw [← hkind]
      refine restores_iff_of_found hstore (fun e he => ?_) v
      have htext : p.propText = key := by rw [propText, hprop, Option.getD_some]
      rw [valueOf_of_path hkind (hside (by simp only [sideKey?, hkind]) e he), htext, hown e he]
    | holdDuration unit other =>
      have hstore : p.store (some w) .empty lead = .ok (Properties.empty.put (lead ++ key) t) := by
        rw [store_hold hkind (offset?_of_get?_eq_none rfl) (moveBy_none _), hraw]
      rw [← hkind]
      refine restores_iff_of_found hstore (fun e he => ?_) v
      have hother : p.sideKey? = some other := by simp only [sideKey?, hkind]
      have hoffset : offset? unit other e.properties lead = .ok none :=
        offset?_of_get?_eq_none (hside hother e he)
      rw [valueOf_hold hkind e lead hoffset, hprop, Option.bind_some, hown e he, Option.map_none]
      cases p.parse (some t) with
      | error f => rfl
      | ok u => exact moveBy_none u
    | textList => exact absurd hkind hk
    | displayName => exact absurd hkind hp.named
    | _ => exact absurd (by rw [hkind]; rfl) hsingle

/-- A value that is no reference and not the default is read again only where its text is read back. -/
theorem readsBack_of_reread {p : Param} (hk : p.kind ≠ .textList) {v : Value}
    (hs : v.isDynamic = false) (hd : (formatValue p.kind v).isEmpty = true → p.default ≠ some v)
    (h : p.reread (some v) = .ok (some v)) : p.kind.ReadsBack v := by
  rw [reread, if_neg hk, stored_of_not_isDynamic p hs, parse] at h
  split_ifs at h with hempty hdyn
  · exact absurd (Except.ok.inj h) (hd hempty)
  · rw [← Option.some.inj (Except.ok.inj h)] at hs
    cases hs
  · split at h
    · next w hread =>
      cases h
      exact ⟨hs, by simpa using hempty, by simpa using hdyn, hread⟩
    · cases h

/-! ### Arguments and their places -/

theorem canHold_of_isDynamic {kind : ParamKind} {v : Value} (h : v.isDynamic = true) :
    kind.CanHold v := by
  cases v with
  | dynamic t => cases kind <;> trivial
  | _ => cases h

section

variable {p : Param} (hp : p.HasOwnPlace)

include hp

theorem restores_of_isDynamic (hk : p.kind ≠ .textList) {t : String} (ht : isDynamic t = true)
    (lead : String) : p.Restores (some (.dynamic t)) .empty lead (.dynamic t) := by
  rw [restores_iff_reread hp hk, reread, if_neg hk, stored, parse_of_isDynamic p ht]
  exact ⟨_, rfl, .same _⟩

section

variable {a : Expr} (ha : ∀ pos s, a = .text pos s → isDynamic s = false) {v : Value}
  (h : p.argValue a = .ok (some v))

include ha h

theorem static_of_argValue : v.isDynamic = false := by
  by_contra hd
  have hback := readsBack_iff_canHold hp.named hp.told ha h
  exact hd (hback.mpr (canHold_of_isDynamic (by simpa using hd))).static

/-- Only a text without content is stored as one, and that is no default. -/
theorem default_ne_of_isEmpty (hempty : (formatValue p.kind v).isEmpty = true) :
    p.default ≠ some v := by
  intro hdef
  have hback := readsBack_iff_canHold hp.named hp.told ha h
  have hhold : ¬ p.kind.CanHold v := fun hc => by
    rw [(hback.mpr hc).nonempty] at hempty
    cases hempty
  cases hk : p.kind with
  | duration unit | holdDuration unit key =>
    rw [hk] at hempty hhold
    cases v with
    | duration ms => exact absurd hempty (by rw [Bool.not_eq_true]; exact not_isEmpty_toString _)
    | _ => exact hhold trivial
  | text | url | classRef =>
    rw [hk] at hempty hhold
    cases v with
    | text s =>
      have hs : s = "" := String.isEmpty_iff.mp hempty
      exact hp.text (by rw [hdef, hs])
    | _ => exact hhold trivial
  | charset =>
    rw [hk] at hempty hhold hback
    cases v with
    | text s =>
      have hs : s = "" := String.isEmpty_iff.mp hempty
      exact hhold (by rw [hs]; rfl)
    | _ => exact hhold trivial
  | textArray =>
    unfold argValue at h
    rw [hk] at h
    cases h
  | _ =>
    rw [hk] at hhold
    exact hhold trivial

theorem restores_iff_of_argValue (lead : String) :
    p.Restores (some v) .empty lead v ↔ p.kind.CanHold v := by
  have hk : p.kind ≠ .textList := by
    intro hk
    unfold argValue at h
    rw [hk] at h
    cases h
  have hback := readsBack_iff_canHold hp.named hp.told ha h
  rw [restores_iff_reread hp hk, ← hback]
  constructor
  · rintro ⟨v', hread, hagree⟩
    cases hagree with
    | same =>
      exact readsBack_of_reread hk (static_of_argValue hp ha h)
        (default_ne_of_isEmpty hp ha h) hread
    | @charset s t c hcharset =>
      -- a name that looks like a reference is found as one
      refine hback.mpr ?_
      rw [hcharset, CanHold, Bool.eq_false_iff]
      intro hdyn
      have hstored : p.stored (some (.text s)) = some s := by
        rw [stored_of_not_isDynamic p rfl, hcharset]
        rfl
      rw [reread, if_neg hk, hstored, parse_of_isDynamic p hdyn] at hread
      cases hread
  · exact fun hr => ⟨v, reread_of_readsBack hk hr, .same v⟩

end

/-- What listed texts come to in one property. -/
theorem restores_textArray_iff (hk : p.kind = .textArray) (items : List String) (lead : String) :
    p.Restores (some (.texts items)) .empty lead (.texts items) ↔ p.kind.CanHold (.texts items) := by
  have hlist : p.kind ≠ .textList := by simp [hk]
  have hdef := hp.listed hk
  rw [restores_iff_reread hp hlist]
  by_cases hnil : items = []
  · subst hnil
    refine iff_of_true ⟨_, ?_, .same _⟩ (by rw [hk]; exact .inl rfl)
    rw [reread, if_neg hlist, stored_of_not_isDynamic p rfl, hk, ← hdef]
    rfl
  · have hback : p.kind.ReadsBack (.texts items) ↔ p.kind.CanHold (.texts items) := by
      rw [hk, readsBack_textArray_iff hnil]
      exact (or_iff_right hnil).symm
    rw [← hback]
    constructor
    · rintro ⟨v', hread, hagree⟩
      obtain rfl := hagree.eq (by simp [hk])
      refine readsBack_of_reread hlist rfl (fun _ hd => hnil ?_) hread
      rw [hdef] at hd
      exact (Value.texts.inj (Option.some.inj hd)).symm
    · exact fun hr => ⟨_, reread_of_readsBack hlist hr, .same _⟩

/-- What arguments say is found where it is stored just when the property can hold it. -/
theorem restores_iff_canHold {args : List Expr} {v : Value} (h : p.Takes args (some v))
    (lead : String) : p.Restores (some v) .empty lead v ↔ p.kind.CanHold v := by
  unfold Takes at h
  split_ifs at h with hvar
  · obtain ⟨items, hitems⟩ := (failsWithin_go p args []).2 _ h
    obtain rfl := Option.some.inj hitems
    rcases eq_of_isVariadic hvar with hk | hk
    · exact restores_textArray_iff hp hk items lead
    · exact iff_of_true (restores_of_items hk items lead) (by rw [hk]; trivial)
  · obtain ⟨a, rfl, ha⟩ := h
    have hk : p.kind ≠ .textList := by
      intro hk
      rw [hk] at hvar
      exact hvar rfl
    unfold fromArg at ha
    split at ha
    · next pos s =>
      split_ifs at ha with hd
      · cases ha
        exact iff_of_true (restores_of_isDynamic hp hk hd lead) (canHold_of_isDynamic rfl)
      · refine restores_iff_of_argValue hp (fun pos' s' he => ?_) ha lead
        cases he
        simpa using hd
    · next hne => exact restores_iff_of_argValue hp (fun pos s he => absurd he (hne pos s)) ha lead

end

end Param

namespace Registry

open ParamKind

theorem hasOwnPlace_standard {p : Param} (hp : p ∈ standard.params) (hn : p.kind ≠ .displayName)
    (hc : p.kind ≠ .children) : p.HasOwnPlace := by
  have hall : ∀ p ∈ standard.params, p.kind ≠ .displayName → p.kind ≠ .children →
      p.prop ≠ none ∧ p.sideKey? ≠ p.prop ∧ p.kind.isPlainEnum = true ∧
        p.default ≠ some (.text "") ∧ (p.kind = .textArray → p.default = some (.texts [])) := by
    decide +kernel
  obtain ⟨hprop, hside, htold, htext, hlisted⟩ := hall p hp hn hc
  exact ⟨hprop, hside, hn, htold, htext, hlisted⟩

/-- In the default registry, what arguments say of a parameter is found where it is stored, unless it
is a part of the unit that its property counts, a text without content, a text that its property shows
as a reference, or a list with commas in its items. -/
theorem restores_iff_canHold_standard {p : Param} (hp : p ∈ standard.params)
    (hn : p.kind ≠ .displayName) (hc : p.kind ≠ .children) {args : List Script.Expr} {v : Value}
    (h : p.Takes args (some v)) (lead : String) :
    p.Restores (some v) .empty lead v ↔ p.kind.CanHold v :=
  Param.restores_iff_canHold (hasOwnPlace_standard hp hn hc) h lead

/-- Two seconds of ramping up are held by a property that counts seconds. -/
theorem restores_canHold_rampTime :
    let p := (Param.seconds Catalog.Plan.rampTime).require
    let a : Script.Expr :=
      .call ⟨⟨1, 1⟩, "Duration.ofSeconds", [.number ⟨1, 20⟩ "2"]⟩ []
    (p ∈ standard.params ∧ p.kind ≠ .displayName ∧ p.kind ≠ .children ∧
      p.Takes [a] (some (.duration 2000))) ∧
      p.Restores (some (.duration 2000)) .empty "" (.duration 2000) := by
  intro p a
  have hp : p ∈ standard.params := by decide +kernel
  have ha : p.Takes [a] (some (.duration 2000)) :=
    ⟨a, rfl, Param.fromArg_duration (.inl rfl) (by decide) (by rfl)⟩
  refine ⟨⟨hp, nofun, nofun, ha⟩, ?_⟩
  exact (restores_iff_canHold_standard hp nofun nofun ha "").mpr
    (by decide : (1000 : Int) ∣ 2000)

/-- Arguments of the default registry that are lost: a second and a half where seconds are counted, an
item with a comma, a text without content, and a charset that looks like a reference. -/
theorem not_restores_of_accepted :
    let lost (p : Param) (args : List Script.Expr) (v : Value) : Prop :=
      p ∈ standard.params ∧ p.kind ≠ .displayName ∧ p.kind ≠ .children ∧
        p.Takes args (some v) ∧ ¬ p.Restores (some v) .empty "" v
    let text (s : String) : Script.Expr := .text ⟨1, 1⟩ s
    lost (Param.seconds Catalog.Plan.rampTime).require
        [.call ⟨⟨1, 1⟩, "Duration.ofMillis", [.number ⟨1, 19⟩ "1500"]⟩ []] (.duration 1500) ∧
      lost (.ofKind .textArray "variableNames") [text "a,b"] (.texts ["a,b"]) ∧
      lost (.textOr "scriptLanguage" "groovy") [text ""] (.text "") ∧
      lost (.ofKind .charset "fileEncoding")
        [.call ⟨⟨1, 1⟩, "Charset.forName", [text "$\x7butf\x7d-8"]⟩ []]
        (.text "$\x7butf\x7d-8") := by
  intro lost text
  have hlost {p : Param} {args : List Script.Expr} {v : Value} (hp : p ∈ standard.params)
      (hn : p.kind ≠ .displayName) (hc : p.kind ≠ .children) (h : p.Takes args (some v))
      (hno : ¬ p.kind.CanHold v) : lost p args v :=
    ⟨hp, hn, hc, h, fun hr =>
      hno ((Param.restores_iff_canHold (hasOwnPlace_standard hp hn hc) h "").mp hr)⟩
  have hcharset : (Param.ofKind .charset "fileEncoding").fromArg
      (.call ⟨⟨1, 1⟩, "Charset.forName", [text "$\x7butf\x7d-8"]⟩ []) =
        .ok (some (.text "$\x7butf\x7d-8")) := by
    have hread : readCharset "$\x7butf\x7d-8" = .ok (.text "$\x7butf\x7d-8") := by
      have hname : (Charset.ofName? "$\x7butf\x7d-8").isSome = true := by decide +kernel
      have htrim : Text.trim Text.isBlank "$\x7butf\x7d-8".toList = "$\x7butf\x7d-8".toList := by
        decide +kernel
      have h0 : "$\x7butf\x7d-8".toList.contains '\x00' = false := by decide +kernel
      simp only [readCharset, htrim, h0, String.ofList_toList, hname, Bool.false_eq_true, if_false,
        if_true]
    unfold Param.fromArg Param.argValue
    simp only [Param.ofKind, Param.charsetArg?, text, if_true, ParamKind.read, hread]
  have hduration : (Param.seconds Catalog.Plan.rampTime).require.fromArg
      (.call ⟨⟨1, 1⟩, "Duration.ofMillis", [.number ⟨1, 19⟩ "1500"]⟩ []) =
        .ok (some (.duration 1500)) :=
    Param.fromArg_duration (.inl rfl) (by decide) (by rfl)
  refine ⟨hlost (by decide +kernel) (by decide) (by decide) ⟨_, rfl, hduration⟩ ?_,
    hlost (by decide +kernel) (by decide) (by decide) rfl ?_,
    hlost (by decide +kernel) (by decide) (by decide)
      ⟨_, rfl, Param.fromArg_text (.inl rfl) (by decide) _⟩ ?_,
    hlost (by decide +kernel) (by decide) (by decide) ⟨_, rfl, hcharset⟩ ?_⟩
  · exact (by decide : ¬ (1000 : Int) ∣ 1500)
  · rintro (h | ⟨-, h, -⟩)
    · cases h
    · exact h "a,b" List.mem_cons_self (by decide)
  · exact fun h => h rfl
  · exact (by decide : ¬ isDynamic "$\x7butf\x7d-8" = false)

end Registry

end FluentPlan
