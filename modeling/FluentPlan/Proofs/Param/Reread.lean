import Mathlib.Data.List.Forall2
import Mathlib.Tactic.Common
import FluentPlan.Proofs.Code.Argument
import FluentPlan.Proofs.Param.Kind
import FluentPlan.Proofs.Param.Raw

/-!
Values that go through code and back. The value that an argument gives is stored in a property and
read from it again; what is read has the text that the argument had.
-/

namespace FluentPlan

open Script Number Text

/-! ### Expressions of a known form -/

namespace Script.Expr

theorem eq_text_of_unplaced {a : Expr} {s : String} (h : a.unplaced = .text .start s) :
    ∃ pos, a = .text pos s := by
  cases a <;> simp only [unplaced, reduceCtorEq, text.injEq, true_and] at h
  exact ⟨_, by rw [h]⟩

theorem eq_number_of_unplaced {a : Expr} {t : String} (h : a.unplaced = .number .start t) :
    ∃ pos, a = .number pos t := by
  cases a <;> simp only [unplaced, reduceCtorEq, number.injEq, true_and] at h
  exact ⟨_, by rw [h]⟩

theorem eq_bool_of_unplaced {a : Expr} {b : Bool} (h : a.unplaced = .bool .start b) :
    ∃ pos, a = .bool pos b := by
  cases a <;> simp only [unplaced, reduceCtorEq, bool.injEq, true_and] at h
  exact ⟨_, by rw [h]⟩

theorem eq_null_of_unplaced {a : Expr} (h : a.unplaced = .null .start) : ∃ pos, a = .null pos := by
  cases a <;> cases h
  exact ⟨_, rfl⟩

theorem eq_name_of_unplaced {a : Expr} {n : String} (h : a.unplaced = .name .start n) :
    ∃ pos, a = .name pos n := by
  cases a <;> simp only [unplaced, reduceCtorEq, name.injEq, true_and] at h
  exact ⟨_, by rw [h]⟩

theorem eq_call_of_unplaced {a : Expr} {n : String} {es : List Expr}
    (h : a.unplaced = .call ⟨.start, n, es⟩ []) :
    ∃ pos as, a = .call ⟨pos, n, as⟩ [] ∧ unplacedAll as = es := by
  cases a with
  | call head chain =>
    obtain ⟨pos, name, as⟩ := head
    simp only [unplaced, call.injEq, Invocation.mk.injEq, true_and] at h
    obtain ⟨⟨rfl, has⟩, hc⟩ := h
    cases chain with
    | nil => exact ⟨pos, as, rfl, has⟩
    | cons c cs =>
      obtain ⟨pos', name', as'⟩ := c
      simp [unplacedChain] at hc
  | _ => simp [unplaced] at h

theorem unplacedAll_eq_map (es : List Expr) : unplacedAll es = es.map unplaced := by
  induction es with
  | nil => rfl
  | cons e es ih => rw [unplacedAll, ih, List.map_cons]

end Script.Expr

namespace Param

/-! ### Stored values -/

/-- The property text of a value, where it has one property. -/
def stored (p : Param) : Option Value → Option String
  | none => none
  | some (.dynamic t) => some t
  | some v => some (formatValue p.kind v)

/-- The items that are stored one by one. -/
def itemsOf : Option Value → List String
  | some (.texts items) => items
  | _ => []

/-- The value that is read where a value was stored. -/
def reread (p : Param) (v : Option Value) : Except Failure (Option Value) :=
  if p.kind = .textList then .ok (some (.texts (itemsOf v))) else p.parse (p.stored v)

theorem parse_of_isDynamic (p : Param) {raw : String} (h : isDynamic raw = true) :
    p.parse (some raw) = .ok (some (.dynamic raw)) := by
  simp [parse, ne_empty_of_isDynamic h, h]

theorem parse_of_read {p : Param} {raw : String} {v : Value} (he : raw.isEmpty = false)
    (hd : isDynamic raw = false) (h : p.kind.read raw = .ok v) :
    p.parse (some raw) = .ok (some v) := by
  simp [parse, he, hd, h]

theorem reread_of_read {p : Param} (hk : p.kind ≠ .textList) {v w : Value} {raw : String}
    (hs : p.stored (some v) = some raw) (he : raw.isEmpty = false) (hd : isDynamic raw = false)
    (h : p.kind.read raw = .ok w) : p.reread (some v) = .ok (some w) := by
  rw [reread, if_neg hk, hs, parse_of_read he hd h]

/-- A reference to a variable comes back as it is, whatever the parameter. -/
theorem reread_of_dynamic {p : Param} (hk : p.kind ≠ .textList) {t : String}
    (ht : isDynamic t = true) {a : Expr} (ha : a.unplaced = .text .start t) {b : Option Value}
    (hb : p.fromArg a = .ok b) : p.reread b = .ok (some (.dynamic t)) := by
  obtain ⟨pos, rfl⟩ := Expr.eq_text_of_unplaced ha
  simp only [fromArg, ht, if_true] at hb
  cases hb
  rw [reread, if_neg hk, stored, parse_of_isDynamic p ht]

/-! ### Values that are found in elements -/

/-- A value as elements hold it: a reference, or something that was read. -/
inductive Found (p : Param) : Option Value → Prop
  | dynamic {t : String} (h : isDynamic t = true) : Found p (some (.dynamic t))
  | read {raw : String} {v : Value} (he : raw.isEmpty = false) (hd : isDynamic raw = false)
      (h : p.kind.read raw = .ok v) : Found p (some v)

/-- Whether the default of a parameter is read from the text that stores it. -/
def readsDefault (p : Param) : Bool :=
  match p.default with
  | Option.none => true
  | some v =>
    let raw := formatValue p.kind v
    !raw.isEmpty && !isDynamic raw && !v.isDynamic &&
      match p.kind.read raw with
      | .ok w => w = v
      | .error _ => false

theorem found_default {p : Param} (h : p.readsDefault = true) (hne : p.default ≠ none) :
    p.Found p.default := by
  unfold readsDefault at h
  cases hd : p.default with
  | none => exact absurd hd hne
  | some v =>
    rw [hd] at h
    simp only [Bool.and_eq_true, Bool.not_eq_true'] at h
    obtain ⟨⟨⟨he, hdyn⟩, -⟩, hr⟩ := h
    cases hread : p.kind.read (formatValue p.kind v) with
    | error m => simp [hread] at hr
    | ok w =>
      obtain rfl : w = v := by simpa [hread] using hr
      exact .read he hdyn hread

theorem found_parse {p : Param} {raw : Option String} {v : Option Value}
    (h : p.parse raw = .ok v) : v = p.default ∨ p.Found v := by
  unfold parse at h
  split at h
  · cases h
    exact .inl rfl
  · next r =>
    split_ifs at h with he hd
    · cases h
      exact .inl rfl
    · cases h
      exact .inr (.dynamic hd)
    · split at h
      · next w hr =>
        cases h
        exact .inr (.read (by simpa using he) (by simpa using hd) hr)
      · cases h

end Param

/-! ### Values that are read from their own text -/

/-- Whether the members of an enumeration are told apart by their names and by their raw texts. -/
def EnumType.isTold (t : EnumType) : Bool :=
  t.members.all fun m =>
    t.ofName? m.1 = some (t.toMember m) && t.ofRaw? m.2 = some (t.toMember m)

namespace ParamKind

/-- Whether values of a kind are stored in one property, from which they are read by themselves. -/
def isEchoed : ParamKind → Bool
  | bool | int | double | text | displayName | duration _ | textArray | charset | classRef
  | url => true
  | enum type _ => type.isTold
  | _ => false

/-- What is read for a kind, and the text that stores it. -/
structure ReadsBack (kind : ParamKind) (v : Value) : Prop where
  static : v.isDynamic = false
  nonempty : (Param.formatValue kind v).isEmpty = false
  plain : isDynamic (Param.formatValue kind v) = false
  read : kind.read (Param.formatValue kind v) = .ok v

theorem readsBack_of_eq {kind : ParamKind} {raw : String} {v : Value} (he : raw.isEmpty = false)
    (hd : isDynamic raw = false) (h : kind.read raw = .ok v) (hv : v.isDynamic = false)
    (hf : Param.formatValue kind v = raw) : kind.ReadsBack v :=
  ⟨hv, by rw [hf, he], by rw [hf, hd], by rw [hf, h]⟩

theorem readInteger_toString {low high n : Int} (hl : low ≤ n) (hh : n ≤ high) :
    readInteger low high (toString n) = .ok (.integer n) := by
  have hr : ¬ (n < low ∨ high < n) := by omega
  rw [readInteger, integerOfText?_toString]
  simp only [Bool.or_eq_true, decide_eq_true_eq, hr, if_false]

theorem readsBack_int {n : Int} (hl : intMin ≤ n) (hh : n ≤ intMax) :
    int.ReadsBack (.integer n) :=
  ⟨rfl, not_isEmpty_toString n, not_isDynamic_toString n, readInteger_toString hl hh⟩

theorem readsBack_long {n : Int} (hl : longMin ≤ n) (hh : n ≤ longMax) :
    long.ReadsBack (.integer n) :=
  ⟨rfl, not_isEmpty_toString n, not_isDynamic_toString n, readInteger_toString hl hh⟩

theorem readsBack_duration {unit : TimeUnit} {raw : String} {v : Value}
    (h : readDuration unit raw = .ok v) : (duration unit).ReadsBack v := by
  unfold readDuration at h
  split at h
  · cases h
  · next n _ =>
    unfold span at h
    split_ifs at h with hr
    cases h
    have hn : n * unit.millis / unit.millis = n :=
      Int.mul_ediv_cancel n (by cases unit <;> decide)
    have hf : Param.formatValue (duration unit) (.duration (n * unit.millis)) = toString n := by
      simp only [Param.formatValue, hn]
    refine ⟨rfl, ?_, ?_, ?_⟩
    · rw [hf, not_isEmpty_toString]
    · rw [hf, not_isDynamic_toString]
    · rw [hf]
      simp only [read, readDuration, integerOfText?_toString, span, hr, if_true]

theorem readsBack_double {x : Number.Double} (hx : x.isFinite = true)
    (ht : Number.Double.ofText? x.text = some x) : double.ReadsBack (.double x) := by
  refine ⟨rfl, ?_, ?_, ?_⟩
  · change x.text.isEmpty = false
    rw [Bool.eq_false_iff]
    intro he
    rw [String.isEmpty_iff.mp he] at ht
    cases ht
  · refine isDynamic_of_forall fun c hc => ?_
    rcases mem_text_double hx hc with hc | hc
    · rintro rfl
      exact absurd hc (by decide)
    · rintro rfl
      exact absurd hc (by decide)
  · change readDouble x.text = _
    simp only [readDouble, ht, hx, if_true]

theorem ofText?_of_readDouble {raw : String} {x : Number.Double}
    (h : readDouble raw = .ok (.double x)) : Number.Double.ofText? raw = some x := by
  unfold readDouble at h
  split at h
  · cases h
  · next y hy =>
    split_ifs at h
    cases h
    exact hy

theorem readsBack_charset {raw : String} (hd : isDynamic raw = false) {v : Value}
    (h : readCharset raw = .ok v) : charset.ReadsBack v := by
  simp only [readCharset] at h
  split_ifs at h with h0 hs
  cases h
  refine ⟨rfl, ?_, ?_, ?_⟩
  · change (String.ofList (trim isBlank raw.toList)).isEmpty = false
    rw [Bool.eq_false_iff]
    intro he
    rw [String.isEmpty_iff.mp he] at hs
    exact absurd hs (by decide)
  · change isDynamic (String.ofList (trim isBlank raw.toList)) = false
    rw [Bool.eq_false_iff] at hd ⊢
    intro ht
    refine hd (isDynamicText_of_isInfix (trim_isInfix isBlank raw.toList) ?_)
    simpa [isDynamic] using ht
  · change readCharset (String.ofList (trim isBlank raw.toList)) = _
    simp only [readCharset, String.toList_ofList, trim_trim, hs, if_true]
    rw [if_neg h0]

theorem toList_intercalate_ofList (sep : String) (xs : List (List Char)) :
    (String.intercalate sep (xs.map String.ofList)).toList = joinWith sep.toList xs := by
  induction xs with
  | nil => simp [joinWith]
  | cons x xs ih =>
    cases xs with
    | nil => simp [joinWith]
    | cons y ys =>
      rw [String.toList_intercalate] at ih ⊢
      simp only [List.map_cons, joinWith, String.toList_ofList] at ih ⊢
      rw [← ih]
      simp [List.intercalate]

theorem intercalate_commaParts (raw : String) : String.intercalate "," (commaParts raw) = raw := by
  apply String.toList_injective
  rw [commaParts, toList_intercalate_ofList]
  exact joinWith_splitAt ',' raw.toList

/-- A value that was read for a kind is read again from the text that stores it. -/
theorem readsBack_of_read {kind : ParamKind} {raw : String} {v : Value}
    (he : raw.isEmpty = false) (hd : isDynamic raw = false) (h : kind.read raw = .ok v)
    (hx : ∀ x, v = .double x → Number.Double.ofText? x.text = some x) : kind.ReadsBack v := by
  cases kind with
  | bool =>
    simp only [read] at h
    split_ifs at h with ht hf
    · cases h
      exact readsBack_of_eq he hd (by simp [read, ht]) rfl (by rw [ht]; rfl)
    · cases h
      exact readsBack_of_eq he hd (by simp [read, hf]) rfl (by rw [hf]; rfl)
  | int =>
    obtain ⟨n, rfl, hl, hh⟩ := fits_of_readInteger h
    exact readsBack_int hl hh
  | long =>
    obtain ⟨n, rfl, hl, hh⟩ := fits_of_readInteger h
    exact readsBack_long hl hh
  | double | float =>
    obtain ⟨x, rfl, hfin⟩ := fits_of_readDouble h
    obtain ⟨hs, hne, hp, hr⟩ := readsBack_double hfin (hx x rfl)
    exact ⟨hs, hne, hp, hr⟩
  | duration unit => exact readsBack_duration h
  | holdDuration unit offset =>
    obtain ⟨ms, rfl, -⟩ := fits_of_readDuration h
    obtain ⟨hs, hne, hp, hr⟩ := readsBack_duration h
    exact ⟨hs, hne, hp, hr⟩
  | charset => exact readsBack_charset hd h
  | enum type javaClass =>
    have hread : (enum type javaClass).read raw = .ok v := h
    simp only [read] at h
    split at h
    · next m hm =>
      cases h
      obtain ⟨y, hy, rfl⟩ := Option.map_eq_some_iff.mp hm
      have hraw : y.2 = raw := by simpa using List.find?_some hy
      exact readsBack_of_eq he hd hread rfl hraw
    · cases h
  | textArray =>
    have hread : textArray.read raw = .ok v := h
    cases h
    exact readsBack_of_eq he hd hread rfl (intercalate_commaParts raw)
  | textList =>
    have hread : textList.read raw = .ok v := h
    cases h
    exact readsBack_of_eq he hd hread rfl (intercalate_commaParts raw)
  | plain | text | displayName | classRef | url | children =>
    cases h
    exact readsBack_of_eq he hd rfl rfl rfl

end ParamKind

namespace Param

theorem stored_of_not_isDynamic (p : Param) {v : Value} (h : v.isDynamic = false) :
    p.stored (some v) = some (formatValue p.kind v) := by
  cases v <;> first | rfl | cases h

theorem reread_of_readsBack {p : Param} (hk : p.kind ≠ .textList) {v : Value}
    (h : p.kind.ReadsBack v) : p.reread (some v) = .ok (some v) :=
  reread_of_read hk (stored_of_not_isDynamic p h.static) h.nonempty h.plain h.read

end Param

end FluentPlan
