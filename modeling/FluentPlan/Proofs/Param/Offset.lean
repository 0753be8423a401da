import FluentPlan.Proofs.Param.Echo

/-!
Durations that are stored together with an offset. Properties count whole units; a duration of whole
units that was moved by an offset, stored and read again is the same once it is moved back.
-/

namespace FluentPlan

open Script Number Text

/-! ### Texts that are no numbers -/

theorem mem_dropWhile {p : Char → Bool} {c : Char} (hp : p c = false) {cs : List Char}
    (h : c ∈ cs) : c ∈ cs.dropWhile p := by
  rw [← List.takeWhile_append_dropWhile (p := p) (l := cs)] at h
  rcases List.mem_append.mp h with h | h
  · rw [List.mem_takeWhile_imp h] at hp
    cases hp
  · exact h

theorem mem_trim {p : Char → Bool} {c : Char} (hp : p c = false) {cs : List Char} (h : c ∈ cs) :
    c ∈ trim p cs :=
  List.mem_reverse.mpr (mem_dropWhile hp (List.mem_reverse.mpr (mem_dropWhile hp h)))

theorem isSome_decimalValue?_of_mem {acc n : Nat} {cs : List Char}
    (h : digitsValue? acc cs = some n) {c : Char} (hc : c ∈ cs) : (decimalValue? c).isSome = true := by
  induction cs generalizing acc with
  | nil => cases hc
  | cons d cs ih =>
    rw [digitsValue?] at h
    obtain ⟨v, hv, h⟩ := Option.bind_eq_some_iff.mp h
    rcases List.mem_cons.mp hc with rfl | hc
    · rw [hv]
      rfl
    · exact ih h hc

/-- A reference to a variable is no whole number. -/
theorem integerOfText?_of_isDynamic {s : String} (h : isDynamic s = true) :
    integerOfText? s = none := by
  have hdollar : '$' ∈ trim isBlank s.toList :=
    mem_trim (by decide) (dollar_mem_of_isDynamicText h)
  have hno {cs : List Char} (hc : '$' ∈ cs) : readNatural? cs = none := by
    rw [Option.eq_none_iff_forall_ne_some]
    intro n hn
    unfold readNatural? at hn
    split_ifs at hn
    exact absurd (isSome_decimalValue?_of_mem hn hc) (by decide)
  rw [integerOfText?]
  generalize trim isBlank s.toList = cs at hdollar
  unfold readInteger?
  split
  · rw [hno ((List.mem_cons.mp hdollar).resolve_left (by decide))]
    rfl
  · rw [hno ((List.mem_cons.mp hdollar).resolve_left (by decide))]
    rfl
  · rw [hno hdollar]
    rfl

namespace Param

/-! ### Whole units -/

/-- A reference to a variable, or a duration of so many whole units. -/
inductive Counted (unit : TimeUnit) : Option Value → Prop
  | dynamic {t : String} (h : isDynamic t = true) : Counted unit (some (.dynamic t))
  | units (n : Int) (h : Duration.inRange (n * unit.millis) = true) :
      Counted unit (some (.duration (n * unit.millis)))

/-- Whether a parameter takes durations that are counted in a unit. -/
def Counts (p : Param) (unit : TimeUnit) : Prop :=
  p.kind = .duration unit ∨ ∃ key, p.kind = .holdDuration unit key

/-- Whether a parameter takes durations that are counted in a unit, and none by default. -/
def IsTimed (p : Param) (unit : TimeUnit) : Prop :=
  (p.kind = .duration unit ∨ ∃ key, p.kind = .holdDuration unit key) ∧
    p.default = some (.duration 0)

theorem counted_default (unit : TimeUnit) : Counted unit (some (.duration 0)) := by
  rw [← Int.zero_mul unit.millis]
  exact .units 0 (by rw [Int.zero_mul]; decide)

theorem Counts.read {p : Param} {unit : TimeUnit} (h : p.Counts unit) (raw : String) :
    p.kind.read raw = ParamKind.readDuration unit raw := by
  rcases h with hk | ⟨key, hk⟩ <;> rw [hk] <;> rfl

theorem Counts.stored {p : Param} {unit : TimeUnit} (h : p.Counts unit) (n : Int) :
    p.stored (some (.duration (n * unit.millis))) = some (toString n) := by
  have hpos : unit.millis ≠ 0 := by cases unit <;> decide
  have hformat : formatValue p.kind (.duration (n * unit.millis)) = toString n := by
    rcases h with hk | ⟨key, hk⟩ <;> rw [hk] <;>
      simp only [formatValue, Int.mul_ediv_cancel n hpos]
  exact congrArg some hformat

/-- A value that is found where durations are counted is counted. -/
theorem Found.counted {p : Param} {unit : TimeUnit} (hp : p.Counts unit) {v : Option Value}
    (h : p.Found v) : Counted unit v := by
  cases h with
  | dynamic ht => exact .dynamic ht
  | @read raw v he hd h =>
    rw [hp.read, ParamKind.readDuration] at h
    cases hn : integerOfText? raw with
    | none =>
      rw [hn] at h
      cases h
    | some n =>
      simp only [hn, ParamKind.span] at h
      split_ifs at h with hr
      cases h
      exact .units n hr

theorem counted_parse {p : Param} {unit : TimeUnit} (hp : p.IsTimed unit) {raw : Option String}
    {v : Option Value} (h : p.parse raw = .ok v) : Counted unit v := by
  rcases found_parse h with rfl | hfound
  · exact hp.2 ▸ counted_default unit
  · exact hfound.counted hp.1

/-- What a counted value says is bound as the same value. -/
theorem Counted.fromArg {unit : TimeUnit} {v : Option Value} (hv : Counted unit v) {p : Param}
    (hp : p.Counts unit) {a : Expr} (ha : p.exprs v = [a.unplaced]) : p.fromArg a = .ok v := by
  cases hv with
  | @dynamic t ht =>
    obtain ⟨pos, rfl⟩ := Expr.eq_text_of_unplaced (List.singleton_inj.mp ha).symm
    simp only [Param.fromArg, ht, if_true]
  | units n h =>
    have hexpr : a.unplaced = durationExpr (n * unit.millis) := by
      obtain ⟨kind, prop, default, required, mandatory⟩ := p
      rcases hp with hk | ⟨key, hk⟩ <;> obtain rfl : kind = _ := hk <;>
        exact (List.singleton_inj.mp ha).symm
    exact fromArg_duration hp h hexpr

/-- A counted value is read where it was stored. -/
theorem Counted.parse_stored {unit : TimeUnit} {v : Option Value} (hv : Counted unit v) {p : Param}
    (hp : p.Counts unit) : p.parse (p.stored v) = .ok v := by
  cases hv with
  | dynamic ht => exact parse_of_isDynamic p ht
  | units n h =>
    rw [hp.stored]
    refine parse_of_read (not_isEmpty_toString n) (not_isDynamic_toString n) ?_
    rw [hp.read, ParamKind.readDuration, integerOfText?_toString]
    simp only [ParamKind.span, h, if_true]

/-! ### Offsets -/

/-- The offset that a counted value gives. -/
def offsetOf : Option Value → Option Int
  | some (.duration ms) => some ms
  | _ => none

theorem offset?_of_stored {unit : TimeUnit} {v : Option Value} (hv : Counted unit v) {p : Param}
    (hp : p.Counts unit) {props : Properties} {key lead : String}
    (h : props.get? (lead ++ key) = p.stored v) :
    offset? unit key props lead = .ok (offsetOf v) := by
  unfold offset?
  rw [h]
  cases hv with
  | @dynamic t ht =>
    have hnone := integerOfText?_of_isDynamic ht
    simp only [stored, Option.getD_some, hnone, offsetOf]
  | units n hr =>
    rw [hp.stored]
    simp only [Option.getD_some, integerOfText?_toString, hr, if_true, offsetOf]

theorem exists_of_offset? {unit : TimeUnit} {key lead : String} {props : Properties} {d : Option Int}
    (h : offset? unit key props lead = .ok d) : ∀ ms, d = some ms → ∃ n, ms = n * unit.millis := by
  unfold offset? at h
  simp only at h
  split at h
  · cases h
    nofun
  · next n _ =>
    split_ifs at h
    cases h
    intro ms hms
    cases hms
    exact ⟨n, rfl⟩

theorem Counted.moveBy {unit : TimeUnit} {v w : Option Value} (hv : Counted unit v) {d : Option Int}
    (hd : ∀ ms, d = some ms → ∃ n, ms = n * unit.millis) (h : Param.moveBy v d = .ok w) :
    Counted unit w := by
  cases hv with
  | dynamic ht =>
    cases h
    exact .dynamic ht
  | units n hr =>
    cases d with
    | none =>
      cases h
      exact .units n hr
    | some ms =>
      obtain ⟨m, rfl⟩ := hd ms rfl
      simp only [Param.moveBy, ← Int.add_mul] at h
      split_ifs at h with hin
      cases h
      exact .units (n + m) hin

/-- Moving by an offset and back again changes nothing. -/
theorem Counted.moveBy_neg {unit : TimeUnit} {v w : Option Value} (hv : Counted unit v)
    {d : Option Int} (h : Param.moveBy v d = .ok w) : Param.moveBy w (d.map fun x => -x) = .ok v := by
  cases hv with
  | dynamic ht =>
    cases h
    rfl
  | units n hr =>
    cases d with
    | none =>
      cases h
      rfl
    | some ms =>
      simp only [Param.moveBy] at h
      split_ifs at h
      cases h
      have hback : n * unit.millis + ms + -ms = n * unit.millis := by omega
      simp only [Option.map_some, Param.moveBy, hback, hr, if_true]

theorem offsetOf_counted {unit : TimeUnit} {v : Option Value} (hv : Counted unit v) :
    ∀ ms, offsetOf v = some ms → ∃ n, ms = n * unit.millis := by
  cases hv with
  | dynamic _ => nofun
  | units n _ =>
    intro ms h
    cases h
    exact ⟨n, rfl⟩

end Param

end FluentPlan
