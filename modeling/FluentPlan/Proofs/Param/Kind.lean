import Mathlib.Tactic.Common
import FluentPlan.Proofs.Assembly.Outcome

/-!
Values are of the kind of their parameter: what is read from a property, and what stands in for a
missing one, is missing itself, refers to a variable, or is a value of the kind.
-/

namespace FluentPlan

namespace ParamKind

/-- Whether a value is one of a kind. -/
def fits (kind : ParamKind) (v : Value) : Bool :=
  match kind, v with
  | bool, .bool _ => true
  | int, .integer n => intMin ≤ n && n ≤ intMax
  | long, .integer n => longMin ≤ n && n ≤ longMax
  | double, .double x | float, .double x => x.isFinite
  | duration _, .duration ms | holdDuration _ _, .duration ms => Duration.inRange ms
  | textArray, .texts _ | textList, .texts _ => true
  | enum type _, .member m => type.members.any fun x => type.toMember x = m
  | charset, .text s => (Charset.ofName? s).isSome
  | plain, .text _ | text, .text _ | displayName, .text _ | classRef, .text _ | url, .text _
  | children, .text _ => true
  | _, _ => false

theorem fits_of_readInteger {low high : Int} {raw : String} {v : Value}
    (h : readInteger low high raw = .ok v) : ∃ n, v = .integer n ∧ low ≤ n ∧ n ≤ high := by
  unfold readInteger at h
  split at h
  · cases h
  · next n _ =>
    split at h
    · cases h
    · next hn =>
      cases h
      simp only [Bool.or_eq_true, decide_eq_true_eq, not_or] at hn
      exact ⟨n, rfl, by omega, by omega⟩

theorem fits_of_readDouble {raw : String} {v : Value} (h : readDouble raw = .ok v) :
    ∃ x, v = .double x ∧ x.isFinite = true := by
  unfold readDouble at h
  split at h
  · cases h
  · next x _ =>
    split at h
    · next hx =>
      cases h
      exact ⟨x, rfl, hx⟩
    · cases h

theorem fits_of_readDuration {unit : TimeUnit} {raw : String} {v : Value}
    (h : readDuration unit raw = .ok v) : ∃ ms, v = .duration ms ∧ Duration.inRange ms = true := by
  unfold readDuration at h
  split at h
  · cases h
  · next n _ =>
    unfold span at h
    split at h
    · next hr =>
      cases h
      exact ⟨_, rfl, hr⟩
    · cases h

theorem fits_of_readCharset {raw : String} {v : Value} (h : readCharset raw = .ok v) :
    ∃ s, v = .text s ∧ (Charset.ofName? s).isSome = true := by
  simp only [readCharset] at h
  split_ifs at h with h0 hs
  cases h
  exact ⟨_, rfl, hs⟩

theorem fits_of_ofRaw? {type : EnumType} {raw : String} {m : Member}
    (h : type.ofRaw? raw = some m) : type.members.any (fun x => type.toMember x = m) = true := by
  obtain ⟨x, hx, rfl⟩ := Option.map_eq_some_iff.mp h
  exact List.any_eq_true.mpr ⟨x, List.mem_of_find?_eq_some hx, by simp⟩

/-- What is read for a kind is a value of it. -/
theorem fits_of_read {kind : ParamKind} {raw : String} {v : Value} (h : kind.read raw = .ok v) :
    kind.fits v = true := by
  cases kind with
  | bool =>
    simp only [read] at h
    split_ifs at h <;> (cases h; rfl)
  | int | long =>
    obtain ⟨n, rfl, hl, hh⟩ := fits_of_readInteger h
    simp [fits, hl, hh]
  | double | float =>
    obtain ⟨x, rfl, hx⟩ := fits_of_readDouble h
    exact hx
  | duration unit =>
    obtain ⟨ms, rfl, hr⟩ := fits_of_readDuration h
    exact hr
  | holdDuration unit _ =>
    obtain ⟨ms, rfl, hr⟩ := fits_of_readDuration h
    exact hr
  | charset =>
    obtain ⟨s, rfl, hs⟩ := fits_of_readCharset h
    exact hs
  | enum type _ =>
    simp only [read] at h
    split at h
    · next m hm =>
      cases h
      exact fits_of_ofRaw? hm
    · cases h
  | textArray | textList | plain | text | displayName | classRef | url | children =>
    cases h
    rfl

end ParamKind

namespace Param

/-- What a parameter can hold: nothing, a text that refers to a variable, or a value of its kind. -/
def Holds (p : Param) : Option Value → Prop
  | none => True
  | some (.dynamic _) => True
  | some v => p.kind.fits v = true

/-- Whether the default of a parameter is a value of its kind. -/
def hasOwnDefault (p : Param) : Bool := p.default.all p.kind.fits

theorem holds_of_fits {p : Param} {v : Value} (h : p.kind.fits v = true) : p.Holds (some v) := by
  cases v <;> first | exact h | trivial

theorem holds_default {p : Param} (h : p.hasOwnDefault = true) : p.Holds p.default := by
  unfold hasOwnDefault at h
  cases hd : p.default with
  | none => trivial
  | some v => exact holds_of_fits (by simpa [hd] using h)

theorem holds_parse {p : Param} (hp : p.hasOwnDefault = true) {raw : Option String}
    {v : Option Value} (h : p.parse raw = .ok v) : p.Holds v := by
  unfold parse at h
  split at h
  · cases h
    exact holds_default hp
  · split_ifs at h
    · cases h
      exact holds_default hp
    · cases h
      trivial
    · split at h
      · next hr =>
        cases h
        exact holds_of_fits (ParamKind.fits_of_read hr)
      · cases h

theorem holds_moveBy {p : Param} {unit : TimeUnit} {key : String}
    (hk : p.kind = .holdDuration unit key) {v w : Option Value} {d : Option Int} (hv : p.Holds v)
    (h : moveBy v d = .ok w) : p.Holds w := by
  unfold moveBy at h
  split at h
  · split_ifs at h with hr
    cases h
    exact holds_of_fits (by simpa [hk, ParamKind.fits] using hr)
  · cases h
    exact hv

/-- The value of a parameter in an element is one that the parameter can hold. -/
theorem holds_valueOf {p : Param} (hp : p.hasOwnDefault = true) {e : Element} {lead : String}
    {v : Option Value} (h : p.valueOf e lead = .ok v) : p.Holds v := by
  unfold valueOf at h
  split at h
  · next hk =>
    obtain ⟨entries, -, h⟩ := exists_of_bind_eq_ok h
    cases h
    exact holds_of_fits (by simp [hk, ParamKind.fits])
  · next unit key hk =>
    obtain ⟨w, hw, h⟩ := exists_of_bind_eq_ok h
    obtain ⟨d, -, h⟩ := exists_of_bind_eq_ok h
    exact holds_moveBy hk (holds_parse hp hw) h
  · exact holds_parse hp h

end Param

end FluentPlan
