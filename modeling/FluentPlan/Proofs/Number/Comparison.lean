import FluentPlan.Proofs.Hoisting.Key
import FluentPlan.Proofs.Number.Rounding
import FluentPlan.Proofs.Param.Kind

/-!
Numbers compared by their value. A number in the format has one significand and one exponent for its
value, so two of them that count as the same are the same, but for zero, which has two signs.
-/

namespace FluentPlan

namespace Number.Double

/-- The zeros. -/
def signedZero (negative : Bool) : Double := .finite negative 0 minExponent

/-- The sign of a zero. -/
def zeroSign? : Double → Option Bool
  | .finite negative 0 _ => some negative
  | _ => none

theorem toList_text_signedZero (negative : Bool) :
    (signedZero negative).text.toList = (if negative then ['-'] else []) ++ ['0', '.', '0'] := by
  cases negative <;> decide

/-- Stripping factors of two leaves the value as it is. -/
theorem value_reduce (fuel m : Nat) (e : Int) :
    ((reduce fuel m e).1 : ℚ) * 2 ^ (reduce fuel m e).2 = m * 2 ^ e := by
  induction fuel generalizing m e with
  | zero => rfl
  | succ fuel ih =>
    unfold reduce
    split_ifs with hzero heven
    · simp [hzero]
    · have hm : (m : ℚ) = (m / 2 : Nat) * 2 := by
        exact_mod_cast (Nat.div_mul_cancel (Nat.dvd_of_mod_eq_zero heven)).symm
      rw [ih, hm, zpow_add_one₀ (by norm_num)]
      ring
    · rfl

/-- A larger exponent would need a significand that is not in the format. -/
theorem Fits.exponent_le {m n : Nat} {e f : Int} (hm : Fits m e) (hn : Fits n f)
    (h : (m : ℚ) * 2 ^ e = n * 2 ^ f) : f ≤ e := by
  by_contra hlt
  have hnormal : 2 ^ 52 ≤ n := hn.normal.resolve_right fun hf => hlt (hf ▸ hm.low)
  obtain ⟨d, hd⟩ : ∃ d : Nat, f = e + 1 + d := ⟨(f - e - 1).toNat, by omega⟩
  have hpos : (0 : ℚ) < 2 ^ e := by positivity
  have hmn : m = n * 2 * 2 ^ d := by
    rw [hd, zpow_add₀ (by norm_num), zpow_add_one₀ (by norm_num), zpow_natCast] at h
    have : (m : ℚ) = n * 2 * 2 ^ d := mul_right_cancel₀ hpos.ne' (by rw [h]; ring)
    exact_mod_cast this
  have hbits := hm.bits
  have hone : 1 ≤ 2 ^ d := Nat.one_le_two_pow
  have hle : n * 2 ≤ n * 2 * 2 ^ d := Nat.le_mul_of_pos_right _ hone
  omega

/-- In the format a value has one significand and one exponent. -/
theorem Fits.unique {m n : Nat} {e f : Int} (hm : Fits m e) (hn : Fits n f)
    (h : (m : ℚ) * 2 ^ e = n * 2 ^ f) : m = n ∧ e = f := by
  obtain rfl : e = f := le_antisymm (hn.exponent_le hm h.symm) (hm.exponent_le hn h)
  have hpos : (0 : ℚ) < 2 ^ e := by positivity
  exact ⟨by exact_mod_cast mul_right_cancel₀ hpos.ne' h, rfl⟩

end Number.Double

open Number Double

namespace Value

/-- Factors with signs are equal if both are zero, or if the signs are equal too. -/
theorem eq_of_signed_eq {a b : Nat} {n k : Prop} [Decidable n] [Decidable k]
    (h : (if n then -Int.ofNat a else Int.ofNat a) = if k then -Int.ofNat b else Int.ofNat b) :
    a = b ∧ (a = 0 ∨ (n ↔ k)) := by
  split_ifs at h with hn hk hk <;> simp only [Int.ofNat_eq_natCast] at h
  · exact ⟨by omega, .inr (iff_of_true hn hk)⟩
  · exact ⟨by omega, .inl (by omega)⟩
  · exact ⟨by omega, .inl (by omega)⟩
  · exact ⟨by omega, .inr (iff_of_false hn hk)⟩

theorem integer_eq_of_number?_eq {n k : Int} (h : (integer n).number? = (integer k).number?) :
    n = k := by
  simp only [number?, Option.some.injEq, Prod.mk.injEq] at h
  obtain ⟨hfactor, hexponent⟩ := h
  have hn := value_reduce (n.natAbs.log2 + 1) n.natAbs 0
  have hk := value_reduce (k.natAbs.log2 + 1) k.natAbs 0
  obtain ⟨ha, hsign⟩ := eq_of_signed_eq hfactor
  rw [zpow_zero, mul_one] at hn hk
  rw [ha, hexponent, hk, Nat.cast_inj] at hn
  rcases hsign with hzero | hsign
  · rw [← ha, hzero, Nat.cast_zero, zero_mul, eq_comm, Nat.cast_eq_zero] at hk
    omega
  · omega

/-- Numbers in the format that count as the same are the same, or the two zeros. -/
theorem double_eq_of_number?_eq {x y : Double} (hx : x.IsProper) (hy : y.IsProper)
    (fx : x.isFinite = true) (fy : y.isFinite = true)
    (h : (double x).number? = (double y).number?) :
    x = y ∨ ∃ negative, x = signedZero negative ∧ y = signedZero !negative := by
  cases x with
  | infinite _ | nan => cases fx
  | finite negative m e =>
    cases y with
    | infinite _ | nan => cases fy
    | finite negative' n f =>
      simp only [number?, Option.some.injEq, Prod.mk.injEq] at h
      obtain ⟨hfactor, hexponent⟩ := h
      obtain ⟨ha, hsign⟩ := eq_of_signed_eq hfactor
      have hm := value_reduce 64 m e
      rw [ha, hexponent, value_reduce 64 n f] at hm
      obtain ⟨rfl, rfl⟩ := Fits.unique hx hy hm.symm
      by_cases hneg : negative = negative'
      · exact .inl (by rw [hneg])
      · have hzero : (reduce 64 m e).1 = 0 :=
          hsign.resolve_right fun hiff => hneg (Bool.eq_iff_iff.mpr hiff)
        have hm := value_reduce 64 m e
        rw [hzero, Nat.cast_zero, zero_mul, eq_comm, mul_eq_zero,
          or_iff_left (zpow_ne_zero e (by norm_num)), Nat.cast_eq_zero] at hm
        subst hm
        have he : e = minExponent := hx.normal.resolve_left (by decide)
        refine .inr ⟨negative, by rw [he]; rfl, ?_⟩
        rw [he, signedZero]
        congr
        cases negative <;> cases negative' <;> first | rfl | exact absurd rfl hneg

/-- Whether a number that a value holds is in the format. -/
def IsProper : Value → Prop
  | double x => x.IsProper
  | _ => True

/-- Values of one kind that count as the same are the same, or the two zeros. -/
theorem eq_of_key_eq {kind : ParamKind} {v w : Value} (hv : kind.fits v = true)
    (hw : kind.fits w = true) (hpv : v.IsProper) (hpw : w.IsProper) (h : v.key = w.key) :
    v = w ∨ ((kind = .double ∨ kind = .float) ∧
      ∃ negative, v = double (signedZero negative) ∧ w = double (signedZero !negative)) := by
  rcases number?_eq_of_key_eq h with rfl | ⟨hsome, hn⟩
  · exact .inl rfl
  · cases kind with
    | bool =>
      cases v with
      | bool a =>
        cases w with
        | bool b =>
          cases a <;> cases b <;> first | exact .inl rfl | cases hn
        | _ => cases hw
      | _ => cases hv
    | int | long =>
      cases v with
      | integer n =>
        cases w with
        | integer k => exact .inl (congrArg integer (integer_eq_of_number?_eq hn))
        | _ => cases hw
      | _ => cases hv
    | double | float =>
      cases v with
      | double x =>
        cases w with
        | double y =>
          rcases double_eq_of_number?_eq hpv hpw hv hw hn with rfl | ⟨negative, rfl, rfl⟩
          · exact .inl rfl
          · exact .inr ⟨by simp, negative, rfl, rfl⟩
        | _ => cases hw
      | _ => cases hv
    | _ => cases v <;> first | (cases hsome; done) | cases hv

end Value

end FluentPlan
