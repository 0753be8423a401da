import Mathlib.Algebra.Order.Field.Power
import Mathlib.Algebra.Order.Field.Rat
import Mathlib.Tactic.FieldSimp
import Mathlib.Tactic.Linarith
import Mathlib.Tactic.NormNum
import Mathlib.Tactic.Positivity
import Mathlib.Tactic.Ring
import FluentPlan.Number.Shortest

/-!
Rounding to doubles. A quotient that lies in the interval of a number, which ends half-way to the
neighbours on both sides, rounds to that number; whatever a quotient rounds to is in the format.
-/

namespace FluentPlan.Number.Double

/-- Whether a significand and an exponent are those of a number in the format: all bits are used unless
the exponent is the smallest one. -/
structure Fits (m : Nat) (e : Int) : Prop where
  bits : m < 2 ^ 53
  low : minExponent ≤ e
  high : e ≤ maxExponent
  normal : 2 ^ 52 ≤ m ∨ e = minExponent

/-- Whether a double is in the format. -/
def IsProper : Double → Prop
  | .finite _ m e => Fits m e
  | _ => True

theorem isProper_zero : zero.IsProper := ⟨by decide, by decide, by decide, .inr rfl⟩

theorem IsProper.negate {x : Double} (h : x.IsProper) : x.negate.IsProper := by
  cases x <;> exact h

/-! ### Quotients -/

/-- The quotient of a pair. -/
def ratio (p : Nat × Nat) : ℚ := p.1 / p.2

theorem unscale_snd_pos (num : Nat) {den : Nat} (hd : 0 < den) (e : Int) :
    0 < (unscale num den e).2 := by
  unfold unscale
  split_ifs
  · exact Nat.mul_pos hd (Nat.two_pow_pos _)
  · exact hd

theorem ratio_unscale (num den : Nat) (e : Int) :
    ratio (unscale num den e) = (num / den : ℚ) * 2 ^ (-e) := by
  unfold ratio unscale
  split_ifs with he
  · obtain ⟨k, rfl⟩ := Int.eq_ofNat_of_zero_le he
    simp only [Int.toNat_natCast, Nat.cast_mul, Nat.cast_pow, Nat.cast_ofNat, zpow_neg, zpow_natCast]
    rw [div_mul_eq_div_div, div_eq_mul_inv (num / den : ℚ)]
  · obtain ⟨k, hk⟩ := Int.eq_ofNat_of_zero_le (show 0 ≤ -e by omega)
    rw [hk]
    simp only [Int.toNat_natCast, Nat.cast_mul, Nat.cast_pow, Nat.cast_ofNat, zpow_natCast]
    ring

/-- The nearest integer, the even one of two. -/
theorem roundHalfEven_eq {n d k : Nat} (hd : 0 < d) (hl : 2 * k * d ≤ 2 * n + d)
    (hu : 2 * n ≤ (2 * k + 1) * d)
    (ht : k % 2 = 1 → 2 * k * d < 2 * n + d ∧ 2 * n < (2 * k + 1) * d) :
    roundHalfEven n d = k := by
  have hn : d * (n / d) + n % d = n := Nat.div_add_mod n d
  have hr : n % d < d := Nat.mod_lt n hd
  unfold roundHalfEven
  dsimp only
  generalize n / d = q at *
  generalize n % d = r at *
  subst hn
  have hlow : q ≤ k := by
    by_contra hlt
    have : (2 * k + 2) * d ≤ 2 * q * d := Nat.mul_le_mul_right d (by omega)
    nlinarith
  have hhigh : k ≤ q + 1 := by
    by_contra hlt
    have : (2 * q + 4) * d ≤ 2 * k * d := Nat.mul_le_mul_right d (by omega)
    nlinarith
  obtain rfl | rfl : k = q ∨ k = q + 1 := by omega
  · have hle : 2 * r ≤ d := by nlinarith
    split_ifs with h1 h2 h3
    · rfl
    · omega
    · rfl
    · have hlt := (ht (by omega)).2
      have : 2 * r < d := by nlinarith
      omega
  · have hge : d ≤ 2 * r := by nlinarith
    split_ifs with h1 h2 h3
    · omega
    · rfl
    · have hlt := (ht (by omega)).1
      have : d < 2 * r := by nlinarith
      omega
    · rfl

theorem le_roundHalfEven (n d : Nat) : n / d ≤ roundHalfEven n d := by
  unfold roundHalfEven
  dsimp only
  split_ifs <;> omega

/-- The nearest integer in terms of the quotient. -/
theorem roundHalfEven_ratio {p : Nat × Nat} (hp : 0 < p.2) {k : Nat} (hl : (k : ℚ) - 1 / 2 ≤ ratio p)
    (hu : ratio p ≤ k + 1 / 2)
    (ht : k % 2 = 1 → (k : ℚ) - 1 / 2 < ratio p ∧ ratio p < k + 1 / 2) :
    roundHalfEven p.1 p.2 = k := by
  have hd : (0 : ℚ) < p.2 := Nat.cast_pos.mpr hp
  unfold ratio at hl hu ht
  rw [le_div_iff₀ hd] at hl
  rw [div_le_iff₀ hd] at hu
  rw [lt_div_iff₀ hd, div_lt_iff₀ hd] at ht
  refine roundHalfEven_eq hp ?_ ?_ fun hk => ?_
  · have h : (2 * k * p.2 : ℚ) ≤ 2 * p.1 + p.2 := by linarith
    exact_mod_cast h
  · have h : (2 * p.1 : ℚ) ≤ (2 * k + 1) * p.2 := by linarith
    exact_mod_cast h
  · obtain ⟨hl, hu⟩ := ht hk
    have hl : (2 * k * p.2 : ℚ) < 2 * p.1 + p.2 := by linarith
    have hu : (2 * p.1 : ℚ) < (2 * k + 1) * p.2 := by linarith
    exact ⟨by exact_mod_cast hl, by exact_mod_cast hu⟩

/-! ### Exponents -/

/-- Whether an exponent is the one for a positive number: the least one of the format under which the
number has no more than 53 bits. -/
structure IsScale (v : ℚ) (e : Int) : Prop where
  low : minExponent ≤ e
  upper : v < 2 ^ (e + 53)
  lower : e = minExponent ∨ 2 ^ (e + 52) ≤ v

theorem IsScale.unique {v : ℚ} {e f : Int} (he : IsScale v e) (hf : IsScale v f) : e = f := by
  have hno {e f : Int} (he : IsScale v e) (hf : IsScale v f) : ¬ e < f := by
    intro hlt
    have hlow := he.low
    have hbelow : (2 : ℚ) ^ (f + 52) ≤ v := hf.lower.resolve_left (by omega)
    have hstep : (2 : ℚ) ^ (e + 53) ≤ 2 ^ (f + 52) := zpow_le_zpow_right₀ (by norm_num) (by omega)
    exact absurd (he.upper.trans_le hstep) (not_lt.mpr hbelow)
  have := hno he hf
  have := hno hf he
  omega

/-- The number of a rounded significand: one that takes 54 bits is a power of two. -/
def carry (m : Nat) (e : Int) : Double :=
  if m < 2 ^ 53 then if e ≤ maxExponent then .finite false m e else .infinite false
  else if e + 1 ≤ maxExponent then .finite false (2 ^ 52) (e + 1) else .infinite false

theorem zpow_log2_le {n : Nat} (hn : n ≠ 0) : (2 : ℚ) ^ (n.log2 : Int) ≤ n := by
  rw [zpow_natCast]
  exact_mod_cast Nat.log2_self_le hn

theorem lt_zpow_log2 (n : Nat) : (n : ℚ) < 2 ^ ((n.log2 : Int) + 1) := by
  have h : n < 2 ^ (n.log2 + 1) := Nat.lt_log2_self
  have hcast : (n : ℚ) < (2 : ℚ) ^ (n.log2 + 1) := by exact_mod_cast h
  exact_mod_cast hcast

theorem zpow_lt_div {num den : Nat} (hn : 0 < num) (hd : 0 < den) :
    (2 : ℚ) ^ ((num.log2 : Int) - den.log2 - 1) < num / den := by
  have hdq : (0 : ℚ) < den := Nat.cast_pos.mpr hd
  rw [lt_div_iff₀ hdq]
  calc (2 : ℚ) ^ ((num.log2 : Int) - den.log2 - 1) * den
      < 2 ^ ((num.log2 : Int) - den.log2 - 1) * 2 ^ ((den.log2 : Int) + 1) :=
        mul_lt_mul_of_pos_left (lt_zpow_log2 den) (by positivity)
    _ = 2 ^ (num.log2 : Int) := by
        rw [← zpow_add₀ (by norm_num)]
        congr 1
        omega
    _ ≤ num := zpow_log2_le (by omega)

theorem div_lt_zpow {num den : Nat} (hd : 0 < den) :
    (num / den : ℚ) < 2 ^ ((num.log2 : Int) - den.log2 + 1) := by
  have hdq : (0 : ℚ) < den := Nat.cast_pos.mpr hd
  rw [div_lt_iff₀ hdq]
  calc (num : ℚ) < 2 ^ ((num.log2 : Int) + 1) := lt_zpow_log2 num
    _ = 2 ^ ((num.log2 : Int) - den.log2 + 1) * 2 ^ (den.log2 : Int) := by
        rw [← zpow_add₀ (by norm_num)]
        congr 1
        omega
    _ ≤ 2 ^ ((num.log2 : Int) - den.log2 + 1) * den :=
        mul_le_mul_of_nonneg_left (zpow_log2_le (by omega)) (by positivity)

/-- Whether the whole part of a scaled quotient has no more than 53 bits. -/
theorem unscale_div_lt_iff {num den : Nat} (hd : 0 < den) (e : Int) :
    (unscale num den e).1 / (unscale num den e).2 < 2 ^ 53 ↔ (num / den : ℚ) < 2 ^ (e + 53) := by
  have hpos := unscale_snd_pos num hd e
  have hq := ratio_unscale num den e
  have hdq : (0 : ℚ) < (unscale num den e).2 := Nat.cast_pos.mpr hpos
  have hratio : ratio (unscale num den e) < 2 ^ 53 ↔ (num / den : ℚ) < 2 ^ (e + 53) := by
    rw [hq, zpow_neg, ← div_eq_mul_inv, div_lt_iff₀ (by positivity), zpow_add₀ (by norm_num),
      mul_comm]
    rfl
  rw [Nat.div_lt_iff_lt_mul hpos, ← hratio, ratio, div_lt_iff₀ hdq]
  exact_mod_cast Iff.rfl

/-- A quotient is rounded under its exponent. -/
theorem exists_scale {num den : Nat} (hn : 0 < num) (hd : 0 < den) :
    ∃ e, IsScale (num / den) e ∧
      ofQuotient num den =
        carry (roundHalfEven (unscale num den e).1 (unscale num den e).2) e := by
  have hlower := zpow_lt_div hn hd
  have hupper : (num / den : ℚ) < 2 ^ ((num.log2 : Int) - den.log2 + 1) := div_lt_zpow hd
  have hmono {a b : Int} (h : a ≤ b) : (2 : ℚ) ^ a ≤ 2 ^ b := zpow_le_zpow_right₀ (by norm_num) h
  obtain ⟨low, hlow⟩ : ∃ low, low = max (Int.ofNat num.log2 - Int.ofNat den.log2 - 53) minExponent :=
    ⟨_, rfl⟩
  have hcast (n : Nat) : Int.ofNat n = (n : Int) := rfl
  simp only [hcast] at hlow
  refine ⟨if (unscale num den low).1 / (unscale num den low).2 < 2 ^ 53 then low else low + 1, ?_, ?_⟩
  · split_ifs with hbits
    · refine ⟨by omega, (unscale_div_lt_iff hd low).mp hbits, ?_⟩
      by_cases he : low = minExponent
      · exact .inl he
      · exact .inr (le_trans (hmono (by omega)) hlower.le)
    · rw [unscale_div_lt_iff hd, not_lt] at hbits
      exact ⟨by omega, hupper.trans_le (hmono (by omega)), .inr (le_trans (hmono (by omega)) hbits)⟩
  · unfold ofQuotient carry
    simp only [hcast, ← hlow, if_neg (show ¬ num = 0 by omega)]
    split_ifs <;> rfl

/-! ### Intervals -/

/-- Whether a number lies in the interval of `m * 2 ^ e`, to which its ends belong if `m` is even. -/
structure Rounds (m : Nat) (e : Int) (v : ℚ) : Prop where
  low : ((interval m e).1 : ℚ) * 2 ^ (e - 2) ≤ v
  high : v ≤ ((interval m e).2.1 : ℚ) * 2 ^ (e - 2)
  inner : m % 2 = 1 →
    ((interval m e).1 : ℚ) * 2 ^ (e - 2) < v ∧ v < ((interval m e).2.1 : ℚ) * 2 ^ (e - 2)

theorem quarter (e : Int) : (2 : ℚ) ^ e = 4 * 2 ^ (e - 2) := by
  rw [zpow_sub₀ (by norm_num)]
  norm_num
  ring

/-- The interval in terms of the number. -/
theorem Rounds.bounds {m : Nat} {e : Int} {v : ℚ} (hm : 0 < m) (h : Rounds m e v) :
    ((m : ℚ) - 1 / 2) * 2 ^ e ≤ v ∧ v ≤ (m + 1 / 2) * 2 ^ e ∧
      (m % 2 = 1 → ((m : ℚ) - 1 / 2) * 2 ^ e < v ∧ v < (m + 1 / 2) * 2 ^ e) ∧
      (m = 2 ^ 52 → minExponent < e → ((m : ℚ) - 1 / 4) * 2 ^ e ≤ v) := by
  have hu : (0 : ℚ) < 2 ^ (e - 2) := by positivity
  have hhigh : ((interval m e).2.1 : ℚ) = 4 * m + 2 := by
    simp [interval]
  have hlow : (4 * m - 2 : ℚ) ≤ (interval m e).1 ∧
      (m = 2 ^ 52 → minExponent < e → (4 * m - 1 : ℚ) ≤ (interval m e).1) := by
    simp only [interval, decide_eq_true_eq, Bool.and_eq_true]
    split_ifs with hp
    · rw [Nat.cast_sub (by omega)]
      push_cast
      exact ⟨by linarith, fun _ _ => le_rfl⟩
    · rw [Nat.cast_sub (by omega)]
      push_cast
      exact ⟨le_rfl, fun he hmin => absurd ⟨he, hmin⟩ hp⟩
  obtain ⟨hl, hh, hi⟩ := h
  rw [hhigh] at hh hi
  rw [quarter e]
  have hscale := mul_le_mul_of_nonneg_right hlow.1 hu.le
  refine ⟨by linarith, by linarith, fun hodd => ?_, fun hp hmin => ?_⟩
  · obtain ⟨hl, hh⟩ := hi hodd
    exact ⟨by linarith, by linarith⟩
  · have hfine := mul_le_mul_of_nonneg_right (hlow.2 hp hmin) hu.le
    linarith

/-- What lies in the interval of a number is rounded to it. -/
theorem ofQuotient_of_rounds {m : Nat} {e : Int} (hf : Fits m e) (hm : 0 < m) {num den : Nat}
    (hd : 0 < den) (h : Rounds m e (num / den)) : ofQuotient num den = .finite false m e := by
  obtain ⟨hlow, hhigh, hodd, hfine⟩ := h.bounds hm
  have hpos (k : Int) : (0 : ℚ) < 2 ^ k := by positivity
  have hm1 : (1 : ℚ) ≤ m := by exact_mod_cast hm
  have hv : (0 : ℚ) < num / den :=
    lt_of_lt_of_le (mul_pos (by linarith) (hpos e)) hlow
  have hn : 0 < num := by
    rcases Nat.eq_zero_or_pos num with rfl | hn
    · simp at hv
    · exact hn
  obtain ⟨f, hscale, hq⟩ := exists_scale hn hd
  rw [hq]
  have hunscaled (k : Int) : ratio (unscale num den k) = (num / den : ℚ) / 2 ^ k := by
    rw [ratio_unscale, zpow_neg, ← div_eq_mul_inv]
  generalize (num / den : ℚ) = v at *
  have hsplit (k : Int) : (2 : ℚ) ^ (e + k) = 2 ^ k * 2 ^ e := by
    rw [zpow_add₀ (by norm_num), mul_comm]
  have hupper : v < 2 ^ (e + 53) := by
    rw [hsplit]
    have hbits := hf.bits
    by_cases hlast : m + 1 = 2 ^ 53
    · refine ((hodd (by omega)).2).trans_le (mul_le_mul_of_nonneg_right ?_ (hpos e).le)
      have hcast : (m : ℚ) + 1 = 2 ^ 53 := by exact_mod_cast hlast
      rw [zpow_ofNat]
      linarith
    · refine lt_of_le_of_lt hhigh (mul_lt_mul_of_pos_right ?_ (hpos e))
      have hcast : (m : ℚ) + 2 ≤ 2 ^ 53 := by exact_mod_cast (show m + 2 ≤ 2 ^ 53 by omega)
      rw [zpow_ofNat]
      linarith
  by_cases hregular : e = minExponent ∨ (2 : ℚ) ^ (e + 52) ≤ v
  · -- the number's own exponent
    obtain rfl : f = e := hscale.unique ⟨hf.low, hupper, hregular⟩
    have hround : roundHalfEven (unscale num den f).1 (unscale num den f).2 = m := by
      refine roundHalfEven_ratio (unscale_snd_pos num hd f) ?_ ?_ fun hmod => ?_
      · rw [hunscaled, le_div_iff₀ (hpos f)]
        exact hlow
      · rw [hunscaled, div_le_iff₀ (hpos f)]
        exact hhigh
      · rw [hunscaled, lt_div_iff₀ (hpos f), div_lt_iff₀ (hpos f)]
        exact hodd hmod
    rw [hround, carry, if_pos hf.bits, if_pos hf.high]
  · -- a power of two, and the quotient just below it
    obtain ⟨hmin, hbelow⟩ := not_or.mp hregular
    rw [not_le, hsplit, zpow_ofNat] at hbelow
    have hlowest := hf.low
    have hm52 : m = 2 ^ 52 := by
      by_contra hne
      have hnormal := hf.normal.resolve_right hmin
      have hcast : (2 : ℚ) ^ 52 + 1 ≤ m := by exact_mod_cast (show 2 ^ 52 + 1 ≤ m by omega)
      have hgrow := mul_le_mul_of_nonneg_right (show (2 : ℚ) ^ 52 ≤ m - 1 / 2 by linarith) (hpos e).le
      linarith
    have hquarter := hfine hm52 (by omega)
    subst hm52
    have hhalf : (2 : ℚ) ^ e = 2 * 2 ^ (e - 1) := by
      rw [zpow_sub_one₀ (by norm_num)]
      ring
    obtain rfl : f = e - 1 := by
      refine hscale.unique ⟨by omega, ?_, .inr ?_⟩
      · rw [show e - 1 + 53 = e + 52 by ring, hsplit, zpow_ofNat]
        exact hbelow
      · rw [show e - 1 + 52 = e + 51 by ring, hsplit, zpow_ofNat]
        refine le_trans (mul_le_mul_of_nonneg_right ?_ (hpos e).le) hquarter
        norm_num
    have hround : roundHalfEven (unscale num den (e - 1)).1 (unscale num den (e - 1)).2 = 2 ^ 53 := by
      refine roundHalfEven_ratio (unscale_snd_pos num hd (e - 1)) ?_ ?_ fun hmod => ?_
      · rw [hunscaled, le_div_iff₀ (hpos (e - 1))]
        rw [hhalf] at hquarter
        push_cast at hquarter ⊢
        linarith
      · rw [hunscaled, div_le_iff₀ (hpos (e - 1))]
        rw [hhalf] at hbelow
        have hu := hpos (e - 1)
        push_cast
        linarith
      · omega
    have hhighest := hf.high
    rw [hround, carry, if_neg (by omega), if_pos (by omega), sub_add_cancel]

/-! ### The format -/

theorem isProper_carry {m : Nat} {e : Int} (he : minExponent ≤ e)
    (hn : 2 ^ 52 ≤ m ∨ e = minExponent) : (carry m e).IsProper := by
  unfold carry
  split_ifs with hbits hhigh hnext
  · exact ⟨hbits, he, hhigh, hn⟩
  · trivial
  · exact ⟨by omega, by omega, hnext, .inl le_rfl⟩
  · trivial

theorem isProper_ofQuotient {num den : Nat} (hd : 0 < den) : (ofQuotient num den).IsProper := by
  rcases Nat.eq_zero_or_pos num with rfl | hn
  · exact isProper_zero
  obtain ⟨e, hscale, hq⟩ := exists_scale hn hd
  have hpos := unscale_snd_pos num hd e
  have hdq : (0 : ℚ) < (unscale num den e).2 := Nat.cast_pos.mpr hpos
  rw [hq]
  refine isProper_carry hscale.low (hscale.lower.symm.imp (fun hlow => ?_) id)
  refine le_trans ?_ (le_roundHalfEven _ _)
  rw [Nat.le_div_iff_mul_le hpos]
  have hratio : (2 : ℚ) ^ 52 ≤ ratio (unscale num den e) := by
    rw [ratio_unscale, zpow_neg, ← div_eq_mul_inv, le_div_iff₀ (by positivity)]
    rw [zpow_add₀ (by norm_num), mul_comm] at hlow
    exact hlow
  rw [ratio, le_div_iff₀ hdq] at hratio
  exact_mod_cast hratio

end FluentPlan.Number.Double
