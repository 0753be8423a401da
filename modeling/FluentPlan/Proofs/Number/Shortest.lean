import FluentPlan.Proofs.Number.Rounding

/-!
The shortest decimal of a double. The search ends inside the interval of the number: eighteen digits
make a grid that is finer than the interval.
-/

namespace FluentPlan.Number

/-- The number that a decimal stands for. -/
def Decimal.value (d : Decimal) : ℚ := d.digits * 10 ^ d.point

namespace Double

theorem scaleTen_snd_pos (num : Nat) {den : Nat} (hd : 0 < den) (k : Int) :
    0 < (scaleTen num den k).2 := by
  unfold scaleTen
  split_ifs
  · exact hd
  · exact Nat.mul_pos hd (Nat.pow_pos (by decide))

theorem ratio_scaleTen (num den : Nat) (k : Int) :
    ratio (scaleTen num den k) = (num / den : ℚ) * 10 ^ k := by
  unfold ratio scaleTen
  split_ifs with hk
  · obtain ⟨n, rfl⟩ := Int.eq_ofNat_of_zero_le hk
    simp only [Int.toNat_natCast, Nat.cast_mul, Nat.cast_pow, Nat.cast_ofNat, zpow_natCast]
    ring
  · obtain ⟨n, hn⟩ := Int.eq_ofNat_of_zero_le (show 0 ≤ -k by omega)
    obtain rfl : k = -n := by omega
    simp only [neg_neg, Int.toNat_natCast, Nat.cast_mul, Nat.cast_pow, Nat.cast_ofNat, zpow_neg,
      zpow_natCast]
    rw [div_mul_eq_div_div, div_eq_mul_inv (num / den : ℚ)]

/-! ### The point -/

theorem zpow_findPoint_le {num den : Nat} (hd : 0 < den) (fuel : Nat) {k : Int}
    (h : (10 : ℚ) ^ (k - 1) ≤ num / den) :
    (10 : ℚ) ^ (findPoint fuel num den k - 1) ≤ num / den := by
  induction fuel generalizing k with
  | zero => exact h
  | succ fuel ih =>
    unfold findPoint
    dsimp only
    split_ifs with hlt
    · exact h
    · refine ih ?_
      have hdq : (0 : ℚ) < (scaleTen num den (-k)).2 :=
        Nat.cast_pos.mpr (scaleTen_snd_pos num hd (-k))
      have hone : (1 : ℚ) ≤ ratio (scaleTen num den (-k)) := by
        rw [ratio, le_div_iff₀ hdq, one_mul]
        exact_mod_cast not_lt.mp hlt
      rw [ratio_scaleTen, zpow_neg, ← div_eq_mul_inv, le_div_iff₀ (by positivity), one_mul] at hone
      rwa [add_sub_cancel_right]

/-- The estimate is at most one above the number of decimal places before the point. -/
theorem zpow_estimate_le {l : Int} (hl : -1074 ≤ l) : (10 : ℚ) ^ (l * 301 / 1000 - 1 - 1) ≤ 2 ^ l := by
  have hfloor : l * 301 / 1000 * 1000 ≤ l * 301 := Int.ediv_mul_le _ (by decide)
  have hnum : (10 : ℚ) ^ 301 ≤ 2 ^ 1000 ∧ (2 : ℚ) ^ 1000 ≤ 10 ^ 302 := by
    have hnat : 10 ^ 301 ≤ 2 ^ 1000 ∧ 2 ^ 1000 ≤ 10 ^ 302 := by decide +kernel
    exact_mod_cast hnat
  -- both sides to the power of 1000
  refine le_of_pow_le_pow_left₀ (n := 1000) (by decide) (by positivity) ?_
  rw [← zpow_natCast, ← zpow_natCast, ← zpow_mul, ← zpow_mul]
  have hten {a b : Int} (h : a ≤ b) : (10 : ℚ) ^ a ≤ 10 ^ b := zpow_le_zpow_right₀ (by norm_num) h
  rcases le_or_gt 0 l with hpos | hneg
  · obtain ⟨n, rfl⟩ := Int.eq_ofNat_of_zero_le hpos
    have hbase : (10 : ℚ) ^ (301 * n) ≤ 2 ^ (1000 * n) := by
      rw [pow_mul, pow_mul]
      exact pow_le_pow_left₀ (by norm_num) hnum.1 n
    calc (10 : ℚ) ^ ((n * 301 / 1000 - 1 - 1) * ((1000 : Nat) : Int))
        ≤ 10 ^ ((301 * n : Nat) : Int) := hten (by push_cast; omega)
      _ ≤ 2 ^ ((1000 * n : Nat) : Int) := by exact_mod_cast hbase
      _ = 2 ^ ((n : Int) * ((1000 : Nat) : Int)) := by congr 1; push_cast; ring
  · obtain ⟨n, hn⟩ := Int.eq_ofNat_of_zero_le (show 0 ≤ -l by omega)
    obtain rfl : l = -n := by omega
    have hbase : (2 : ℚ) ^ (1000 * n) ≤ 10 ^ (302 * n) := by
      rw [pow_mul, pow_mul]
      exact pow_le_pow_left₀ (by norm_num) hnum.2 n
    calc (10 : ℚ) ^ ((-(n : Int) * 301 / 1000 - 1 - 1) * ((1000 : Nat) : Int))
        ≤ 10 ^ (-((302 * n : Nat) : Int)) := hten (by push_cast; omega)
      _ ≤ 2 ^ (-((1000 * n : Nat) : Int)) := by
        rw [zpow_neg, zpow_neg, zpow_natCast, zpow_natCast]
        exact inv_anti₀ (by positivity) hbase
      _ = 2 ^ (-(n : Int) * ((1000 : Nat) : Int)) := by congr 1; push_cast; ring

/-! ### The search -/

/-- The grid of `n` digits in terms of the units of an interval. -/
def gridOf (e point : Int) (n : Nat) : Nat × Nat :=
  scaleTen (unscale 1 1 (2 - e)).1 (unscale 1 1 (2 - e)).2 (Int.ofNat n - point)

theorem gridOf_snd_pos (e point : Int) (n : Nat) : 0 < (gridOf e point n).2 :=
  scaleTen_snd_pos _ (unscale_snd_pos 1 Nat.one_pos _) _

theorem ratio_gridOf (e point : Int) (n : Nat) :
    ratio (gridOf e point n) = 2 ^ (e - 2) * 10 ^ (n - point) := by
  have hunit := ratio_unscale 1 1 (2 - e)
  rw [ratio] at hunit
  rw [gridOf, ratio_scaleTen, hunit, Nat.cast_one, div_one, one_mul, neg_sub]
  rfl

/-- Whether a place of a grid lies in the interval of `m * 2 ^ e`. -/
def isInside (m : Nat) (e : Int) (grid : Nat × Nat) (c : Nat) : Bool :=
  ((interval m e).1 * grid.1 < c * grid.2 && c * grid.2 < (interval m e).2.1 * grid.1) ||
    ((interval m e).2.2 &&
      (c * grid.2 = (interval m e).1 * grid.1 || c * grid.2 = (interval m e).2.1 * grid.1))

/-- One step of the search: a place of the grid that lies inside, or the next grid where the place above
the number does not. -/
theorem searchDigits_cases (m : Nat) (e point : Int) (fuel n : Nat) :
    (∃ c, 0 < c ∧ isInside m e (gridOf e point n) c = true ∧
      searchDigits m e point (fuel + 1) n = ⟨c, point - n⟩) ∨
    (isInside m e (gridOf e point n)
        (4 * m * (gridOf e point n).1 / (gridOf e point n).2 + 1) = false ∧
      searchDigits m e point (fuel + 1) n = searchDigits m e point fuel (n + 1)) := by
  have hstep : searchDigits m e point (fuel + 1) n =
      let grid := gridOf e point n
      let value := 4 * m * grid.1
      let c := value / grid.2
      let below := isInside m e grid c && 0 < c
      let above := isInside m e grid (c + 1)
      let twice := 2 * (value % grid.2)
      if below && above then
        if twice < grid.2 || (twice = grid.2 && c % 2 = 0) then ⟨c, point - n⟩
        else ⟨c + 1, point - n⟩
      else if below then ⟨c, point - n⟩
      else if above then ⟨c + 1, point - n⟩
      else searchDigits m e point fuel (n + 1) := rfl
  rw [hstep]
  dsimp only
  generalize 4 * m * (gridOf e point n).1 / (gridOf e point n).2 = c
  split_ifs with hboth hnear hbelow habove
  · rw [Bool.and_eq_true, Bool.and_eq_true, decide_eq_true_eq] at hboth
    exact .inl ⟨c, hboth.1.2, hboth.1.1, rfl⟩
  · rw [Bool.and_eq_true] at hboth
    exact .inl ⟨c + 1, Nat.succ_pos c, hboth.2, rfl⟩
  · rw [Bool.and_eq_true, decide_eq_true_eq] at hbelow
    exact .inl ⟨c, hbelow.2, hbelow.1, rfl⟩
  · exact .inl ⟨c + 1, Nat.succ_pos c, habove, rfl⟩
  · exact .inr ⟨by simpa using habove, rfl⟩

/-- The grid and the interval are scaled alike. -/
theorem exists_gridOf_scale (e point : Int) (n : Nat) :
    ∃ s : ℚ, 0 < s ∧ (∀ a : Nat, ((a * (gridOf e point n).1 : Nat) : ℚ) = s * (a * 2 ^ (e - 2))) ∧
      ∀ c : Nat, ((c * (gridOf e point n).2 : Nat) : ℚ) = s * Decimal.value ⟨c, point - n⟩ := by
  have hdq : (0 : ℚ) < (gridOf e point n).2 := Nat.cast_pos.mpr (gridOf_snd_pos e point n)
  have hgrid := ratio_gridOf e point n
  rw [ratio, div_eq_iff hdq.ne'] at hgrid
  refine ⟨(gridOf e point n).2 * 10 ^ ((n : Int) - point), by positivity, fun a => ?_, fun c => ?_⟩
  · rw [Nat.cast_mul, hgrid]
    ring
  · rw [Decimal.value, Nat.cast_mul, mul_assoc, mul_left_comm ((10 : ℚ) ^ _), ← zpow_add₀ (by norm_num),
      sub_add_sub_cancel, sub_self, zpow_zero, mul_one, mul_comm]

theorem isInside_iff {m : Nat} {e point : Int} {n c : Nat} :
    isInside m e (gridOf e point n) c = true ↔
      (((interval m e).1 : ℚ) * 2 ^ (e - 2) < Decimal.value ⟨c, point - n⟩ ∧
        Decimal.value ⟨c, point - n⟩ < ((interval m e).2.1 : ℚ) * 2 ^ (e - 2)) ∨
      (m % 2 = 0 ∧ (Decimal.value ⟨c, point - n⟩ = ((interval m e).1 : ℚ) * 2 ^ (e - 2) ∨
        Decimal.value ⟨c, point - n⟩ = ((interval m e).2.1 : ℚ) * 2 ^ (e - 2))) := by
  obtain ⟨s, hs, hends, hplace⟩ := exists_gridOf_scale e point n
  have hclosed : (interval m e).2.2 = decide (m % 2 = 0) := rfl
  have hlow (a : Nat) : a * (gridOf e point n).1 < c * (gridOf e point n).2 ↔
      (a : ℚ) * 2 ^ (e - 2) < Decimal.value ⟨c, point - n⟩ := by
    rw [← mul_lt_mul_iff_right₀ hs, ← hends, ← hplace, Nat.cast_lt]
  have hhigh (a : Nat) : c * (gridOf e point n).2 < a * (gridOf e point n).1 ↔
      Decimal.value ⟨c, point - n⟩ < (a : ℚ) * 2 ^ (e - 2) := by
    rw [← mul_lt_mul_iff_right₀ hs, ← hends, ← hplace, Nat.cast_lt]
  have hend (a : Nat) : c * (gridOf e point n).2 = a * (gridOf e point n).1 ↔
      Decimal.value ⟨c, point - n⟩ = (a : ℚ) * 2 ^ (e - 2) := by
    rw [← mul_right_inj' hs.ne', ← hends, ← hplace, Nat.cast_inj]
  simp only [isInside, hclosed, Bool.or_eq_true, Bool.and_eq_true, decide_eq_true_eq, hlow, hhigh, hend]

theorem rounds_of_isInside {m : Nat} {e point : Int} {n c : Nat} (hm : 0 < m)
    (h : isInside m e (gridOf e point n) c = true) : Rounds m e (Decimal.value ⟨c, point - n⟩) := by
  have hspan : ((interval m e).1 : ℚ) * 2 ^ (e - 2) < ((interval m e).2.1 : ℚ) * 2 ^ (e - 2) := by
    refine mul_lt_mul_of_pos_right ?_ (by positivity)
    have hends : (interval m e).1 < (interval m e).2.1 := by
      simp only [interval]
      omega
    exact_mod_cast hends
  rcases isInside_iff.mp h with ⟨hlow, hhigh⟩ | ⟨heven, hend⟩
  · exact ⟨hlow.le, hhigh.le, fun _ => ⟨hlow, hhigh⟩⟩
  · rcases hend with hend | hend <;> rw [hend]
    · exact ⟨le_rfl, hspan.le, fun hodd => by omega⟩
    · exact ⟨hspan.le, le_rfl, fun hodd => by omega⟩

/-- On a grid that is finer than the interval the place above the number lies inside. -/
theorem isInside_above {m : Nat} {e point : Int} {n : Nat} (hm : 0 < m)
    (hfine : (10 : ℚ) ^ (point - n) < 2 ^ (e - 1)) :
    isInside m e (gridOf e point n)
      (4 * m * (gridOf e point n).1 / (gridOf e point n).2 + 1) = true := by
  obtain ⟨s, hs, hends, hplace⟩ := exists_gridOf_scale e point n
  have hpos := gridOf_snd_pos e point n
  have hvalue := hends (4 * m)
  generalize hc : 4 * m * (gridOf e point n).1 / (gridOf e point n).2 = c
  have hbelow : c * (gridOf e point n).2 ≤ 4 * m * (gridOf e point n).1 := hc ▸ Nat.div_mul_le_self _ _
  have habove : 4 * m * (gridOf e point n).1 < (c + 1) * (gridOf e point n).2 :=
    (Nat.div_lt_iff_lt_mul hpos).mp (by omega)
  rw [← Nat.cast_le (α := ℚ), hvalue, hplace, mul_le_mul_iff_right₀ hs] at hbelow
  rw [← Nat.cast_lt (α := ℚ), hvalue, hplace, mul_lt_mul_iff_right₀ hs] at habove
  refine isInside_iff.mpr (.inl ⟨lt_of_le_of_lt ?_ habove, ?_⟩)
  · refine mul_le_mul_of_nonneg_right ?_ (by positivity)
    have hlow : (interval m e).1 ≤ 4 * m := by
      simp only [interval]
      omega
    exact_mod_cast hlow
  · have hstep : Decimal.value ⟨c + 1, point - n⟩ =
        Decimal.value ⟨c, point - n⟩ + 10 ^ (point - n) := by
      simp only [Decimal.value]
      push_cast
      ring
    have hhigh : ((interval m e).2.1 : ℚ) = 4 * m + 2 := by
      simp [interval]
    have hhalf : (2 : ℚ) ^ (e - 1) = 2 * 2 ^ (e - 2) := by
      rw [show e - 1 = e - 2 + 1 by ring, zpow_add_one₀ (by norm_num)]
      ring
    rw [hstep, hhigh]
    push_cast at hbelow
    linarith

/-- The search ends inside the interval if its last grid is finer than that. -/
theorem searchDigits_spec {m : Nat} {e point : Int} (hm : 0 < m) (fuel n : Nat)
    (hfine : (10 : ℚ) ^ (point - (n + fuel : Nat)) < 2 ^ (e - 1)) :
    0 < (searchDigits m e point (fuel + 1) n).digits ∧
      Rounds m e (searchDigits m e point (fuel + 1) n).value := by
  induction fuel generalizing n with
  | zero =>
    rcases searchDigits_cases m e point 0 n with ⟨c, hc, hin, heq⟩ | ⟨hout, -⟩
    · rw [heq]
      exact ⟨hc, rounds_of_isInside hm hin⟩
    · have habove := isInside_above hm hfine
      rw [add_zero, hout] at habove
      cases habove
  | succ fuel ih =>
    rcases searchDigits_cases m e point (fuel + 1) n with ⟨c, hc, hin, heq⟩ | ⟨-, heq⟩
    · rw [heq]
      exact ⟨hc, rounds_of_isInside hm hin⟩
    · rw [heq]
      refine ih (n + 1) ?_
      rwa [show n + 1 + fuel = n + (fuel + 1) by omega]

/-- The shortest decimal of a number rounds to it. -/
theorem shortest_spec {m : Nat} {e : Int} (hf : Fits m e) (hm : 0 < m) :
    0 < (shortest m e).digits ∧ Rounds m e (shortest m e).value := by
  have hd := unscale_snd_pos m Nat.one_pos (-e)
  have hvalue : ((unscale m 1 (-e)).1 / (unscale m 1 (-e)).2 : ℚ) = m * 2 ^ e := by
    have hratio := ratio_unscale m 1 (-e)
    rwa [neg_neg, Nat.cast_one, div_one] at hratio
  have hlog : Int.ofNat m.log2 = (m.log2 : Int) := rfl
  have hpoint := zpow_findPoint_le hd 5 (k := (Int.ofNat m.log2 + e) * 301 / 1000 - 1) <| by
    have hlow := hf.low
    rw [minExponent] at hlow
    refine le_trans (zpow_estimate_le (by rw [hlog]; omega)) ?_
    rw [hvalue, zpow_add₀ (by norm_num)]
    exact mul_le_mul_of_nonneg_right (zpow_log2_le (by omega)) (by positivity)
  have heq : shortest m e = searchDigits m e (findPoint 5 (unscale m 1 (-e)).1 (unscale m 1 (-e)).2
      ((Int.ofNat m.log2 + e) * 301 / 1000 - 1)) 18 1 := rfl
  rw [heq]
  refine searchDigits_spec hm 17 1 ?_
  generalize findPoint 5 (unscale m 1 (-e)).1 (unscale m 1 (-e)).2
    ((Int.ofNat m.log2 + e) * 301 / 1000 - 1) = point at *
  rw [hvalue] at hpoint
  have hbits : (m : ℚ) < 2 ^ 53 := by exact_mod_cast hf.bits
  have he : (0 : ℚ) < 2 ^ e := by positivity
  calc (10 : ℚ) ^ (point - (1 + 17 : Nat)) = 10 ^ (point - 1) * 10 ^ (-17 : Int) := by
        rw [← zpow_add₀ (by norm_num)]
        congr 1
        push_cast
        ring
    _ ≤ m * 2 ^ e * 10 ^ (-17 : Int) := mul_le_mul_of_nonneg_right hpoint (by positivity)
    _ < 2 ^ 53 * 2 ^ e * 10 ^ (-17 : Int) := by gcongr
    _ ≤ 2 ^ e * 2 ^ (-1 : Int) := by
        rw [mul_comm ((2 : ℚ) ^ 53), mul_assoc]
        exact mul_le_mul_of_nonneg_left (by norm_num) he.le
    _ = 2 ^ (e - 1) := by rw [← zpow_add₀ (by norm_num), sub_eq_add_neg]

theorem dropZeros_spec (fuel : Nat) (d : Decimal) (hd : 0 < d.digits) :
    0 < (dropZeros fuel d).digits ∧ (dropZeros fuel d).value = d.value := by
  induction fuel generalizing d with
  | zero => exact ⟨hd, rfl⟩
  | succ fuel ih =>
    unfold dropZeros
    split_ifs with hzero
    · rw [Bool.and_eq_true, decide_eq_true_eq] at hzero
      obtain ⟨hpos, hvalue⟩ := ih ⟨d.digits / 10, d.point + 1⟩ (by dsimp only; omega)
      refine ⟨hpos, hvalue.trans ?_⟩
      have hten : (d.digits : ℚ) = (d.digits / 10 : Nat) * 10 := by
        exact_mod_cast (Nat.div_mul_cancel (Nat.dvd_of_mod_eq_zero hzero.1)).symm
      rw [Decimal.value, Decimal.value, hten, zpow_add_one₀ (by norm_num)]
      ring
    · exact ⟨hd, rfl⟩

end Double

end FluentPlan.Number
