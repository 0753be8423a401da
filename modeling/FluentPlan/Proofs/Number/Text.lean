import Mathlib.Tactic.IntervalCases
import FluentPlan.Number.Decimal
import FluentPlan.Proofs.Lexing.Numeral
import FluentPlan.Proofs.Number.Shortest
import FluentPlan.Proofs.Param.Raw

/-!
Doubles as texts. A decimal in the interval of a number is read as the number, wherever the text has
its point and whatever its exponent; so the shortest text of a double reads back as the double.
-/

namespace FluentPlan.Number

open Text Script

namespace Double

/-! ### Decimals -/

/-- The quotient of a decimal. -/
theorem exists_ofQuotient (digits : Nat) (exponent : Int) :
    ∃ num den : Nat, 0 < den ∧ (num / den : ℚ) = digits * 10 ^ exponent ∧
      (if 0 ≤ exponent then ofQuotient (digits * 10 ^ exponent.toNat) 1
        else ofQuotient digits (10 ^ (-exponent).toNat)) = ofQuotient num den := by
  split_ifs with he
  · obtain ⟨n, rfl⟩ := Int.eq_ofNat_of_zero_le he
    refine ⟨digits * 10 ^ n, 1, Nat.one_pos, ?_, rfl⟩
    simp
  · obtain ⟨n, hn⟩ := Int.eq_ofNat_of_zero_le (show 0 ≤ -exponent by omega)
    obtain rfl : exponent = -n := by omega
    refine ⟨digits, 10 ^ n, Nat.pow_pos (by decide), ?_, by simp⟩
    rw [zpow_neg, zpow_natCast, div_eq_mul_inv]
    push_cast
    rfl

theorem isProper_ofDecimal (digits : Nat) (exponent : Int) : (ofDecimal digits exponent).IsProper := by
  unfold ofDecimal
  dsimp only
  split_ifs
  · exact isProper_zero
  · trivial
  · exact isProper_ofQuotient Nat.one_pos
  · exact isProper_ofQuotient (Nat.pow_pos (by decide))

theorem zpow_le_digits {n : Nat} (hn : 0 < n) :
    (10 : ℚ) ^ (((Nat.toDigits 10 n).length : Int) - 1) ≤ n := by
  obtain ⟨k, hk⟩ : ∃ k, (Nat.toDigits 10 n).length = k + 1 :=
    ⟨_, (Nat.succ_pred_eq_of_pos Nat.length_toDigits_pos).symm⟩
  rw [hk, Nat.cast_add, Nat.cast_one, add_sub_cancel_right, zpow_natCast]
  rcases Nat.eq_zero_or_pos k with rfl | hpos
  · exact_mod_cast hn
  · have hlow : ¬ n < 10 ^ k := fun h => by
      have := (Nat.length_toDigits_le_iff (by decide) hpos).mpr h
      omega
    exact_mod_cast not_lt.mp hlow

theorem digits_lt_zpow (n : Nat) : (n : ℚ) < 10 ^ ((Nat.toDigits 10 n).length : Int) := by
  rw [zpow_natCast]
  exact_mod_cast (Nat.length_toDigits_le_iff (by decide) Nat.length_toDigits_pos).mp le_rfl

/-- The ends of an interval lie within the range of the format. -/
theorem Rounds.range {m : Nat} {e : Int} {v : ℚ} (hf : Fits m e) (hm : 0 < m) (h : Rounds m e v) :
    (10 : ℚ) ^ (-325 : Int) < v ∧ v < 10 ^ (310 : Int) := by
  obtain ⟨hlow, hhigh, -, -⟩ := h.bounds hm
  have hone : (1 : ℚ) ≤ m := by exact_mod_cast hm
  have hbits : (m : ℚ) + 1 ≤ 2 ^ 53 := by exact_mod_cast hf.bits
  have hmono {a b : Int} (h : a ≤ b) : (2 : ℚ) ^ a ≤ 2 ^ b := zpow_le_zpow_right₀ (by norm_num) h
  have hnum : (2 : ℚ) ^ 1024 ≤ 10 ^ 310 ∧ (2 : ℚ) ^ 1075 < 10 ^ 325 := by
    have hnat : 2 ^ 1024 ≤ 10 ^ 310 ∧ 2 ^ 1075 < 10 ^ 325 := by decide +kernel
    exact_mod_cast hnat
  constructor
  · calc (10 : ℚ) ^ (-325 : Int) < 2 ^ (-1075 : Int) := by
          rw [zpow_neg, zpow_neg]
          exact inv_strictAnti₀ (by positivity) hnum.2
      _ = 1 / 2 * 2 ^ minExponent := by
          rw [minExponent, show (-1075 : Int) = -1 + -1074 by norm_num, zpow_add₀ (by norm_num)]
          norm_num
      _ ≤ 1 / 2 * 2 ^ e := mul_le_mul_of_nonneg_left (hmono hf.low) (by norm_num)
      _ ≤ (m - 1 / 2) * 2 ^ e := mul_le_mul_of_nonneg_right (by linarith) (by positivity)
      _ ≤ v := hlow
  · calc v ≤ (m + 1 / 2) * 2 ^ e := hhigh
      _ < 2 ^ 53 * 2 ^ e := mul_lt_mul_of_pos_right (by linarith) (by positivity)
      _ ≤ 2 ^ 53 * 2 ^ maxExponent := mul_le_mul_of_nonneg_left (hmono hf.high) (by norm_num)
      _ = 2 ^ 1024 := by
          rw [maxExponent, ← zpow_natCast, ← zpow_natCast, ← zpow_add₀ (by norm_num)]
          rfl
      _ ≤ 10 ^ (310 : Int) := hnum.1

/-- A decimal in the interval of a number is read as the number. -/
theorem ofDecimal_of_rounds {m : Nat} {e : Int} (hf : Fits m e) (hm : 0 < m) {digits : Nat}
    {exponent : Int} (hd : 0 < digits) (h : Rounds m e (digits * 10 ^ exponent)) :
    ofDecimal digits exponent = .finite false m e := by
  obtain ⟨hlow, hhigh⟩ := h.range hf hm
  have hten (k : Int) : (0 : ℚ) < 10 ^ k := by positivity
  have hsize : -325 < ((Nat.toDigits 10 digits).length : Int) + exponent ∧
      ((Nat.toDigits 10 digits).length : Int) + exponent - 1 < 310 := by
    have hlt {a b : Int} (h : (10 : ℚ) ^ a < 10 ^ b) : a < b :=
      (zpow_lt_zpow_iff_right₀ (by norm_num)).mp h
    constructor
    · refine hlt (hlow.trans ?_)
      rw [zpow_add₀ (by norm_num)]
      exact mul_lt_mul_of_pos_right (digits_lt_zpow digits) (hten exponent)
    · refine hlt (lt_of_le_of_lt ?_ hhigh)
      rw [add_sub_right_comm, zpow_add₀ (by norm_num)]
      exact mul_le_mul_of_nonneg_right (zpow_le_digits hd) (hten exponent).le
  have hcast (n : Nat) : Int.ofNat n = (n : Int) := rfl
  obtain ⟨num, den, hden, hvalue, hq⟩ := exists_ofQuotient digits exponent
  unfold ofDecimal
  simp only [hcast, Bool.or_eq_true, decide_eq_true_eq]
  rw [if_neg (by omega), if_neg (by omega), hq]
  exact ofQuotient_of_rounds hf hm hden (hvalue ▸ h)

/-! ### Digits with a point and an exponent -/

theorem dropWhile_append_of_stop {p : Char → Bool} {cs r : List Char} (hc : ∀ c ∈ cs, p c = true)
    (hr : ∀ c, r.head? = some c → p c = false) : (cs ++ r).dropWhile p = r := by
  rw [List.dropWhile_append_of_pos hc]
  cases r with
  | nil => rfl
  | cons d r => rw [List.dropWhile_cons_of_neg (by simp [hr d rfl])]

/-- What is read behind the digits: nothing, or an exponent. -/
def scaled? (mantissa : Nat) (shift : Int) (rest : List Char) : Option Double :=
  let exponent (cs : List Char) : Option Int :=
    if cs.isEmpty || !cs.all Char.isDigit then none
    else some (cs.foldl (fun n c => 10 * n + (Int.ofNat c.toNat - 48)) 0)
  match rest with
  | [] => some (ofDecimal mantissa shift)
  | e :: '+' :: r =>
    if e.toLower = 'e' then (exponent r).map fun x => ofDecimal mantissa (shift + x) else none
  | e :: '-' :: r =>
    if e.toLower = 'e' then (exponent r).map fun x => ofDecimal mantissa (shift - x) else none
  | e :: r =>
    if e.toLower = 'e' then (exponent r).map fun x => ofDecimal mantissa (shift + x) else none

/-- The digits behind a point, and what is behind them. -/
def fractionOf : List Char → List Char × List Char
  | '.' :: r => (r.takeWhile Char.isDigit, r.dropWhile Char.isDigit)
  | r => ([], r)

theorem ofUnsigned?_eq (cs : List Char) :
    ofUnsigned? cs =
      let whole := cs.takeWhile Char.isDigit
      let tail := fractionOf (cs.dropWhile Char.isDigit)
      if (whole ++ tail.1).isEmpty then none
      else scaled? (Nat.ofDigitChars 10 (whole ++ tail.1) 0) (-Int.ofNat tail.1.length) tail.2 := by
  rfl

/-- Digits with a point among them are read as one number. -/
theorem ofUnsigned?_append {whole fraction point rest : List Char} (hw : IsDigits whole)
    (hp : point = '.' :: fraction ∧ (∀ c ∈ fraction, c.isDigit = true) ∨ point = [] ∧ fraction = [])
    (hr : ∀ c, rest.head? = some c → c.isDigit = false ∧ c ≠ '.') :
    ofUnsigned? (whole ++ (point ++ rest)) =
      scaled? (Nat.ofDigitChars 10 (whole ++ fraction) 0) (-Int.ofNat fraction.length) rest := by
  have hstop : ∀ c, (point ++ rest).head? = some c → c.isDigit = false := by
    rcases hp with ⟨rfl, -⟩ | ⟨rfl, -⟩
    · rintro c hc
      obtain rfl : '.' = c := by simpa using hc
      rfl
    · exact fun c hc => (hr c hc).1
  have hfraction : fractionOf (point ++ rest) = (fraction, rest) := by
    rcases hp with ⟨rfl, hf⟩ | ⟨rfl, rfl⟩
    · rw [List.cons_append, fractionOf, takeWhile_append_of_stop hf fun c hc => (hr c hc).1,
        dropWhile_append_of_stop hf fun c hc => (hr c hc).1]
    · rw [List.nil_append]
      unfold fractionOf
      split
      · exact absurd rfl (hr '.' rfl).2
      · rfl
  have hne : (whole ++ fraction).isEmpty = false := by simp [hw.1]
  rw [ofUnsigned?_eq, takeWhile_append_of_stop hw.2 hstop, dropWhile_append_of_stop hw.2 hstop,
    hfraction]
  dsimp only
  rw [hne, if_neg Bool.false_ne_true]

/-- The number of an exponent. -/
theorem foldl_digits {ds : List Char} (h : ∀ c ∈ ds, c.isDigit = true) (n : Nat) :
    ds.foldl (fun n c => 10 * n + (Int.ofNat c.toNat - 48)) (n : Int) = Nat.ofDigitChars 10 ds n := by
  induction ds generalizing n with
  | nil => rfl
  | cons c ds ih =>
    have hc : 48 ≤ c.toNat := by
      have hd := h c List.mem_cons_self
      simp only [Char.isDigit, Bool.and_eq_true, decide_eq_true_eq] at hd
      exact hd.1
    have hstep : 10 * (n : Int) + (Int.ofNat c.toNat - 48) = (10 * n + (c.toNat - '0'.toNat) : Nat) := by
      have hzero : '0'.toNat = 48 := rfl
      have hcast : Int.ofNat c.toNat = (c.toNat : Int) := rfl
      omega
    rw [List.foldl_cons, hstep, ih fun d hd => h d (List.mem_cons_of_mem c hd), Nat.ofDigitChars_cons]

theorem scaled?_exponent {mantissa : Nat} {shift : Int} {ds : List Char} (hd : IsDigits ds)
    (power : Int) (hpower : Nat.ofDigitChars 10 ds 0 = power.natAbs) :
    scaled? mantissa shift ('e' :: (if power < 0 then '-' else '+') :: ds) =
      some (ofDecimal mantissa (shift + power)) := by
  have hall : (ds.isEmpty || !ds.all Char.isDigit) = false := by
    have hne := hd.1
    have hdigits := List.all_eq_true.mpr hd.2
    simp [hne, hdigits]
  have hvalue : ds.foldl (fun n c => 10 * n + (Int.ofNat c.toNat - 48)) 0 = (power.natAbs : Int) := by
    rw [← hpower]
    exact foldl_digits hd.2 0
  split_ifs with hneg
  · have hshift : shift - (power.natAbs : Int) = shift + power := by omega
    simp only [scaled?, hall, hvalue]
    rw [← hshift]
    rfl
  · have hshift : shift + (power.natAbs : Int) = shift + power := by omega
    simp only [scaled?, hall, hvalue]
    rw [← hshift]
    rfl

theorem ofUnsigned?_point {whole fraction : List Char} (hw : IsDigits whole)
    (hf : ∀ c ∈ fraction, c.isDigit = true) :
    ofUnsigned? (whole ++ '.' :: fraction) =
      some (ofDecimal (Nat.ofDigitChars 10 (whole ++ fraction) 0) (-fraction.length)) := by
  have hend : ∀ c, ([] : List Char).head? = some c → c.isDigit = false ∧ c ≠ '.' := nofun
  have hread := ofUnsigned?_append hw (.inl ⟨rfl, hf⟩) hend
  rwa [List.append_nil] at hread

/-- Wherever the point is placed and whatever the exponent, the number is the same. -/
theorem exists_ofUnsigned?_layout {ds : List Char} (hd : IsDigits ds) (point : Int) :
    ∃ mantissa exponent, ofUnsigned? (layout ds point) = some (ofDecimal mantissa exponent) ∧
      (mantissa * 10 ^ exponent : ℚ) = Nat.ofDigitChars 10 ds 0 * 10 ^ (point - ds.length) ∧
      (0 < Nat.ofDigitChars 10 ds 0 → 0 < mantissa) := by
  have hcast (n : Nat) : Int.ofNat n = (n : Int) := rfl
  have hzero (n : Nat) : Nat.ofDigitChars 10 ('0' :: (List.replicate n '0' ++ ds)) 0 =
      Nat.ofDigitChars 10 ds 0 := by
    rw [← List.cons_append, ← List.replicate_succ, Nat.ofDigitChars_append,
      Nat.ofDigitChars_replicate_zero, mul_zero]
  unfold layout
  split_ifs with hin hlow hlong
  · -- all digits stand behind the point
    refine ⟨Nat.ofDigitChars 10 ds 0, point - ds.length, ?_, rfl, id⟩
    have hread := ofUnsigned?_point isDigits_zero (hd.replicate_append (-point).toNat).2
    rw [List.singleton_append, List.singleton_append, hzero, List.length_append,
      List.length_replicate] at hread
    rw [show point - ds.length = -((-point).toNat + ds.length : Nat) by omega]
    exact hread
  · -- all digits stand before it
    rw [hcast] at hlong
    obtain ⟨k, hk⟩ : ∃ k : Nat, point = ds.length + k := ⟨(point - ds.length).toNat, by omega⟩
    have hpad : point.toNat - ds.length = k := by omega
    have hvalue : Nat.ofDigitChars 10 (ds ++ List.replicate k '0' ++ ['0']) 0 =
        Nat.ofDigitChars 10 ds 0 * 10 ^ k * 10 := by
      rw [Nat.ofDigitChars_append, Nat.ofDigitChars_append, Nat.ofDigitChars_replicate_zero,
        Nat.ofDigitChars_cons, Nat.ofDigitChars_nil]
      simp only [Nat.sub_self]
      ring
    refine ⟨_, _, ofUnsigned?_point (hd.append_replicate (point.toNat - ds.length)) isDigits_zero.2,
      ?_, fun hpos => ?_⟩
    · rw [hpad, hvalue, hk, add_sub_cancel_left, zpow_natCast]
      push_cast
      rw [List.length_singleton, Nat.cast_one, zpow_neg_one]
      field_simp
    · rw [hpad, hvalue]
      positivity
  · -- the point stands among the digits
    have hlen : point.toNat < ds.length := by
      rw [hcast] at hlong
      omega
    refine ⟨Nat.ofDigitChars 10 ds 0, point - ds.length, ?_, rfl, id⟩
    have htake : IsDigits (ds.take point.toNat) := by
      refine ⟨fun h => ?_, fun c hc => hd.2 c (List.mem_of_mem_take hc)⟩
      rcases List.take_eq_nil_iff.mp h with h | h
      · omega
      · exact hd.1 h
    rw [ofUnsigned?_point htake fun c hc => hd.2 c (List.mem_of_mem_drop hc), List.take_append_drop,
      List.length_drop, show point - ds.length = -(ds.length - point.toNat : Nat) by omega]
  · -- one digit stands before the point, and the rest is told by an exponent
    refine ⟨Nat.ofDigitChars 10 ds 0, point - ds.length, ?_, rfl, id⟩
    obtain ⟨mag, hmag⟩ : ∃ mag, mag = if (Nat.toDigits 10 (point - 1).natAbs).length < 2 then
        '0' :: Nat.toDigits 10 (point - 1).natAbs else Nat.toDigits 10 (point - 1).natAbs := ⟨_, rfl⟩
    have hpower : IsDigits mag ∧ Nat.ofDigitChars 10 mag 0 = (point - 1).natAbs := by
      rw [hmag]
      split_ifs
      · exact ⟨(isDigits_toDigits _).cons rfl, Nat.ofDigitChars_ten_toDigits⟩
      · exact ⟨isDigits_toDigits _, Nat.ofDigitChars_ten_toDigits⟩
    dsimp only
    rw [← hmag]
    obtain ⟨d, es, rfl⟩ := List.exists_cons_of_ne_nil hd.1
    have hlead : IsDigits [d] := ⟨by simp, by simpa using hd.2 d List.mem_cons_self⟩
    have hstop : ∀ c, ('e' :: (if point - 1 < 0 then '-' else '+') :: mag).head? = some c →
        c.isDigit = false ∧ c ≠ '.' := by
      intro c hc
      obtain rfl : 'e' = c := by simpa using hc
      decide
    have hshift : (-Int.ofNat es.length : Int) + (point - 1) = point - (d :: es).length := by
      rw [hcast, List.length_cons, Nat.cast_add, Nat.cast_one]
      ring
    have hread {mark : List Char} (hp : mark = '.' :: es ∧ (∀ c ∈ es, c.isDigit = true) ∨
        mark = [] ∧ es = []) := (ofUnsigned?_append hlead hp hstop).trans
      ((scaled?_exponent hpower.1 (point - 1) hpower.2).trans (by rw [hshift]))
    cases es with
    | nil => exact hread (.inr ⟨rfl, rfl⟩)
    | cons e es =>
      have hes := hread (.inl ⟨rfl, fun c hc => hd.2 c (List.mem_cons_of_mem d hc)⟩)
      simpa using hes

/-! ### The text of a double -/

/-- The text of a finite double without its sign. -/
def body (m : Nat) (e : Int) : List Char :=
  if m = 0 then ['0', '.', '0']
  else
    let d := dropZeros 20 (shortest m e)
    let ds := Nat.toDigits 10 d.digits
    layout ds (d.point + Int.ofNat ds.length)

theorem toList_text_finite (negative : Bool) (m : Nat) (e : Int) :
    (finite negative m e).text.toList = (if negative then ['-'] else []) ++ body m e := by
  cases negative <;> simp [text, body]

theorem isNumeral_body (m : Nat) (e : Int) : IsNumeral (body m e) := by
  unfold body
  split_ifs
  · exact isDigits_zero.point isDigits_zero
  · exact isNumeral_layout (isDigits_toDigits _) _

theorem ofUnsigned?_body {m : Nat} {e : Int} (hf : Fits m e) :
    ofUnsigned? (body m e) = some (.finite false m e) := by
  unfold body
  split_ifs with hm
  · obtain rfl : e = minExponent := by
      rcases hf.normal with h | h
      · omega
      · exact h
    rw [hm]
    rfl
  · have hpos : 0 < m := Nat.pos_of_ne_zero hm
    obtain ⟨hdigits, hrounds⟩ := shortest_spec hf hpos
    obtain ⟨hdigits, hvalue⟩ := dropZeros_spec 20 (shortest m e) hdigits
    dsimp only
    rw [← hvalue] at hrounds
    generalize dropZeros 20 (shortest m e) = d at *
    obtain ⟨mantissa, exponent, hread, hsame, hmantissa⟩ :=
      exists_ofUnsigned?_layout (isDigits_toDigits d.digits)
        (d.point + Int.ofNat (Nat.toDigits 10 d.digits).length)
    have hcast (n : Nat) : Int.ofNat n = (n : Int) := rfl
    rw [Nat.ofDigitChars_ten_toDigits] at hsame hmantissa
    rw [hcast, add_sub_cancel_right] at hsame
    rw [hread, ofDecimal_of_rounds hf hpos (hmantissa hdigits) (hsame ▸ hrounds)]

theorem mem_digits {c : Char} (h : c.isDigit = true) :
    c ∈ ['0', '1', '2', '3', '4', '5', '6', '7', '8', '9'] := by
  simp only [Char.isDigit, Bool.and_eq_true, decide_eq_true_eq] at h
  have hlow : 48 ≤ c.toNat := h.1
  have hhigh : c.toNat ≤ 57 := h.2
  rw [← Char.ofNat_toNat c]
  generalize c.toNat = n at *
  interval_cases n <;> decide

/-- Digits are plain digits, and no capitals. -/
theorem plainDigit_of_isDigit {c : Char} (h : c.isDigit = true) :
    plainDigit c = c ∧ c.toLower.isDigit = true := by
  have hall : ['0', '1', '2', '3', '4', '5', '6', '7', '8', '9'].all
      (fun c => plainDigit c = c ∧ c.toLower.isDigit = true) := by decide
  exact of_decide_eq_true (List.all_eq_true.mp hall c (mem_digits h))

theorem dropUnderscores?_of_forall {cs : List Char} (h : ∀ c ∈ cs, c ≠ '_') {prev : Char}
    (hp : prev ≠ '_') : dropUnderscores? prev cs = some cs := by
  induction cs generalizing prev with
  | nil => rw [dropUnderscores?, if_neg hp]
  | cons c cs ih =>
    have hc := h c List.mem_cons_self
    rw [dropUnderscores?, if_neg hc, ih (fun d hd => h d (List.mem_cons_of_mem c hd)) hc]
    simp [hp]

theorem exists_cons_of_isNumeral {cs : List Char} (h : IsNumeral cs) :
    ∃ d r, cs = d :: r ∧ d.isDigit = true := by
  obtain ⟨whole, frac, exp, ⟨hne, hw⟩, -, -, rfl⟩ := h
  obtain ⟨d, r, rfl⟩ := List.exists_cons_of_ne_nil hne
  exact ⟨d, r ++ (frac ++ exp), rfl, hw d List.mem_cons_self⟩

theorem ofMagnitude?_of_isNumeral {cs : List Char} (h : IsNumeral cs) :
    ofMagnitude? cs = ofUnsigned? cs := by
  obtain ⟨d, r, rfl, hd⟩ := exists_cons_of_isNumeral h
  have hword {w : String} (hw : w.toList.head?.all (fun c => !c.isDigit) = true) :
      String.ofList ((d :: r).map Char.toLower) ≠ w := by
    rintro rfl
    simp [(plainDigit_of_isDigit hd).2] at hw
  have hinf := hword (w := "inf") (by decide)
  have hinfinity := hword (w := "infinity") (by decide)
  have hnan := hword (w := "nan") (by decide)
  simp only [ofMagnitude?, hinf, hinfinity, hnan, decide_false, Bool.or_self, Bool.false_eq_true,
    if_false]

theorem isNumberBlank_of_text {x : Double} (hx : x.isFinite = true) {c : Char}
    (h : c ∈ x.text.toList) : isNumberBlank c = false ∧ plainDigit c = c ∧ c ≠ '_' := by
  have hmark : ['.', 'e', '+', '-'].all
      (fun c => isNumberBlank c = false ∧ plainDigit c = c ∧ c ≠ '_') := by decide
  have hdigit : ['0', '1', '2', '3', '4', '5', '6', '7', '8', '9'].all
      (fun c => isNumberBlank c = false ∧ plainDigit c = c ∧ c ≠ '_') := by decide
  rcases mem_text_double hx h with h | h
  · exact of_decide_eq_true (List.all_eq_true.mp hdigit c (mem_digits h))
  · exact of_decide_eq_true (List.all_eq_true.mp hmark c h)

/-- The shortest text of a double reads back as the double. -/
theorem ofText?_text {x : Double} (hx : x.isFinite = true) (hp : x.IsProper) :
    ofText? x.text = some x := by
  have hchars : dropUnderscores? ' ' ((trim isNumberBlank x.text.toList).map plainDigit) =
      some x.text.toList := by
    have hplain := List.map_congr_left fun c hc => (isNumberBlank_of_text hx hc).2.1
    rw [trim_of_forall fun c hc => (isNumberBlank_of_text hx hc).1, hplain, List.map_id']
    exact dropUnderscores?_of_forall (fun c hc => (isNumberBlank_of_text hx hc).2.2) (by decide)
  rw [ofText?, hchars]
  cases x with
  | finite negative m e =>
    have hread : ofMagnitude? (body m e) = some (.finite false m e) :=
      (ofMagnitude?_of_isNumeral (isNumeral_body m e)).trans (ofUnsigned?_body hp)
    obtain ⟨d, r, hcons, hd⟩ := exists_cons_of_isNumeral (isNumeral_body m e)
    rw [toList_text_finite]
    cases negative with
    | true =>
      change (ofMagnitude? (body m e)).map negate = _
      rw [hread]
      rfl
    | false =>
      rw [if_neg Bool.false_ne_true, List.nil_append, ← hread]
      have hsign : d ≠ '-' ∧ d ≠ '+' := by
        constructor <;> rintro rfl <;> exact absurd hd (by decide)
      rw [hcons]
      split
      · next heq => exact absurd (List.cons.inj (Option.some.inj heq)).1 hsign.1
      · next heq => exact absurd (List.cons.inj (Option.some.inj heq)).1 hsign.2
      · next heq => rw [Option.some.inj heq]
      · next heq => cases heq
  | infinite _ => cases hx
  | nan => cases hx

/-! ### Texts that spell doubles -/

theorem isProper_scaled? {mantissa : Nat} {shift : Int} {rest : List Char} {x : Double}
    (h : scaled? mantissa shift rest = some x) : x.IsProper := by
  have hmap {f : Int → Int} {o : Option Int}
      (h : (o.map fun n => ofDecimal mantissa (f n)) = some x) : x.IsProper := by
    obtain ⟨n, -, rfl⟩ := Option.map_eq_some_iff.mp h
    exact isProper_ofDecimal mantissa (f n)
  unfold scaled? at h
  dsimp only at h
  split at h
  · cases h
    exact isProper_ofDecimal mantissa shift
  all_goals
    split at h
    · exact hmap h
    · cases h

theorem isProper_ofUnsigned? {cs : List Char} {x : Double} (h : ofUnsigned? cs = some x) :
    x.IsProper := by
  rw [ofUnsigned?_eq] at h
  dsimp only at h
  split at h
  · cases h
  · exact isProper_scaled? h

theorem isProper_ofMagnitude? {cs : List Char} {x : Double} (h : ofMagnitude? cs = some x) :
    x.IsProper := by
  unfold ofMagnitude? at h
  dsimp only at h
  split_ifs at h
  · cases h
    trivial
  · cases h
    trivial
  · exact isProper_ofUnsigned? h

/-- Whatever a text spells is in the format. -/
theorem isProper_ofText? {s : String} {x : Double} (h : ofText? s = some x) : x.IsProper := by
  unfold ofText? at h
  split at h
  · obtain ⟨y, hy, rfl⟩ := Option.map_eq_some_iff.mp h
    exact (isProper_ofMagnitude? hy).negate
  · exact isProper_ofMagnitude? h
  · exact isProper_ofMagnitude? h
  · cases h

end Double

end FluentPlan.Number
