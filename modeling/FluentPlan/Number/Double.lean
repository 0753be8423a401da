/-!
Double precision numbers, held exactly: a finite one is an integer multiple of a power of two with
at most 53 significant bits. Rounding works on quotients of natural numbers, so nothing is lost
before the one rounding step.
-/

namespace FluentPlan.Number

/-- A double precision number. The value of `finite neg m e` is `m * 2 ^ e`, negated if `neg`. -/
inductive Double where
  | finite (negative : Bool) (significand : Nat) (exponent : Int)
  | infinite (negative : Bool)
  | nan
deriving DecidableEq, Repr, Inhabited

namespace Double

/-- Powers here are those of natural numbers, also where the ones of monoids are in scope. -/
local instance (priority := 2000) natPow : Pow Nat Nat := instPowNat

/-- The exponent of the smallest positive number. -/
def minExponent : Int := -1074

/-- The exponent of the largest numbers. -/
def maxExponent : Int := 971

def zero : Double := .finite false 0 minExponent

def isFinite : Double → Bool
  | .finite .. => true
  | _ => false

def negate : Double → Double
  | .finite n m e => .finite (!n) m e
  | .infinite n => .infinite (!n)
  | .nan => .nan

@[simp] theorem negate_negate (x : Double) : x.negate.negate = x := by
  cases x <;> simp [negate]

@[simp] theorem isFinite_negate (x : Double) : x.negate.isFinite = x.isFinite := by
  cases x <;> rfl

/-- Numerator and denominator of `num / den / 2 ^ e`. -/
def unscale (num den : Nat) (e : Int) : Nat × Nat :=
  if 0 ≤ e then (num, den * 2 ^ e.toNat) else (num * 2 ^ (-e).toNat, den)

/-- The integer nearest to `num / den`; a half goes to the even neighbour. -/
def roundHalfEven (num den : Nat) : Nat :=
  let q := num / den
  let twice := 2 * (num % den)
  if twice < den then q
  else if den < twice then q + 1
  else if q % 2 = 0 then q else q + 1

/-- The double nearest to the positive quotient `num / den`; a half goes to the even significand. -/
def ofQuotient (num den : Nat) : Double :=
  if num = 0 then zero
  else
    let low := max (Int.ofNat num.log2 - Int.ofNat den.log2 - 53) minExponent
    let (n, d) := unscale num den low
    let e := if n / d < 2 ^ (53 : Nat) then low else low + 1
    let (n, d) := unscale num den e
    let m := roundHalfEven n d
    let (m, e) := if m < 2 ^ (53 : Nat) then (m, e) else (2 ^ (52 : Nat), e + 1)
    if e ≤ maxExponent then .finite false m e else .infinite false

/-- The double nearest to `digits * 10 ^ exponent`. Far outside the range the answer is known
without writing the power out: at least `10 ^ 310` is infinite, less than `10 ^ (-325)` is zero. -/
def ofDecimal (digits : Nat) (exponent : Int) : Double :=
  let size := Int.ofNat (Nat.toDigits 10 digits).length + exponent
  if digits = 0 || size ≤ -325 then zero
  else if 311 ≤ size then .infinite false
  else if 0 ≤ exponent then ofQuotient (digits * 10 ^ exponent.toNat) 1
  else ofQuotient digits (10 ^ (-exponent).toNat)

/-- The double nearest to an integer. -/
def ofInt (n : Int) : Double :=
  if n < 0 then (ofQuotient n.natAbs 1).negate else ofQuotient n.natAbs 1

/-- Strips factors of two, so that equal values get equal forms: an odd significand, or zero. -/
def reduce : (fuel : Nat) → (significand : Nat) → (exponent : Int) → Nat × Int
  | 0, m, e => (m, e)
  | fuel + 1, m, e =>
    if m = 0 then (0, 0) else if m % 2 = 0 then reduce fuel (m / 2) (e + 1) else (m, e)

end Double

end FluentPlan.Number
