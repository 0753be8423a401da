import FluentPlan.Number.Double

/-!
The shortest decimal text of a double: the fewest digits that read back as the same number, and of
those the nearest. For each digit count the two neighbours of the value on that decimal grid are
tested against the interval of reals that round to the value.
-/

namespace FluentPlan.Number

/-- A positive decimal `0.d₁d₂… * 10 ^ point`, with the digits as one number. -/
structure Decimal where
  digits : Nat
  point : Int
deriving DecidableEq, Repr

namespace Double

/-- Powers here are those of natural numbers, also where the ones of monoids are in scope. -/
local instance (priority := 2000) gridPow : Pow Nat Nat := instPowNat

/-- The reals that round to `m * 2 ^ e`, in units of `2 ^ (e - 2)`: both ends, and whether they
belong to it. Below a power of two the grid is twice as fine. -/
def interval (m : Nat) (e : Int) : Nat × Nat × Bool :=
  let down := if m = 2 ^ (52 : Nat) && minExponent < e then 1 else 2
  (4 * m - down, 4 * m + 2, m % 2 = 0)

/-- Numerator and denominator of `num / den * 10 ^ k`. -/
def scaleTen (num den : Nat) (k : Int) : Nat × Nat :=
  if 0 ≤ k then (num * 10 ^ k.toNat, den) else (num, den * 10 ^ (-k).toNat)

/-- The least `point` with `num / den < 10 ^ point`, looked for upwards from `k`. -/
def findPoint : (fuel : Nat) → (num den : Nat) → (k : Int) → Int
  | 0, _, _, k => k
  | fuel + 1, num, den, k =>
    let (n, d) := scaleTen num den (-k)
    if n < d then k else findPoint fuel num den (k + 1)

/-- The decimal with the fewest digits, at most `n + fuel`, that rounds to the number. -/
def searchDigits (m : Nat) (e : Int) (point : Int) : (fuel n : Nat) → Decimal
  | 0, n => ⟨4 * m, point - n⟩
  | fuel + 1, n =>
    let (lo, hi, closed) := interval m e
    let unit := unscale 1 1 (2 - e)
    let grid := scaleTen unit.1 unit.2 (Int.ofNat n - point)
    -- the value, and the ends of its interval, on a grid of `n` digits
    let value := 4 * m * grid.1
    let inside (c : Nat) : Bool :=
      let x := c * grid.2
      (lo * grid.1 < x && x < hi * grid.1) || (closed && (x = lo * grid.1 || x = hi * grid.1))
    let c := value / grid.2
    let below := inside c && 0 < c
    let above := inside (c + 1)
    let twice := 2 * (value % grid.2)
    if below && above then
      if twice < grid.2 || (twice = grid.2 && c % 2 = 0) then ⟨c, point - n⟩
      else ⟨c + 1, point - n⟩
    else if below then ⟨c, point - n⟩
    else if above then ⟨c + 1, point - n⟩
    else searchDigits m e point fuel (n + 1)

/-- The shortest decimal of a positive finite number, as `digits * 10 ^ point`. -/
def shortest (m : Nat) (e : Int) : Decimal :=
  let (num, den) := unscale m 1 (-e)
  let estimate := (Int.ofNat m.log2 + e) * 301 / 1000 - 1
  searchDigits m e (findPoint 5 num den estimate) 18 1

/-- Drops the zeros at the end of a number, moving the point along. -/
def dropZeros : (fuel : Nat) → Decimal → Decimal
  | 0, d => d
  | fuel + 1, d =>
    if d.digits % 10 = 0 && d.digits ≠ 0 then dropZeros fuel ⟨d.digits / 10, d.point + 1⟩ else d

/-- Places the point among the digits: positional from `0.0001` up to below `10 ^ 16`, otherwise
with an exponent of at least two digits. A whole number keeps one zero after the point. -/
def layout (digits : List Char) (point : Int) : List Char :=
  if -4 < point && point ≤ 16 then
    if point ≤ 0 then '0' :: '.' :: List.replicate (-point).toNat '0' ++ digits
    else if Int.ofNat digits.length ≤ point then
      digits ++ List.replicate (point.toNat - digits.length) '0' ++ ['.', '0']
    else digits.take point.toNat ++ '.' :: digits.drop point.toNat
  else
    let lead := match digits with
      | [] => []
      | [d] => [d]
      | d :: ds => d :: '.' :: ds
    let power := point - 1
    let mag := Nat.toDigits 10 power.natAbs
    let mag := if mag.length < 2 then '0' :: mag else mag
    lead ++ 'e' :: (if power < 0 then '-' else '+') :: mag

/-- The shortest text that reads back as the number. -/
def text : Double → String
  | .nan => "nan"
  | .infinite neg => if neg then "-inf" else "inf"
  | .finite neg m e =>
    let body :=
      if m = 0 then ['0', '.', '0']
      else
        let d := dropZeros 20 (shortest m e)
        let ds := Nat.toDigits 10 d.digits
        layout ds (d.point + Int.ofNat ds.length)
    String.ofList (if neg then '-' :: body else body)

end Double

end FluentPlan.Number
