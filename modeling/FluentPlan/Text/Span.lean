/-!
Sets of code points kept as increasing spans.
-/

namespace FluentPlan.Text

/-- Whether `n` lies in one of the spans, which are in increasing order. -/
def inSpans : List (Nat × Nat) → Nat → Bool
  | [], _ => false
  | (lo, hi) :: rest, n => if n < lo then false else n ≤ hi || inSpans rest n

@[simp] theorem inSpans_nil (n : Nat) : inSpans [] n = false := rfl

theorem inSpans_of_lt {lo hi n : Nat} (rest : List (Nat × Nat)) (h : n < lo) :
    inSpans ((lo, hi) :: rest) n = false := by
  simp [inSpans, h]

end FluentPlan.Text
