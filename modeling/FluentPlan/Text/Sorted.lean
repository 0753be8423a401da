/-!
Lists of texts without repetition.
-/

namespace FluentPlan.Text

/-- Keeps the first of equal texts. -/
def distinct : List String → List String
  | [] => []
  | s :: r => s :: (distinct r).filter (· ≠ s)

/-- The distinct texts of a list in increasing order. -/
def sortedDistinct (l : List String) : List String :=
  (distinct l).mergeSort fun a b => decide (a ≤ b)

@[simp] theorem mem_distinct {s : String} {l : List String} : s ∈ distinct l ↔ s ∈ l := by
  induction l with
  | nil => simp [distinct]
  | cons t r ih =>
    by_cases h : s = t <;> simp [distinct, h, ih]

theorem nodup_distinct (l : List String) : (distinct l).Nodup := by
  induction l with
  | nil => simp [distinct]
  | cons t r ih => exact List.nodup_cons.2 ⟨by simp, ih.filter _⟩

@[simp] theorem mem_sortedDistinct {s : String} {l : List String} :
    s ∈ sortedDistinct l ↔ s ∈ l := by
  rw [sortedDistinct, (List.mergeSort_perm _ _).mem_iff, mem_distinct]

end FluentPlan.Text
