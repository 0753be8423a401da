import Mathlib.Data.List.DropRight
import Mathlib.Tactic.Common
import FluentPlan.Script.Token

/-!
Places of a text in closed form. A place is counted up character by character; the count comes out
as the number of line breaks in front and the number of characters behind the last of them. A longer
beginning of a text ends at a later place, so a place tells how much of its text is in front of it.
-/

namespace FluentPlan.Script.Position

/-- The place behind a text that begins at the first place. -/
def after (cs : List Char) : Position :=
  ⟨1 + cs.count '\n', 1 + (cs.rtakeWhile (· ≠ '\n')).length⟩

theorem step_after (cs : List Char) (c : Char) : (after cs).step c = after (cs ++ [c]) := by
  unfold step after
  by_cases hc : c = '\n'
  · rw [if_pos hc, hc, List.count_append, List.rtakeWhile_concat]
    simp [Nat.add_assoc]
  · rw [if_neg hc, List.count_append, List.rtakeWhile_concat]
    simp [hc, Nat.add_assoc]

theorem advance_after (cs ds : List Char) : (after cs).advance ds = after (cs ++ ds) := by
  induction ds generalizing cs with
  | nil => rw [advance_nil, List.append_nil]
  | cons d ds ih => rw [advance_cons, step_after, ih, List.append_assoc, List.singleton_append]

/-- Counting up gives the closed form. -/
theorem advance_start (cs : List Char) : start.advance cs = after cs := advance_after [] cs

/-! ### Order -/

/-- On an earlier line, or further left on the same one. -/
def Before (p q : Position) : Prop := p.line < q.line ∨ p.line = q.line ∧ p.col < q.col

theorem Before.trans {p q r : Position} (hpq : p.Before q) (hqr : q.Before r) : p.Before r := by
  unfold Before at *
  omega

theorem not_before_self (p : Position) : ¬ p.Before p := by
  unfold Before
  omega

theorem before_step (p : Position) (c : Char) : p.Before (p.step c) := by
  unfold Before step
  split
  · exact .inl (Nat.lt_succ_self p.line)
  · exact .inr ⟨rfl, Nat.lt_succ_self p.col⟩

theorem before_advance (p : Position) {cs : List Char} (h : cs ≠ []) : p.Before (p.advance cs) := by
  induction cs generalizing p with
  | nil => exact absurd rfl h
  | cons c cs ih =>
    rw [advance_cons]
    rcases eq_or_ne cs [] with rfl | hne
    · exact before_step p c
    · exact (before_step p c).trans (ih _ hne)

theorem after_before_after (cs : List Char) {ds : List Char} (h : ds ≠ []) :
    (after cs).Before (after (cs ++ ds)) := by
  rw [← advance_after]
  exact before_advance _ h

theorem eq_nil_of_after_append {cs ds : List Char} (h : after (cs ++ ds) = after cs) : ds = [] := by
  by_contra hne
  exact not_before_self (after cs) (h ▸ after_before_after cs hne)

/-- Two beginnings of one text that end at the same place are the same. -/
theorem eq_of_after_eq {cs ds r s : List Char} (htext : cs ++ r = ds ++ s)
    (h : after cs = after ds) : cs = ds := by
  rcases List.append_eq_append_iff.mp htext with ⟨m, rfl, -⟩ | ⟨m, rfl, -⟩
  · rw [eq_nil_of_after_append h.symm, List.append_nil]
  · rw [eq_nil_of_after_append h, List.append_nil]

end FluentPlan.Script.Position
