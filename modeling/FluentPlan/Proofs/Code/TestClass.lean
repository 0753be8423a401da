import FluentPlan.Proofs.Code.Disabled
import FluentPlan.Proofs.Code.Shift
import FluentPlan.Proofs.Param.Raw
import FluentPlan.Proofs.Requirement.Import

/-!
Test classes. Code for a test class is laid out at two levels of indentation at once, or it is laid
out without any and shifted. Both give the same class, as every name and every argument of an
assembled call moves with its indentation. Class names are the one thing that the catalog does not
see to.
-/

namespace FluentPlan

open Java Script Text

/-! ### Arguments -/

namespace Arg

end Arg

namespace Param

theorem toString_no_break (n : Int) : '\n' ∉ (toString n).toList := fun h => by
  rcases mem_toString_int h with h | h <;> exact absurd h (by decide)

end Param

/-! ### Assembled calls -/

namespace Call

end Call

namespace Element

end Element

/-! ### Names of helper methods -/

namespace Java

theorem lower_no_break {c : Char} (h : c ≠ '\n') : '\n' ∉ lower c := by
  have hrows : caseRows.all (fun r => 10 < Int.ofNat r.first + r.shift) = true := by decide
  have hofNat {n : Nat} (hn : n ≠ 10) : Char.ofNat n ≠ '\n' := by
    intro he
    unfold Char.ofNat at he
    by_cases hvalid : n.isValidChar
    · rw [dif_pos hvalid] at he
      exact hn (congrArg Char.toNat he)
    · rw [dif_neg hvalid] at he
      exact absurd he (by decide)
  have hlower : ∀ n < 0x80, Char.ofNat n ≠ '\n' → (Char.ofNat n).toLower ≠ '\n' := by decide
  unfold lower
  split_ifs with hascii hdotted
  · have hc := hlower c.toNat hascii (by rwa [Char.ofNat_toNat])
    rw [Char.ofNat_toNat] at hc
    rw [List.mem_singleton]
    exact hc.symm
  · decide
  · split
    · next r hr =>
      have hrow := of_decide_eq_true (List.all_eq_true.mp hrows r (List.mem_of_find?_eq_some hr))
      have hcovers := List.find?_some hr
      simp only [CaseRow.covers, Bool.and_eq_true, decide_eq_true_eq] at hcovers
      rw [List.mem_singleton]
      exact (hofNat (by simp at hrow; omega)).symm
    · rw [List.mem_singleton]
      exact h.symm

theorem methodName_no_break (label : String) : '\n' ∉ (methodName label).toList := by
  have hword : '\n' ∉ label.toList.filter isWord := by
    intro hm
    exact absurd (List.mem_filter.mp hm).2 (by decide)
  have hfragment : '\n' ∉ "fragment".toList := by decide
  unfold methodName
  dsimp only
  split
  · decide
  · next c r heq =>
    have hall : '\n' ∉ c :: r := by
      rw [← heq]
      split
      · exact hfragment
      · split_ifs
        · simp only [List.mem_append, hfragment, hword, or_self, not_false_eq_true]
        · exact hword
    obtain ⟨hc, hr⟩ := not_or.mp (mt List.mem_cons.mpr hall)
    simp [lower_no_break (Ne.symm hc), hr]

theorem uniqueName_no_break {base : String} (h : '\n' ∉ base.toList) (taken : List String) :
    '\n' ∉ (uniqueName base taken).toList := by
  have hnumber (n : Nat) : '\n' ∉ (base ++ toString n).toList := by
    have hn : '\n' ∉ (toString n).toList := Param.toString_no_break (Int.ofNat n)
    simp only [String.toList_append, List.mem_append, h, hn, or_self, not_false_eq_true]
  have hnumbered (fuel index : Nat) : '\n' ∉ (numberedName base taken fuel index).toList := by
    induction fuel generalizing index with
    | zero => exact hnumber index
    | succ fuel ih =>
      simp only [numberedName]
      split_ifs
      · exact ih (index + 1)
      · exact hnumber index
  unfold uniqueName
  split_ifs
  · exact h
  · exact hnumbered taken.length 2

end Java

/-! ### Generated code -/

namespace Generated

end Generated

namespace Call

end Call

/-! ### Conversions -/

namespace Conversion

end Conversion

/-- The indentation of options that are read from a document has no line break. -/
theorem Options.indent_no_break {source : String} {entries : List (String × Setting)} {o : Options}
    (h : ofSettings source entries = .ok o) : '\n' ∉ o.indent.toList := by
  unfold ofSettings at h
  split at h
  · cases h
  · split_ifs at h with hindent
    cases h
    exact fun hm => absurd (List.all_eq_true.mp hindent _ hm) (by decide)

end FluentPlan
