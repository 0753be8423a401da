import Mathlib.Data.List.Nodup
import Mathlib.Tactic.Common
import FluentPlan.Java.Name
import FluentPlan.Number.Integer

/-!
Names of helper methods are new. Numbers are tried in turn, and as many tries as there are taken
names leave one that is free. A number at its end also tells a name from the reserved words.
-/

namespace FluentPlan.Java

open Number

theorem numbered_injective (base : String) :
    Function.Injective fun i : Nat => base ++ toString i := by
  intro i j h
  have hlist : base.toList ++ (toString i).toList = base.toList ++ (toString j).toList := by
    simpa only [String.toList_append] using congrArg String.toList h
  have hread := readNatural?_toString i
  rw [List.append_cancel_left hlist, readNatural?_toString j] at hread
  exact (Option.some.inj hread).symm

/-- Not more numbered names are taken than there are taken names. -/
theorem le_length_of_numbered_mem {base : String} {taken : List String} {count : Nat}
    (h : ∀ i < count, base ++ toString (2 + i) ∈ taken) : count ≤ taken.length := by
  have hinj : Function.Injective fun i : Nat => base ++ toString (2 + i) := by
    intro i j hij
    have := numbered_injective base hij
    omega
  have hnodup := List.nodup_range (n := count).map hinj
  have hsub : (List.range count).map (fun i => base ++ toString (2 + i)) ⊆ taken := by
    intro name hn
    obtain ⟨i, hi, rfl⟩ := List.mem_map.mp hn
    exact h i (List.mem_range.mp hi)
  have hlen := hnodup.length_le_of_subset hsub
  rwa [List.length_map, List.length_range] at hlen

/-- The invariant of the search: all numbers tried so far are taken. -/
theorem numberedName_not_mem {base : String} {taken : List String} {fuel : Nat} (tried : Nat)
    (hf : tried + fuel = taken.length) (h : ∀ i < tried, base ++ toString (2 + i) ∈ taken) :
    numberedName base taken fuel (2 + tried) ∉ taken := by
  have hnext (hm : base ++ toString (2 + tried) ∈ taken) :
      ∀ i < tried + 1, base ++ toString (2 + i) ∈ taken := by
    intro i hi
    rcases Nat.lt_succ_iff_lt_or_eq.mp hi with hi | rfl
    · exact h i hi
    · exact hm
  induction fuel generalizing tried with
  | zero =>
    intro hm
    have := le_length_of_numbered_mem (hnext hm)
    omega
  | succ fuel ih =>
    unfold numberedName
    simp only
    split_ifs with hm
    · have hm' := hnext (by simpa using hm)
      refine ih (tried + 1) (by omega) hm' fun hm'' i hi => ?_
      rcases Nat.lt_succ_iff_lt_or_eq.mp hi with hi | rfl
      · exact hm' i hi
      · exact hm''
    · simpa using hm

/-- A unique name is none of the names that are taken. -/
theorem uniqueName_not_mem (base : String) (taken : List String) :
    uniqueName base taken ∉ taken := by
  unfold uniqueName
  split_ifs with h
  · intro hm
    simp [hm] at h
  · exact numberedName_not_mem 0 (by omega) nofun

theorem exists_numberedName (base : String) (taken : List String) (fuel index : Nat) :
    ∃ i : Nat, numberedName base taken fuel index = base ++ toString i := by
  induction fuel generalizing index with
  | zero => exact ⟨index, rfl⟩
  | succ fuel ih =>
    unfold numberedName
    simp only
    split_ifs
    · exact ih (index + 1)
    · exact ⟨index, rfl⟩

/-- A unique name is the one asked for, if that is not reserved, or it ends in a number. -/
theorem uniqueName_cases (base : String) (taken : List String) :
    (uniqueName base taken = base ∧ base ∉ reservedWords) ∨
      ∃ i : Nat, uniqueName base taken = base ++ toString i := by
  unfold uniqueName
  split_ifs with h
  · simp only [Bool.and_eq_true, Bool.not_eq_true', List.contains_eq_mem, decide_eq_false_iff_not] at h
    exact .inl ⟨rfl, h.2⟩
  · exact .inr (exists_numberedName base taken taken.length 2)

/-- The words that the language keeps for itself: with `_`, which names nothing since Java 9. -/
def keywords : List String := "_" :: reservedWords

theorem getLast?_numbered (base : String) (i : Nat) :
    ∃ c, (base ++ toString i).toList.getLast? = some c ∧ c.isDigit = true := by
  have hdigits : (toString i).toList = Nat.toDigits 10 i := Nat.toList_repr
  obtain ⟨ds, c, hc⟩ := List.eq_nil_or_concat (Nat.toDigits 10 i) |>.resolve_left
    Nat.toDigits_ne_nil
  have hmem : c ∈ Nat.toDigits 10 i := by simp [hc]
  refine ⟨c, ?_, Nat.isDigit_of_mem_toDigits (by decide) (by decide) hmem⟩
  rw [String.toList_append, hdigits, hc, List.concat_eq_append, ← List.append_assoc,
    List.getLast?_concat]

/-- No word of the language ends in a digit. -/
theorem numbered_not_mem_keywords (base : String) (i : Nat) : base ++ toString i ∉ keywords := by
  have hlast : ∀ word ∈ keywords, ∀ c ∈ word.toList.getLast?, c.isDigit = false := by
    simp [keywords, reservedWords]
  obtain ⟨c, hc, hdigit⟩ := getLast?_numbered base i
  intro hm
  rw [hlast _ hm c hc] at hdigit
  cases hdigit

/-- Only where `_` is asked for can a unique name be a word of the language, and then it is `_`. -/
theorem eq_underscore_of_mem_keywords {base : String} {taken : List String}
    (h : uniqueName base taken ∈ keywords) : uniqueName base taken = "_" ∧ base = "_" := by
  rcases uniqueName_cases base taken with ⟨heq, hbase⟩ | ⟨i, heq⟩
  · rw [heq] at h ⊢
    have := (List.mem_cons.mp h).resolve_right hbase
    exact ⟨this, this⟩
  · rw [heq] at h
    exact absurd h (numbered_not_mem_keywords base i)

end FluentPlan.Java
