import Mathlib.Data.List.Basic
import Mathlib.Data.List.DropRight
import Mathlib.Data.List.Infix
import Mathlib.Tactic.Common
import FluentPlan.Param.Argument
import FluentPlan.Proofs.Lexing.Numeral

/-!
Raw texts of properties: which of them refer to variables, what trimming leaves, and numbers that
are read as they were written.
-/

namespace FluentPlan

open Text Number Script

/-! ### References to variables -/

theorem mem_drop_of_isDynamicText {cs : List Char} (h : isDynamicText cs = true) :
    '\x7d' ∈ cs.drop 1 := by
  fun_induction isDynamicText cs with
  | case1 r =>
    have hm : '\x7d' ∈ r.drop 1 := by simpa using h
    exact List.mem_cons_of_mem _ (List.mem_of_mem_drop hm)
  | case2 c r _ ih => exact List.mem_of_mem_drop (ih h)
  | case3 => cases h

theorem dollar_mem_of_isDynamicText {cs : List Char} (h : isDynamicText cs = true) : '$' ∈ cs := by
  fun_induction isDynamicText cs with
  | case1 r => exact List.mem_cons_self
  | case2 c r _ ih => exact List.mem_cons_of_mem c (ih h)
  | case3 => cases h

theorem isDynamicText_append {cs : List Char} (h : isDynamicText cs = true) (ds : List Char) :
    isDynamicText (cs ++ ds) = true := by
  fun_induction isDynamicText cs with
  | case1 r =>
    have hm : '\x7d' ∈ r.drop 1 := by simpa using h
    have happ : '\x7d' ∈ (r ++ ds).drop 1 := by
      rw [List.drop_append]
      exact List.mem_append_left _ hm
    simpa [isDynamicText] using happ
  | case2 c r hne ih =>
    rw [List.cons_append, isDynamicText]
    · exact ih h
    · intro r' hc hr
      cases r with
      | nil => cases h
      | cons d r =>
        rw [List.cons_append] at hr
        injection hr with hd _
        exact hne r hc (by rw [hd])
  | case3 => cases h

theorem isDynamicText_cons {cs : List Char} (h : isDynamicText cs = true) (c : Char) :
    isDynamicText (c :: cs) = true := by
  by_cases hc : c = '$' ∧ cs.head? = some '\x7b'
  · obtain ⟨rfl, hd⟩ := hc
    obtain ⟨r, rfl⟩ := List.head?_eq_some_iff.mp hd
    have htail : isDynamicText r = true := by
      rw [isDynamicText] at h
      · exact h
      · intro r' hc
        cases hc
    have hm := mem_drop_of_isDynamicText htail
    simpa [isDynamicText] using hm
  · rw [isDynamicText]
    · exact h
    · intro r hd hr
      exact hc ⟨hd, by rw [hr]; rfl⟩

/-- A text with a reference inside refers to a variable. -/
theorem isDynamicText_of_isInfix {cs ds : List Char} (hi : cs <:+: ds)
    (h : isDynamicText cs = true) : isDynamicText ds = true := by
  obtain ⟨xs, ys, rfl⟩ := hi
  rw [List.append_assoc]
  induction xs with
  | nil => exact isDynamicText_append h ys
  | cons x xs ih => exact isDynamicText_cons ih x

theorem ne_empty_of_isDynamic {s : String} (h : isDynamic s = true) : s.isEmpty = false := by
  cases he : s.isEmpty with
  | false => rfl
  | true =>
    rw [String.isEmpty_iff.mp he] at h
    exact absurd h (by decide)

theorem isDynamic_of_forall {s : String} (h : ∀ c ∈ s.toList, c ≠ '$') : isDynamic s = false := by
  by_contra hd
  have hd : isDynamicText s.toList = true := by simpa [isDynamic] using hd
  exact h _ (dollar_mem_of_isDynamicText hd) rfl

/-! ### Trimming -/

theorem trim_isPrefix (p : Char → Bool) (cs : List Char) : trim p cs <+: cs.dropWhile p := by
  have h : (cs.dropWhile p).reverse.dropWhile p <:+ (cs.dropWhile p).reverse :=
    List.dropWhile_suffix p
  simpa [trim] using List.reverse_prefix.mpr h

theorem trim_isInfix (p : Char → Bool) (cs : List Char) : trim p cs <:+: cs :=
  (trim_isPrefix p cs).isInfix.trans (List.dropWhile_suffix p).isInfix

theorem dropWhile_of_forall {p : Char → Bool} {cs : List Char} (h : ∀ c ∈ cs, p c = false) :
    cs.dropWhile p = cs := by
  cases cs with
  | nil => rfl
  | cons c cs => rw [List.dropWhile_cons_of_neg (by simp [h c List.mem_cons_self])]

theorem trim_of_forall {p : Char → Bool} {cs : List Char} (h : ∀ c ∈ cs, p c = false) :
    trim p cs = cs := by
  rw [trim, dropWhile_of_forall h, dropWhile_of_forall fun c hc => h c (List.mem_reverse.mp hc),
    List.reverse_reverse]

theorem trim_trim (p : Char → Bool) (cs : List Char) : trim p (trim p cs) = trim p cs := by
  have hhead : (trim p cs).dropWhile p = trim p cs := by
    cases ht : trim p cs with
    | nil => rfl
    | cons c ds =>
      obtain ⟨es, he⟩ := trim_isPrefix p cs
      rw [ht, List.cons_append] at he
      have hne : cs.dropWhile p ≠ [] := by simp [← he]
      have hc : p c = false := by
        have := List.head_dropWhile_not p hne
        simpa [← he] using this
      rw [List.dropWhile_cons_of_neg (by simp [hc])]
  rw [trim, hhead]
  unfold trim
  rw [List.reverse_reverse, List.dropWhile_idempotent]

/-! ### Numbers -/

theorem not_isBlank_of_isDigit {c : Char} (h : c.isDigit = true) : isBlank c = false := by
  have hlow : 48 ≤ c.toNat := by
    simp only [Char.isDigit, Bool.and_eq_true, decide_eq_true_eq] at h
    exact h.1
  have hhigh : c.toNat ≤ 57 := by
    simp only [Char.isDigit, Bool.and_eq_true, decide_eq_true_eq] at h
    exact h.2
  simp only [isBlank, Bool.or_eq_false_iff, Bool.and_eq_false_iff, decide_eq_false_iff_not]
  omega

theorem dropMarks_of_forall {marks : List Char} {s : String} (h : ∀ c ∈ s.toList, c ∉ marks) :
    dropMarks marks s = s := by
  have hdrop : s.toList.reverse.dropWhile marks.contains = s.toList.reverse :=
    dropWhile_of_forall fun c hc => by simpa using h c (List.mem_reverse.mp hc)
  rw [dropMarks, hdrop, List.reverse_reverse, String.ofList_toList]

/-- The characters of an integer. -/
theorem mem_toString_int {n : Int} {c : Char} (h : c ∈ (toString n).toList) :
    c = '-' ∨ c.isDigit = true := by
  rw [toList_toString_int] at h
  rcases List.mem_append.mp h with h | h
  · split_ifs at h
    · exact .inl (List.mem_singleton.mp h)
    · cases h
  · exact .inr ((isDigits_toDigits _).2 c h)

theorem toList_toString_ne_nil (n : Int) : (toString n).toList ≠ [] := by
  rw [toList_toString_int]
  simp [Nat.toDigits_ne_nil]

theorem readNatural?_toDigits (n : Nat) : readNatural? (Nat.toDigits 10 n) = some n := by
  have h := readNatural?_toString n
  rwa [show (toString n).toList = Nat.toDigits 10 n by simp [toString, Nat.repr]] at h

/-- An integer is read as it was written. -/
theorem readInteger?_toString (n : Int) : readInteger? (toString n).toList = some n := by
  rw [toList_toString_int]
  by_cases hn : n < 0
  · rw [if_pos hn, List.singleton_append, readInteger?, readNatural?_toDigits, Option.map_some]
    congr 1
    simp only [Int.ofNat_eq_natCast]
    omega
  · obtain ⟨d, ds, hd⟩ := List.exists_cons_of_ne_nil (Nat.toDigits_ne_nil (b := 10) (n := n.natAbs))
    have hdigit : d.isDigit = true := (isDigits_toDigits n.natAbs).2 d (by simp [hd])
    have hread := readNatural?_toDigits n.natAbs
    rw [if_neg hn, List.nil_append, hd] at *
    rw [readInteger?]
    · rw [hread, Option.map_some]
      congr 1
      simp only [Int.ofNat_eq_natCast]
      omega
    · rintro cs hc
      injection hc with hc
      rw [hc] at hdigit
      exact absurd hdigit (by decide)
    · rintro cs hc
      injection hc with hc
      rw [hc] at hdigit
      exact absurd hdigit (by decide)

theorem integerOfText?_toString (n : Int) : integerOfText? (toString n) = some n := by
  rw [integerOfText?, trim_of_forall, readInteger?_toString]
  intro c hc
  rcases mem_toString_int hc with rfl | hd
  · decide
  · exact not_isBlank_of_isDigit hd

theorem not_isDynamic_toString (n : Int) : isDynamic (toString n) = false := by
  refine isDynamic_of_forall fun c hc => ?_
  rcases mem_toString_int hc with rfl | hd
  · decide
  · rintro rfl
    exact absurd hd (by decide)

theorem not_isEmpty_toString (n : Int) : (toString n).isEmpty = false := by
  rw [Bool.eq_false_iff]
  intro h
  exact toList_toString_ne_nil n (by rw [String.isEmpty_iff.mp h]; rfl)

theorem dropMarks_toString (n : Int) : dropMarks ['l', 'L'] (toString n) = toString n := by
  refine dropMarks_of_forall fun c hc => ?_
  rcases mem_toString_int hc with rfl | hd
  · decide
  · intro hm
    rcases List.mem_pair.mp hm with rfl | rfl <;> exact absurd hd (by decide)

/-- The mark of a long number is dropped, and nothing else. -/
theorem dropMarks_toString_long (n : Int) :
    dropMarks ['l', 'L'] (toString n ++ "L") = toString n := by
  have h := dropMarks_toString n
  unfold dropMarks at h ⊢
  rw [String.toList_append, List.reverse_append]
  exact h

/-- A text that is an integer but for its marks is integral. -/
theorem isIntegral_of_dropMarks {t : String} {n : Int}
    (h : dropMarks ['l', 'L'] t = toString n) : isIntegral t = true := by
  have hdigits := isDigits_toDigits n.natAbs
  have hbody : (toString n).toList.dropWhile (· = '-') = Nat.toDigits 10 n.natAbs := by
    have hdrop : (Nat.toDigits 10 n.natAbs).dropWhile (· = '-') = Nat.toDigits 10 n.natAbs := by
      refine dropWhile_of_forall fun c hc => ?_
      have hd := hdigits.2 c hc
      rw [decide_eq_false_iff_not]
      rintro rfl
      exact absurd hd (by decide)
    rw [toList_toString_int]
    split_ifs
    · rw [List.singleton_append, List.dropWhile_cons_of_pos (by decide), hdrop]
    · rw [List.nil_append, hdrop]
  rw [isIntegral, h, hbody]
  simp only [Bool.and_eq_true, Bool.not_eq_true', List.all_eq_true]
  exact ⟨by simp [Nat.toDigits_ne_nil], hdigits.2⟩

theorem isIntegral_toString (n : Int) : isIntegral (toString n) = true :=
  isIntegral_of_dropMarks (dropMarks_toString n)

/-- The characters of a finite double. -/
theorem mem_text_double {x : Number.Double} (hx : x.isFinite = true) {c : Char}
    (h : c ∈ x.text.toList) : c.isDigit = true ∨ c ∈ ['.', 'e', '+', '-'] := by
  obtain ⟨sign, cs, hs, ⟨whole, frac, exp, hw, hf, he, rfl⟩, htext⟩ := toList_text_double hx
  rw [htext] at h
  rcases List.mem_append.mp h with h | h
  · rcases hs with rfl | rfl
    · cases h
    · rw [List.mem_singleton.mp h]
      exact .inr (by decide)
  · rcases List.mem_append.mp h with h | h
    · exact .inl (hw.2 c h)
    · rcases List.mem_append.mp h with h | h
      · rcases hf with rfl | ⟨ds, hds, rfl⟩
        · cases h
        · rcases List.mem_cons.mp h with rfl | h
          · exact .inr (by decide)
          · exact .inl (hds.2 c h)
      · rcases he with rfl | ⟨sign, ds, hsign, hds, rfl⟩
        · cases h
        · rcases List.mem_cons.mp h with rfl | h
          · exact .inr (by decide)
          · rcases List.mem_cons.mp h with rfl | h
            · rcases hsign with rfl | rfl <;> exact .inr (by decide)
            · exact .inl (hds.2 c h)

end FluentPlan
