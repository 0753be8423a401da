import Mathlib.Data.List.Basic
import Mathlib.Tactic.Common
import FluentPlan.Proofs.Literal.Escape

/-!
Lines of text blocks. A line is written so that resolving its escapes gives it back, that no three
bare quotes stand together in it, and that no blank stands at its end, where the reader of a text
block would drop it.
-/

namespace FluentPlan.Script

open Java Text

/-! ### One line -/

theorem not_isIndent_of_simpleEscape? {x c : Char} (h : simpleEscape? x = some c) :
    isIndent x = false := by
  by_contra hx
  rcases Bool.or_eq_true_iff.mp (Bool.of_not_eq_false hx) with hb | hb
  · rw [of_decide_eq_true hb, show simpleEscape? ' ' = none by decide] at h
    cases h
  · rw [of_decide_eq_true hb, show simpleEscape? '\t' = none by decide] at h
    cases h

theorem not_isIndent_octalDigit (n : Nat) : isIndent (octalDigit n) = false := by
  have h : ∀ d < 8, isIndent (Nat.digitChar d) = false := by decide
  exact h (n % 8) (Nat.mod_lt n (by decide))

theorem unescape_escapeBlockLine (q : Nat) (cs r : List Char) :
    unescape (escapeBlockLine q cs ++ r) = (unescape r).map (cs ++ ·) := by
  induction cs generalizing q with
  | nil => cases h : unescape r <;> simp [escapeBlockLine, h, Except.map]
  | cons c cs ih =>
    have hmap : ((unescape r).map (cs ++ ·)).map (c :: ·) = (unescape r).map (c :: cs ++ ·) := by
      cases unescape r <;> rfl
    unfold escapeBlockLine
    split_ifs with hq h3 hb ht hc
    · subst hq
      rw [List.append_assoc, ← hmap, ← ih]
      exact unescape_simple rfl _
    · subst hq
      rw [List.append_assoc, ← hmap, ← ih]
      exact unescape_other (by decide) _
    · subst hb
      rw [← hmap, ← ih]
      exact unescape_simple rfl _
    · subst ht
      rw [← hmap, ← ih]
      exact unescape_other (by decide) _
    · rw [List.append_assoc, ← hmap, ← ih]
      exact unescape_escapeChar c _
    · rw [← hmap, ← ih]
      exact unescape_other hb _

/-- What is written for the end of a line depends on the rest only through its quotes. -/
theorem escapeBlockLine_append (q : Nat) (cs ds : List Char) :
    ∃ p, escapeBlockLine q (cs ++ ds) = escapeBlockLine q cs ++ escapeBlockLine p ds := by
  induction cs generalizing q with
  | nil => exact ⟨q, rfl⟩
  | cons c cs ih =>
    simp only [List.cons_append, escapeBlockLine]
    split_ifs
    · obtain ⟨p, hp⟩ := ih (q + 1)
      exact ⟨p, by rw [hp, List.append_assoc]⟩
    · obtain ⟨p, hp⟩ := ih (q + 1)
      exact ⟨p, by rw [hp, List.append_assoc]⟩
    all_goals
      obtain ⟨p, hp⟩ := ih 0
      exact ⟨p, by simp [hp]⟩

theorem escapeBlockLine_indent {c : Char} (h : isIndent c = true) (q : Nat) :
    escapeBlockLine q [c] = [c] := by
  rcases Bool.or_eq_true_iff.mp h with hb | hb
  · rw [of_decide_eq_true hb]
    simp [escapeBlockLine]
  · rw [of_decide_eq_true hb]
    simp [escapeBlockLine]

/-- A character other than a blank is written with a last character other than a blank. -/
theorem escapeBlockLine_not_indent {c : Char} (h : isIndent c = false) (q : Nat) :
    ∃ s d, escapeBlockLine q [c] = s ++ [d] ∧ isIndent d = false := by
  simp only [escapeBlockLine, List.append_nil]
  split_ifs with hq h3 hb ht hc
  · exact ⟨['\\'], '"', rfl, rfl⟩
  · exact ⟨[], '"', rfl, rfl⟩
  · exact ⟨['\\'], '\\', rfl, rfl⟩
  · exact ⟨[], '\t', rfl, by rw [← ht]; exact h⟩
  · rcases escapeChar_cases c with ⟨x, he, hx, -⟩ | ⟨he, -⟩ | ⟨he, -⟩
    · exact ⟨['\\'], x, he, not_isIndent_of_simpleEscape? hx⟩
    · exact ⟨['\\', octalDigit (c.toNat / 64), octalDigit (c.toNat / 8)], octalDigit c.toNat, he,
        not_isIndent_octalDigit _⟩
    · exact ⟨[], c, he, h⟩
  · exact ⟨[], c, rfl, h⟩

theorem protectEnd_indent {c : Char} (h : isIndent c = true) (t : List Char) :
    ∃ x, protectEnd (t ++ [c]) = t ++ ['\\', x] ∧ simpleEscape? x = some c := by
  rcases Bool.or_eq_true_iff.mp h with hb | hb
  · rw [of_decide_eq_true hb]
    exact ⟨'s', by simp [protectEnd], rfl⟩
  · rw [of_decide_eq_true hb]
    exact ⟨'t', by simp [protectEnd], rfl⟩

theorem protectEnd_not_indent {c : Char} (h : isIndent c = false) (t : List Char) :
    protectEnd (t ++ [c]) = t ++ [c] := by
  have hs : c ≠ ' ' ∧ c ≠ '\t' := by simpa [isIndent] using h
  simp [protectEnd, hs.1, hs.2]

/-- The last character of a line, if it has one, is either no blank or written as an escape. -/
theorem blockLine_cases (l : List Char) :
    l = [] ∨
      (blockLine l = escapeBlockLine 0 l ∧ ∃ s d, blockLine l = s ++ [d] ∧ isIndent d = false) ∨
      ∃ m c x, l = m ++ [c] ∧ simpleEscape? x = some c ∧
        blockLine l = escapeBlockLine 0 m ++ ['\\', x] := by
  rcases List.eq_nil_or_concat' l with rfl | ⟨m, c, rfl⟩
  · exact .inl rfl
  · obtain ⟨q, hq⟩ := escapeBlockLine_append 0 m [c]
    cases hc : isIndent c with
    | true =>
      obtain ⟨x, hp, hx⟩ := protectEnd_indent hc (escapeBlockLine 0 m)
      refine .inr (.inr ⟨m, c, x, rfl, hx, ?_⟩)
      rw [blockLine, hq, escapeBlockLine_indent hc, hp]
    | false =>
      obtain ⟨s, d, hs, hd⟩ := escapeBlockLine_not_indent hc q
      have he : blockLine (m ++ [c]) = escapeBlockLine 0 (m ++ [c]) := by
        rw [blockLine, hq, hs, ← List.append_assoc, protectEnd_not_indent hd]
      refine .inr (.inl ⟨he, escapeBlockLine 0 m ++ s, d, ?_, hd⟩)
      rw [he, hq, hs, List.append_assoc]

theorem blockLine_nil : blockLine [] = [] := rfl

/-- The written form of a line that is not empty ends in something other than a blank. -/
theorem blockLine_end {l : List Char} (h : l ≠ []) :
    ∃ s d, blockLine l = s ++ [d] ∧ isIndent d = false := by
  rcases blockLine_cases l with rfl | ⟨-, he⟩ | ⟨m, c, x, -, hx, he⟩
  · exact absurd rfl h
  · exact he
  · exact ⟨escapeBlockLine 0 m ++ ['\\'], x, by simp [he], not_isIndent_of_simpleEscape? hx⟩

theorem unescape_blockLine (l r : List Char) :
    unescape (blockLine l ++ r) = (unescape r).map (l ++ ·) := by
  rcases blockLine_cases l with rfl | ⟨he, -⟩ | ⟨m, c, x, rfl, hx, he⟩
  · exact unescape_escapeBlockLine 0 [] r
  · rw [he, unescape_escapeBlockLine]
  · rw [he, List.append_assoc, unescape_escapeBlockLine]
    have hs : unescape (['\\', x] ++ r) = (unescape r).map (c :: ·) := unescape_simple hx r
    rw [hs]
    cases unescape r <;> simp [Except.map]

/-! ### The end of a text block -/

theorem blockContent?_other {c : Char} (hb : c ≠ '\\') (hq : c ≠ '"') (r : List Char) :
    blockContent? (c :: r) = (blockContent? r).map (c :: ·) := by
  rw [blockContent?.eq_def]
  split <;> simp_all

theorem blockContent?_quote {r : List Char} (h : r.take 2 ≠ ['"', '"']) :
    blockContent? ('"' :: r) = (blockContent? r).map ('"' :: ·) := by
  simp [blockContent?, h]

theorem blockContent?_escape (c : Char) (r : List Char) :
    blockContent? ('\\' :: c :: r) = (blockContent? r).map ('\\' :: c :: ·) := by
  simp [blockContent?]

theorem blockContent?_octalDigit (n : Nat) (r : List Char) :
    blockContent? (octalDigit n :: r) = (blockContent? r).map (octalDigit n :: ·) := by
  have h := isOctal_octalDigit n
  apply blockContent?_other <;> (intro he; rw [he] at h; revert h; decide)

theorem blockContent?_escapeChar (c : Char) (r : List Char) :
    blockContent? (escapeChar c ++ r) = (blockContent? r).map (escapeChar c ++ ·) := by
  rcases escapeChar_cases c with ⟨x, he, -⟩ | ⟨he, -⟩ | ⟨he, hb, hq, -⟩
  · simp [he, blockContent?_escape]
  · simp [he, octalEscape, blockContent?_escape, blockContent?_octalDigit, Function.comp_def]
  · rw [he]
    exact blockContent?_other hb hq r

/-- A line begins with a bare quote only if it is one and no two stand before it. -/
theorem head?_escapeBlockLine (q : Nat) (cs : List Char) {r : List Char} (h : r.head? ≠ some '"')
    (hq : q % 3 = 2 ∨ cs.head? ≠ some '"') : (escapeBlockLine q cs ++ r).head? ≠ some '"' := by
  cases cs with
  | nil => exact h
  | cons c cs =>
    unfold escapeBlockLine
    split_ifs with hc h3 hb ht hx
    · simp
    · subst hc
      exact absurd rfl (hq.resolve_left h3)
    · simp
    · simp
    · rw [List.append_assoc]
      exact head?_escapeChar c _
    · simpa using hc

/-- Behind one bare quote there are not two more. -/
theorem take_escapeBlockLine (q : Nat) (cs : List Char) {r : List Char} (h : r.head? ≠ some '"')
    (hq : q % 3 ≠ 0) : (escapeBlockLine q cs ++ r).take 2 ≠ ['"', '"'] := by
  intro ht
  have hhead : (escapeBlockLine q cs ++ r).head? = some '"' := by
    cases he : escapeBlockLine q cs ++ r <;> simp_all
  have hq2 : q % 3 ≠ 2 ∧ cs.head? = some '"' := by
    by_contra hn
    exact head?_escapeBlockLine q cs h (by tauto) hhead
  cases cs with
  | nil => simp at hq2
  | cons c cs =>
    obtain rfl : c = '"' := by simpa using hq2.2
    have hnext := head?_escapeBlockLine (q + 1) cs h (.inl (by omega))
    simp only [escapeBlockLine, if_true, hq2.1, if_false] at ht
    cases hs : escapeBlockLine (q + 1) cs ++ r <;> simp_all

/-- The closing quotes of a text block are not found inside a line. -/
theorem blockContent?_escapeBlockLine (q : Nat) (cs : List Char) {r : List Char}
    (h : r.head? ≠ some '"') : blockContent? (escapeBlockLine q cs ++ r) =
      (blockContent? r).map (escapeBlockLine q cs ++ ·) := by
  induction cs generalizing q with
  | nil => simp [escapeBlockLine]
  | cons c cs ih =>
    unfold escapeBlockLine
    split_ifs with hq h3 hb ht hc
    · simp [blockContent?_escape, ih, Function.comp_def]
    · have hn := take_escapeBlockLine (q + 1) cs h (by omega)
      simp [blockContent?_quote hn, ih, Function.comp_def]
    · simp [blockContent?_escape, ih, Function.comp_def]
    · simp [blockContent?_other, ih, Function.comp_def]
    · simp [blockContent?_escapeChar, ih, Function.comp_def]
    · simp [blockContent?_other hb hq, ih, Function.comp_def]

theorem blockContent?_blockLine (l : List Char) {r : List Char} (h : r.head? ≠ some '"') :
    blockContent? (blockLine l ++ r) = (blockContent? r).map (blockLine l ++ ·) := by
  rcases blockLine_cases l with rfl | ⟨he, -⟩ | ⟨m, c, x, rfl, -, he⟩
  · simp [blockLine_nil]
  · rw [he, blockContent?_escapeBlockLine 0 l h]
  · have hs : (['\\', x] ++ r).head? ≠ some '"' := by simp
    rw [he, List.append_assoc, blockContent?_escapeBlockLine 0 m hs]
    simp [blockContent?_escape, Function.comp_def]

/-! ### What lines leave out -/

theorem escapeBlockLine_no_break (q : Nat) (cs : List Char) :
    '\r' ∉ escapeBlockLine q cs ∧ '\n' ∉ escapeBlockLine q cs := by
  induction cs generalizing q with
  | nil => simp [escapeBlockLine]
  | cons c cs ih =>
    have he := escapeChar_no_break c
    unfold escapeBlockLine
    split_ifs with hq h3 hb ht hc
    · simp [ih]
    · simp [ih]
    · simp [ih]
    · simp [ih]
    · simp [ih, he]
    · have hr : c ≠ '\r' ∧ c ≠ '\n' := by
        constructor <;> (rintro rfl; simp at hc)
      simp [ih, hr.1.symm, hr.2.symm]

theorem blockLine_no_break (l : List Char) : '\r' ∉ blockLine l ∧ '\n' ∉ blockLine l := by
  rcases blockLine_cases l with rfl | ⟨he, -⟩ | ⟨m, c, x, -, hx, he⟩
  · simp [blockLine_nil]
  · rw [he]
    exact escapeBlockLine_no_break 0 l
  · have hm := escapeBlockLine_no_break 0 m
    have hr : x ≠ '\r' ∧ x ≠ '\n' := by
      constructor <;> (rintro rfl; revert hx; simp [simpleEscape?, List.lookup_cons])
    simp [he, hm, hr.1.symm, hr.2.symm]

end FluentPlan.Script
