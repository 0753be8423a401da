import Mathlib.Tactic.Common
import FluentPlan.Java.Literal
import FluentPlan.Script.Lexer

/-!
Escapes of plain literals. Resolving escapes undoes escaping, one character at a time and with any
text behind it, and the closing quote of a plain literal is found where writing put it.
-/

namespace FluentPlan.Script

open Java Text

/-! ### The three ways to write a character -/

theorem isOctal_octalDigit (n : Nat) : isOctal (octalDigit n) = true := by
  have h : ∀ d < 8, isOctal (Nat.digitChar d) = true := by decide
  exact h (n % 8) (Nat.mod_lt n (by decide))

/-- A character is written as a backslash with a letter, in octal, or as it is. -/
theorem escapeChar_cases (c : Char) :
    (∃ x, escapeChar c = ['\\', x] ∧ simpleEscape? x = some c ∧ x ≠ '\r' ∧ x ≠ '\n') ∨
      (escapeChar c = octalEscape c ∧ c.toNat < 128) ∨
      (escapeChar c = [c] ∧ c ≠ '\\' ∧ c ≠ '"' ∧ c ≠ '\n' ∧ c ≠ '\r') := by
  generalize he : escapeChar c = w
  unfold escapeChar at he
  split_ifs at he with h1 h2 h3 h4 h5 h6 h7 h8 <;> subst he
  · exact .inl ⟨_, rfl, by subst h1; decide⟩
  · exact .inl ⟨_, rfl, by subst h2; decide⟩
  · exact .inl ⟨_, rfl, by subst h3; decide⟩
  · exact .inl ⟨_, rfl, by subst h4; decide⟩
  · exact .inl ⟨_, rfl, by subst h5; decide⟩
  · exact .inl ⟨_, rfl, by subst h6; decide⟩
  · exact .inl ⟨_, rfl, by subst h7; decide⟩
  · refine .inr (.inl ⟨rfl, ?_⟩)
    rcases Bool.or_eq_true_iff.mp h8 with h | h
    · have := of_decide_eq_true h
      omega
    · rw [of_decide_eq_true h]
      decide
  · exact .inr (.inr ⟨rfl, h1, h2, h3, h4⟩)

/-! ### Resolving one escape -/

theorem unescape_simple {a x : Char} (h : simpleEscape? a = some x) (r : List Char) :
    unescape ('\\' :: a :: r) = (unescape r).map (x :: ·) := by
  match r with
  | [] => simp [unescape, h]
  | [b] => simp [unescape, h]
  | b :: c :: r => simp [unescape, h]

theorem unescape_other {c : Char} (h : c ≠ '\\') (r : List Char) :
    unescape (c :: r) = (unescape r).map (c :: ·) := by
  rw [unescape.eq_def]
  split <;> simp_all

/-- A line break behind a backslash stands for nothing. -/
theorem unescape_break (r : List Char) : unescape ('\\' :: '\n' :: r) = unescape r := by
  have h : simpleEscape? '\n' = none := by decide
  match r with
  | [] => simp [unescape, h]
  | [b] => simp [unescape, h]
  | b :: c :: r => simp [unescape, h]

/-- Three octal digits are read together when the first is at most three. -/
theorem unescape_octal {a b c : Char} (ha : simpleEscape? a = none) (hn : a ≠ '\n')
    (hoa : isOctal a = true) (hob : isOctal b = true) (hoc : isOctal c = true) (h3 : a ≤ '3')
    (r : List Char) : unescape ('\\' :: a :: b :: c :: r) =
      (unescape r).map (Char.ofNat (octalValue [a, b, c]) :: ·) := by
  simp [unescape, ha, hn, hoa, hob, hoc, h3]

/-- The digits of an octal escape below 128 are read together, and as what they were made of. -/
theorem octalEscape_digits : ∀ n < 128,
    let a := octalDigit (n / 64)
    simpleEscape? a = none ∧ a ≠ '\n' ∧ a ≤ '3' ∧
      octalValue [a, octalDigit (n / 8), octalDigit n] = n := by
  decide

theorem unescape_octalEscape {c : Char} (h : c.toNat < 128) (r : List Char) :
    unescape (octalEscape c ++ r) = (unescape r).map (c :: ·) := by
  obtain ⟨ha, hn, h3, hv⟩ := octalEscape_digits c.toNat h
  have ho := unescape_octal ha hn (isOctal_octalDigit _) (isOctal_octalDigit (c.toNat / 8))
    (isOctal_octalDigit c.toNat) h3 r
  rw [hv, Char.ofNat_toNat] at ho
  exact ho

theorem unescape_escapeChar (c : Char) (r : List Char) :
    unescape (escapeChar c ++ r) = (unescape r).map (c :: ·) := by
  rcases escapeChar_cases c with ⟨x, he, hx, -, -⟩ | ⟨he, hc⟩ | ⟨he, hc, -, -, -⟩
  · rw [he]
    exact unescape_simple hx r
  · rw [he]
    exact unescape_octalEscape hc r
  · rw [he]
    exact unescape_other hc r

theorem unescape_escape (cs r : List Char) :
    unescape (escape cs ++ r) = (unescape r).map (cs ++ ·) := by
  induction cs with
  | nil => cases h : unescape r <;> simp [h, Except.map]
  | cons c cs ih =>
    rw [escape_cons, List.append_assoc, unescape_escapeChar, ih]
    cases unescape r <;> rfl

/-! ### The end of a plain literal -/

theorem plainContent?_other {c : Char} (hb : c ≠ '\\') (hq : c ≠ '"') (hn : c ≠ '\n')
    (r : List Char) : plainContent? (c :: r) = (plainContent? r).map (c :: ·) := by
  rw [plainContent?.eq_def]
  split <;> simp_all

theorem plainContent?_octalDigit (n : Nat) (r : List Char) :
    plainContent? (octalDigit n :: r) = (plainContent? r).map (octalDigit n :: ·) := by
  have h := isOctal_octalDigit n
  apply plainContent?_other <;> (intro he; rw [he] at h; revert h; decide)

/-- What a character is written as neither ends a plain literal nor breaks its line. -/
theorem plainContent?_escapeChar (c : Char) (r : List Char) :
    plainContent? (escapeChar c ++ r) = (plainContent? r).map (escapeChar c ++ ·) := by
  rcases escapeChar_cases c with ⟨x, he, -⟩ | ⟨he, -⟩ | ⟨he, hb, hq, hn, -⟩
  · simp [he, plainContent?]
  · simp [he, octalEscape, plainContent?, plainContent?_octalDigit, Function.comp_def]
  · rw [he]
    exact plainContent?_other hb hq hn r

theorem plainContent?_escape (cs r : List Char) :
    plainContent? (escape cs ++ '"' :: r) = some (escape cs) := by
  induction cs with
  | nil => simp [plainContent?]
  | cons c cs ih =>
    rw [escape_cons, List.append_assoc, plainContent?_escapeChar, ih]
    rfl

/-! ### What escaping leaves out -/

/-- An escaped character does not begin with a quote. -/
theorem head?_escapeChar (c : Char) (r : List Char) : (escapeChar c ++ r).head? ≠ some '"' := by
  rcases escapeChar_cases c with ⟨x, he, -⟩ | ⟨he, -⟩ | ⟨he, -, hq, -⟩
  · simp [he]
  · simp [he, octalEscape]
  · simpa [he] using hq

theorem octalDigit_ne_return (n : Nat) : octalDigit n ≠ '\r' ∧ octalDigit n ≠ '\n' := by
  have h := isOctal_octalDigit n
  constructor <;> (intro he; rw [he] at h; revert h; decide)

/-- Line breaks and carriage returns are always written as escapes. -/
theorem escapeChar_no_break (c : Char) : '\r' ∉ escapeChar c ∧ '\n' ∉ escapeChar c := by
  rcases escapeChar_cases c with ⟨x, he, -, hr, hn⟩ | ⟨he, -⟩ | ⟨he, -, -, hn, hr⟩
  · simp [he, hr.symm, hn.symm]
  · simp [he, octalEscape, (octalDigit_ne_return _).1.symm, (octalDigit_ne_return _).2.symm]
  · simp [he, hr.symm, hn.symm]

theorem escape_no_return (cs : List Char) : '\r' ∉ escape cs := by
  intro h
  obtain ⟨c, -, hc⟩ := List.mem_flatMap.mp h
  exact (escapeChar_no_break c).1 hc

end FluentPlan.Script
