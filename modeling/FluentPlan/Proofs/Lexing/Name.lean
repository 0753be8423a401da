import Mathlib
import FluentPlan.Proofs.Hoisting.Name
import FluentPlan.Proofs.Lexing.Lexeme

/-!
Names of helper methods as tokens. A name is made of the word characters of a label, and identifiers
have fewer: no digits and numerals of other scripts. Lower case turns letters into letters, with one
exception. So it is a matter of the label alone whether a name is an identifier.
-/

namespace FluentPlan

/-! ### Lower case -/

namespace Text

/-- Whether the spans hold all of `lo` to `hi` or nothing of it, if one or the other. -/
def wholly? : List (Nat × Nat) → (lo hi : Nat) → Option Bool
  | [], _, _ => some false
  | (first, last) :: rest, lo, hi =>
    bif Nat.blt lo first then bif Nat.blt hi first then some false else none
    else bif Nat.blt last lo then wholly? rest lo hi
    else bif Nat.ble hi last then some true else none

theorem inSpans_of_wholly? {spans : List (Nat × Nat)} {lo hi : Nat} {b : Bool}
    (h : wholly? spans lo hi = some b) {n : Nat} (hl : lo ≤ n) (hh : n ≤ hi) :
    inSpans spans n = b := by
  induction spans with
  | nil => exact Option.some.inj h
  | cons span rest ih =>
    obtain ⟨first, last⟩ := span
    unfold wholly? at h
    simp only [cond_eq_ite, Nat.blt_eq, Nat.ble_eq] at h
    split_ifs at h with hbelow habove hbehind hin
    · rw [inSpans_of_lt rest (by omega)]
      exact Option.some.inj h
    · rw [← ih h, inSpans, if_neg (by omega), decide_eq_false (by omega), Bool.false_or]
    · rw [inSpans, if_neg (by omega), decide_eq_true (by omega), Bool.true_or]
      exact Option.some.inj h

/-- Whether the first spans lie below a bound. -/
def areBelow (spans : List (Nat × Nat)) (bound : Nat) : Bool :=
  spans.all fun s => Nat.ble s.1 bound && Nat.blt s.2 bound

theorem inSpans_drop {spans : List (Nat × Nat)} {k bound n : Nat}
    (h : areBelow (spans.take k) bound = true) (hn : bound ≤ n) :
    inSpans (spans.drop k) n = inSpans spans n := by
  induction spans generalizing k with
  | nil => rw [List.drop_nil]
  | cons span rest ih =>
    cases k with
    | zero => rfl
    | succ k =>
      obtain ⟨first, last⟩ := span
      simp only [areBelow, List.take_succ_cons, List.all_cons, Bool.and_eq_true, Nat.ble_eq,
        Nat.blt_eq] at h
      rw [List.drop_succ_cons, ih h.2, inSpans, if_neg (by omega), decide_eq_false (by omega),
        Bool.false_or]

/-- Whether all of `lo` to `hi` are letters or none, if one or the other. The search starts close to
where the later rows of the table are, not at the first of the spans. -/
def whollyLetters? (lo hi : Nat) : Option Bool :=
  bif Nat.ble 0xA640 lo then wholly? (letterSpans.drop 302) lo hi
  else bif Nat.ble 0x1C80 lo then wholly? (letterSpans.drop 223) lo hi
  else wholly? letterSpans lo hi

theorem inSpans_of_whollyLetters? {lo hi : Nat} {b : Bool} (h : whollyLetters? lo hi = some b)
    {n : Nat} (hl : lo ≤ n) (hh : n ≤ hi) : inSpans letterSpans n = b := by
  have hbelow : areBelow (letterSpans.take 302) 0xA640 = true ∧
      areBelow (letterSpans.take 223) 0x1C80 = true := by
    decide +kernel
  simp only [whollyLetters?, cond_eq_ite, Nat.ble_eq] at h
  split_ifs at h with hlast hlater
  · rw [← inSpans_drop hbelow.1 (by omega)]
    exact inSpans_of_wholly? h hl hh
  · rw [← inSpans_drop hbelow.2 (by omega)]
    exact inSpans_of_wholly? h hl hh
  · exact inSpans_of_wholly? h hl hh

namespace CaseRow

/-- Where a row moves a code point. -/
def moved (r : CaseRow) (n : Nat) : Nat := (n + r.shift).toNat

/-- The code points of a row. -/
def points (r : CaseRow) : List Nat :=
  (List.range ((r.last - r.first) / r.step + 1)).map fun i => r.first + i * r.step

theorem mem_points_of_covers {r : CaseRow} {n : Nat} (h : r.covers n = true) : n ∈ r.points := by
  simp only [covers, Bool.and_eq_true, decide_eq_true_eq] at h
  obtain ⟨⟨hfirst, hlast⟩, hstep⟩ := h
  refine List.mem_map.mpr ⟨(n - r.first) / r.step, ?_, ?_⟩
  · have := Nat.div_le_div_right (c := r.step) (show n - r.first ≤ r.last - r.first by omega)
    exact List.mem_range.mpr (by omega)
  · have := Nat.div_add_mod (n - r.first) r.step
    rw [Nat.mul_comm]
    omega

end CaseRow

end Text

namespace Script

open Java Text

/-- Whether a row moves all of `lo` to `hi` to letters or none of it, as all of it are letters or none,
above U+007F on both sides. -/
def keepsLetters (r : CaseRow) (lo hi : Nat) : Bool :=
  let first := r.moved lo
  let last := r.moved hi
  let letters := whollyLetters? lo hi
  Nat.ble 0x80 lo && Nat.ble 0x80 first &&
    (Nat.blt last 0xD800 || (Nat.blt 0xDFFF first && Nat.blt last 0x110000)) &&
    letters.isSome && letters == whollyLetters? first last

/-- Whether a row moves what begins identifiers to what does so itself, and nothing else. That shows
where it moves its range as a whole, or else from all its code points. -/
def keepsIdentStart (r : CaseRow) : Bool :=
  keepsLetters r r.first r.last || r.points.all fun n =>
    keepsLetters r n n || isIdentStart (Char.ofNat n) == isIdentStart (Char.ofNat (r.moved n))

theorem keepsIdentStart_caseRows : caseRows.all keepsIdentStart = true := by
  decide +kernel

/-- Above U+007F only letters begin identifiers. -/
theorem isIdentStart_ofNat {n : Nat} (h : 0x80 ≤ n) (hv : n.isValidChar) :
    isIdentStart (Char.ofNat n) = inSpans letterSpans n := by
  have hn : (Char.ofNat n).toNat = n := by
    rw [Char.ofNat, dif_pos hv]
    rfl
  have hne (c : Char) (hc : c.toNat < 0x80) : Char.ofNat n ≠ c := by
    rintro rfl
    omega
  simp [isIdentStart, isLetter, hn, hne '_' (by decide), hne '$' (by decide), Nat.not_lt.mpr h]

theorem isIdentStart_of_keepsLetters {r : CaseRow} {lo hi : Nat} (h : keepsLetters r lo hi = true)
    {c : Char} (hl : lo ≤ c.toNat) (hh : c.toNat ≤ hi) :
    isIdentStart (Char.ofNat (r.moved c.toNat)) = isIdentStart c := by
  simp only [keepsLetters, Bool.and_eq_true, Bool.or_eq_true, Nat.ble_eq, Nat.blt_eq,
    beq_iff_eq] at h
  obtain ⟨⟨⟨⟨hlow, hmoved⟩, hvalid⟩, hsome⟩, hletters⟩ := h
  obtain ⟨b, hb⟩ := Option.isSome_iff_exists.mp hsome
  -- a row keeps the order of its code points
  have hmono : r.moved lo ≤ r.moved c.toNat ∧ r.moved c.toNat ≤ r.moved hi := by
    unfold CaseRow.moved
    omega
  have hv : (r.moved c.toNat).isValidChar := by
    unfold Nat.isValidChar
    omega
  rw [isIdentStart_ofNat (by omega) hv, ← Char.ofNat_toNat c,
    isIdentStart_ofNat (n := c.toNat) (by omega) c.valid, Char.ofNat_toNat,
    inSpans_of_whollyLetters? (hletters ▸ hb) hmono.1 hmono.2, inSpans_of_whollyLetters? hb hl hh]

theorem isIdentStart_moved {r : CaseRow} (hr : keepsIdentStart r = true) {c : Char}
    (hc : r.covers c.toNat = true) :
    isIdentStart (Char.ofNat (r.moved c.toNat)) = isIdentStart c := by
  rcases Bool.or_eq_true_iff.mp hr with h | h
  · simp only [CaseRow.covers, Bool.and_eq_true, decide_eq_true_eq] at hc
    exact isIdentStart_of_keepsLetters h hc.1.1 hc.1.2
  · rcases Bool.or_eq_true_iff.mp (List.all_eq_true.mp h _ (CaseRow.mem_points_of_covers hc)) with
      h | h
    · exact isIdentStart_of_keepsLetters h (Nat.le_refl _) (Nat.le_refl _)
    · rw [Char.ofNat_toNat, beq_iff_eq] at h
      exact h.symm

/-- Lower case is one character that begins identifiers just as the character itself does. Only the
dotted capital I becomes two characters, the second of them no letter. -/
theorem exists_lower_eq {c : Char} (hc : c ≠ 'İ') :
    ∃ d, lower c = [d] ∧ isIdentStart d = isIdentStart c := by
  have hascii : ∀ n < 0x80, isIdentStart (Char.ofNat n).toLower = isIdentStart (Char.ofNat n) := by
    decide
  have hdotted : c.toNat ≠ 0x130 := by
    intro h
    exact hc (by rw [← Char.ofNat_toNat c, h])
  unfold lower
  rw [if_neg hdotted]
  split_ifs with hlow
  · have := hascii c.toNat hlow
    rw [Char.ofNat_toNat] at this
    exact ⟨_, rfl, this⟩
  · split
    · next r hr =>
      have hkeeps := List.all_eq_true.mp keepsIdentStart_caseRows r (List.mem_of_find?_eq_some hr)
      exact ⟨_, rfl, isIdentStart_moved hkeeps (by simpa using List.find?_some hr)⟩
    · exact ⟨c, rfl, rfl⟩

/-! ### Identifiers -/

theorem isIdentifier_append {cs ds : List Char} (hc : cs ≠ []) :
    isIdentifier (cs ++ ds) = (isIdentifier cs && ds.all isIdentPart) := by
  obtain ⟨c, cs, rfl⟩ := List.exists_cons_of_ne_nil hc
  simp [isIdentifier, Bool.and_assoc]

/-- A number does not tell whether the name in front of it is an identifier. -/
theorem isIdentifier_numbered {base : String} (hb : base.toList ≠ []) (i : Nat) :
    isIdentifier (base ++ toString i).toList = isIdentifier base.toList := by
  have hdigits : (toString i).toList = Nat.toDigits 10 i := Nat.toList_repr
  have hall : (toString i).toList.all isIdentPart = true := by
    rw [hdigits]
    refine List.all_eq_true.mpr fun c hc => ?_
    simp [isIdentPart, Nat.isDigit_of_mem_toDigits (by decide) (by decide) hc]
  rw [String.toList_append, isIdentifier_append hb, hall, Bool.and_true]

theorem isIdentifier_uniqueName {base : String} (hb : base.toList ≠ []) (taken : List String) :
    isIdentifier (uniqueName base taken).toList = isIdentifier base.toList := by
  rcases uniqueName_cases base taken with ⟨h, -⟩ | ⟨i, h⟩
  · rw [h]
  · rw [h, isIdentifier_numbered hb]

/-- Word characters that are no digits begin an identifier if they are part of any. -/
theorem isIdentPart_of_not_isDigit {c : Char} (hc : Text.isDigit c = false) :
    isIdentPart c = isIdentStart c := by
  have hd : c.isDigit = false := by
    by_contra h
    rw [Bool.not_eq_false] at h
    have hlow : c.toNat < 0x80 := by
      simp [Char.isDigit, UInt32.le_iff_toNat_le] at h
      change 48 ≤ c.toNat ∧ c.toNat ≤ 57 at h
      omega
    simp [Text.isDigit, isDecimal, decimalValue?, hlow, h] at hc
  simp [isIdentPart, hd]

/-- The identifier that a word makes: its first character in lower case. -/
theorem isIdentifier_lower {c : Char} (hc : Text.isDigit c = false) (r : List Char) :
    isIdentifier (lower c ++ r) = true ↔
      c ≠ 'İ' ∧ isIdentPart c = true ∧ r.all isIdentPart = true := by
  by_cases hdotted : c = 'İ'
  · subst hdotted
    have hlower : lower 'İ' = ['i', Char.ofNat 0x307] := by decide
    have hdot : isIdentPart (Char.ofNat 0x307) = false := by decide
    simp [hlower, isIdentifier, hdot]
  · obtain ⟨d, hd, hstart⟩ := exists_lower_eq hdotted
    simp [hd, isIdentifier, hstart, isIdentPart_of_not_isDigit hc, hdotted]

theorem isIdentifier_fragment (r : List Char) :
    isIdentifier ("fragment".toList ++ r) = r.all isIdentPart := by
  rw [isIdentifier_append (by decide), show isIdentifier "fragment".toList = true by decide,
    Bool.true_and]

/-- A name made of a label. -/
theorem methodName_cases (label : String) :
    (label.toList.filter isWord = [] ∧ (methodName label).toList = "fragment".toList) ∨
    ∃ c r, label.toList.filter isWord = c :: r ∧
      ((Text.isDigit c = true ∧ (methodName label).toList = "fragment".toList ++ c :: r) ∨
        (Text.isDigit c = false ∧ (methodName label).toList = lower c ++ r)) := by
  have hlower : lower 'f' = ['f'] := by decide
  unfold methodName
  cases label.toList.filter isWord with
  | nil => exact .inl ⟨rfl, by decide⟩
  | cons c r =>
    refine .inr ⟨c, r, rfl, ?_⟩
    cases hd : Text.isDigit c with
    | true => exact .inl ⟨rfl, by simp [hd, hlower]⟩
    | false => exact .inr ⟨rfl, by simp [hd]⟩

theorem toList_methodName_ne_nil (label : String) : (methodName label).toList ≠ [] := by
  rcases methodName_cases label with ⟨-, h⟩ | ⟨c, r, -, ⟨-, h⟩ | ⟨-, h⟩⟩
  · rw [h]
    decide
  · rw [h]
    simp
  · rw [h]
    by_cases hc : c = 'İ'
    · subst hc
      simp [lower]
    · obtain ⟨d, hd, -⟩ := exists_lower_eq hc
      simp [hd]

/-- Which labels make identifiers. -/
theorem isIdentifier_methodName (label : String) :
    isIdentifier (methodName label).toList = true ↔
      (∀ c ∈ label.toList, isWord c = true → isIdentPart c = true) ∧
        label.toList.find? isWord ≠ some 'İ' := by
  have hall : (label.toList.filter isWord).all isIdentPart = true ↔
      ∀ c ∈ label.toList, isWord c = true → isIdentPart c = true := by
    simp only [List.all_eq_true, List.mem_filter, and_imp]
  rw [← hall, ← List.head?_filter]
  rcases methodName_cases label with ⟨hw, h⟩ | ⟨c, r, hw, ⟨hd, h⟩ | ⟨hd, h⟩⟩
  · rw [hw, h]
    decide
  · have hne : c ≠ 'İ' := by
      rintro rfl
      exact absurd hd (by decide)
    rw [hw, h, isIdentifier_fragment]
    simp [hne]
  · rw [hw, h, isIdentifier_lower hd]
    simp
    tauto

/-! ### Tokens -/

/-- What is read as an identifier is one. -/
theorem isIdentifier_of_scan {pos : Position} {cs : List Char} {ts : List Token}
    (h : scan pos cs = .ok ts) :
    ∀ t ∈ ts, t.kind = .ident → isIdentifier t.value.toList = true := by
  obtain ⟨us, last, rfl, hus⟩ := exists_of_scan h
  intro t ht hk
  rcases List.mem_append.mp ht with ht | ht
  · have hsaid := hus t ht
    rw [hk] at hsaid
    exact hsaid.isIdentifier
  · rw [List.mem_singleton.mp ht] at hk
    cases hk

/-- A text is one identifier to the lexer exactly if its characters are those of one. -/
theorem tokenize_ident_iff (s : String) :
    (∃ ts, tokenize s = .ok ts ∧ ts.map Token.content = [(.ident, s), (.eof, "")]) ↔
      isIdentifier s.toList = true := by
  constructor
  · rintro ⟨ts, hts, hcontent⟩
    obtain ⟨t, ht, hs⟩ : ∃ t ∈ ts, t.content = (.ident, s) := by
      rw [← List.mem_map, hcontent]
      exact List.mem_cons_self
    obtain ⟨hkind, rfl⟩ := Prod.mk.inj hs
    exact isIdentifier_of_scan hts t ht hkind
  · intro h
    have hread := reads_ident (r := []) h nofun reads_nil
    rw [List.append_nil, String.ofList_toList] at hread
    refine tokenize_of_reads ?_
    rwa [← List.append_nil s.toList, joinBreaks_append (isIdentifier_no_return h), joinBreaks,
      List.append_nil]

/-- The name of a helper method is one identifier exactly if all word characters of the label can
stand in one, and the first is not the dotted capital I; whichever names are taken. -/
theorem tokenize_uniqueName (label : String) (taken : List String) :
    (∃ ts, tokenize (uniqueName (methodName label) taken) = .ok ts ∧
        ts.map Token.content = [(.ident, uniqueName (methodName label) taken), (.eof, "")]) ↔
      (∀ c ∈ label.toList, isWord c = true → isIdentPart c = true) ∧
        label.toList.find? isWord ≠ some 'İ' := by
  rw [tokenize_ident_iff, isIdentifier_uniqueName (toList_methodName_ne_nil label),
    isIdentifier_methodName]

/-- A superscript digit is a word character, and so is part of the name. The lexer stops there. -/
theorem tokenize_superscript_name :
    uniqueName (methodName "a²") [] = "a²" ∧
      tokenize (uniqueName (methodName "a²") []) =
        .error (.report (.lexical (.unexpected '²') ⟨1, 2⟩)) ∧
      ¬ ∃ ts, tokenize (uniqueName (methodName "a²") []) = .ok ts ∧
        ts.map Token.content = [(.ident, uniqueName (methodName "a²") []), (.eof, "")] := by
  have hname : uniqueName (methodName "a²") [] = "a²" := by decide
  have hstop : tokenize "a²" = .error (.report (.lexical (.unexpected '²') ⟨1, 2⟩)) := by
    cbv
  rw [hname]
  refine ⟨rfl, hstop, ?_⟩
  rintro ⟨ts, hts, -⟩
  rw [hstop] at hts
  cases hts

end Script

end FluentPlan
