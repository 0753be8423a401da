import FluentPlan.Proofs.Lexing.Spelling

/-!
What the tokens of a source text say. Words are identifiers, a number tells by its characters
whether it is a whole one, and the mark of the end stands behind the last token and nowhere else.
-/

namespace FluentPlan.Script

open Text

/-! ### Numbers -/

/-- Whether a character makes a number a float: a point, the letter of an exponent, or a mark. -/
def isFloatSign (c : Char) : Bool := c = '.' || c = 'e' || c = 'E' || isFloatMark c

/-- The kind of a number by its characters. -/
def numeralKind (cs : List Char) : TokenKind := if cs.any isFloatSign then .float else .int

theorem isNumeric_numeralKind (cs : List Char) : IsNumeric (numeralKind cs) := by
  unfold numeralKind
  split
  · exact .inr rfl
  · exact .inl rfl

theorem not_isFloatSign_of_isWholePart {c : Char} (h : isWholePart c = true) :
    isFloatSign c = false := by
  have hsigns : ∀ d, isFloatSign d = true → d ∈ ['.', 'e', 'E', 'f', 'F', 'd', 'D'] := by
    intro d hd
    simp only [isFloatSign, isFloatMark, Bool.or_eq_true, decide_eq_true_eq] at hd
    simp only [List.mem_cons, List.not_mem_nil, or_false]
    tauto
  by_contra hs
  have hmem := hsigns c (by simpa using hs)
  have hnone : ['.', 'e', 'E', 'f', 'F', 'd', 'D'].all (fun d => !isWholePart d) = true := rfl
  have hpart := List.all_eq_true.mp hnone c hmem
  rw [h] at hpart
  cases hpart

theorem any_isFloatSign_fractionPart (cs : List Char) :
    (fractionPart cs).any isFloatSign = !(fractionPart cs).isEmpty := by
  unfold fractionPart
  split
  · split
    · rfl
    · rfl
  · rfl

theorem any_isFloatSign_exponentPart {cs exp : List Char} (h : exponentPart cs = .ok exp) :
    exp.any isFloatSign = !exp.isEmpty := by
  unfold exponentPart at h
  split at h
  · next e r =>
    split at h
    · next he =>
      dsimp only at h
      split at h
      · cases h
      · cases h
        have hs : isFloatSign e = true := by
          rcases (by simpa using he : e = 'e' ∨ e = 'E') with rfl | rfl <;> rfl
        simp [hs]
    · cases h
      rfl
  · cases h
    rfl

/-- A number is a float exactly if it has a character that makes it one. It begins with its digits.
-/
theorem any_isFloatSign_of_numberPart {cs body : List Char} {floating : Bool}
    (h : numberPart cs = .ok (body, floating)) :
    body.any isFloatSign = floating ∧ ∃ more, body = cs.takeWhile isWholePart ++ more := by
  have hwhole : (cs.takeWhile isWholePart).any isFloatSign = false := by
    rw [List.any_eq_false]
    intro c hc
    simp [not_isFloatSign_of_isWholePart (List.all_eq_true.mp List.all_takeWhile c hc)]
  unfold numberPart at h
  dsimp only at h
  generalize cs.takeWhile isWholePart = whole at h hwhole ⊢
  have hfrac := any_isFloatSign_fractionPart (cs.drop whole.length)
  generalize fractionPart (cs.drop whole.length) = frac at h hfrac
  generalize (cs.drop whole.length).drop frac.length = r at h
  cases he : exponentPart r with
  | error p =>
    rw [he] at h
    cases h
  | ok exp =>
    have hexp := any_isFloatSign_exponentPart he
    rw [he] at h
    simp only [bind, Except.bind, pure, Except.pure] at h
    have hbody : (whole ++ frac ++ exp).any isFloatSign = (!frac.isEmpty || !exp.isEmpty) := by
      rw [List.any_append, List.any_append, hwhole, hfrac, hexp, Bool.false_or]
    split at h
    · next m _ _ =>
      split at h
      · next hm =>
        cases h
        exact ⟨by simp [isFloatSign, hm], frac ++ exp ++ [m], by simp⟩
      · split at h
        · next hm =>
          cases h
          obtain ⟨hlong, hnone⟩ := Bool.and_eq_true_iff.mp hm
          rw [Bool.not_eq_true'] at hnone
          have hsign : isFloatSign m = false := by
            rcases (by simpa [isLongMark] using hlong : m = 'l' ∨ m = 'L') with rfl | rfl <;> rfl
          refine ⟨?_, frac ++ exp ++ [m], by simp⟩
          rw [List.any_append, hbody, hnone]
          simp [hsign]
        · cases h
          exact ⟨hbody, frac ++ exp, by simp⟩
    · cases h
      exact ⟨hbody, frac ++ exp, by simp⟩

/-! ### Tokens -/

theorem kind_of_blockLexeme {cs value : List Char} {kind : TokenKind} {n : Nat}
    (h : blockLexeme cs = .ok (.token kind value n)) : kind = .text := by
  unfold blockLexeme at h
  dsimp only at h
  split at h
  · cases h
  · split_ifs at h
    split at h
    · cases h
    · next content _ =>
      cases hu : unescape (dedent content) <;> rw [hu] at h <;> cases h
      rfl

theorem kind_of_plainLexeme {cs value : List Char} {kind : TokenKind} {n : Nat}
    (h : plainLexeme cs = .ok (.token kind value n)) : kind = .text := by
  unfold plainLexeme at h
  split at h
  · cases h
  · next content _ =>
    cases hu : unescape content <;> rw [hu] at h <;> cases h
    rfl

/-- What a token of a kind can say. -/
inductive IsToken : TokenKind → List Char → Prop
  | text (value : List Char) : IsToken .text value
  | ident {value : List Char} (h : isIdentifier value = true) : IsToken .ident value
  | number {kind : TokenKind} {c : Char} {r : List Char} (hc : c.isDigit = true)
    (hk : numeralKind (c :: r) = kind) : IsToken kind (c :: r)
  | op {c : Char} (hc : isOperator c = true) : IsToken .op [c]

/-- What is read as an identifier is one. -/
theorem IsToken.isIdentifier {value : List Char} (h : IsToken .ident value) :
    isIdentifier value = true := by
  cases h with
  | ident h => exact h
  | number _ hk =>
    have hnumeric : IsNumeric .ident := hk ▸ isNumeric_numeralKind _
    rcases hnumeric with h | h <;> cases h

theorem IsToken.ne_eof {kind : TokenKind} {value : List Char} (h : IsToken kind value) :
    kind ≠ .eof := by
  cases h with
  | number _ hk =>
    rintro rfl
    have hnumeric : IsNumeric .eof := hk ▸ isNumeric_numeralKind _
    rcases hnumeric with h | h <;> cases h
  | _ => exact nofun

theorem isToken_of_lexeme {c : Char} {r value : List Char} {kind : TokenKind} {n : Nat}
    (h : lexeme c r = .ok (.token kind value n)) : IsToken kind value := by
  unfold lexeme at h
  split_ifs at h with _ _ _ _ _ hdigit hstart hop
  · cases h
  · cases h
  · split at h <;> cases h
  · rw [kind_of_blockLexeme h]
    exact .text value
  · rw [kind_of_plainLexeme h]
    exact .text value
  · cases hn : numberPart (c :: r) with
    | error p =>
      rw [hn] at h
      cases h
    | ok x =>
      obtain ⟨body, floating⟩ := x
      rw [hn] at h
      cases h
      obtain ⟨rfl, more, hbody⟩ := any_isFloatSign_of_numberPart hn
      have hwhole : isWholePart c = true := by simp [isWholePart, hdigit]
      have hmark : c ≠ '_' := fun hc => by simp [hc] at hdigit
      have hany : (body.filter (· ≠ '_')).any isFloatSign = body.any isFloatSign := by
        rw [List.any_filter]
        refine congrArg body.any (funext fun d => ?_)
        by_cases hd : d = '_'
        · rw [hd]
          rfl
        · simp [hd]
      rw [List.takeWhile_cons_of_pos hwhole, List.cons_append] at hbody
      have hvalue : body.filter (· ≠ '_') =
          c :: (r.takeWhile isWholePart ++ more).filter (· ≠ '_') := by
        rw [hbody, List.filter_cons_of_pos (by simpa using hmark)]
      have hkind : numeralKind (body.filter (· ≠ '_')) =
          if body.any isFloatSign then .float else .int := by rw [numeralKind, hany]
      rw [hvalue] at hkind ⊢
      exact .number hdigit hkind
  · cases h
    refine .ident ?_
    rw [isIdentifier, hstart, Bool.true_and]
    exact List.all_takeWhile
  · cases h
    exact .op hop

/-- The tokens of a text are what they can say, with the mark of the end behind them. -/
theorem exists_of_scan {pos : Position} {cs : List Char} {ts : List Token}
    (h : scan pos cs = .ok ts) :
    ∃ us last, ts = us ++ [⟨.eof, "", last⟩] ∧ ∀ t ∈ us, IsToken t.kind t.value.toList := by
  fun_induction scan pos cs generalizing ts with
  | case1 pos =>
    cases h
    exact ⟨[], pos, rfl, by simp⟩
  | case2 pos c r p hp => cases h
  | case3 pos c r n hl ih => exact ih h
  | case4 pos c r kind value n hl ih =>
    cases hs : scan (pos.advance (c :: r.take n)) (r.drop n) with
    | error f =>
      rw [hs] at h
      cases h
    | ok vs =>
      rw [hs] at h
      cases h
      obtain ⟨us, last, rfl, hus⟩ := ih hs
      refine ⟨_ :: us, last, rfl, List.forall_mem_cons.mpr ⟨?_, hus⟩⟩
      rw [String.toList_ofList]
      exact isToken_of_lexeme hl

end FluentPlan.Script
