import Mathlib.Data.List.Basic
import Mathlib.Tactic.Common
import FluentPlan.Proofs.Grammar.Derivation
import FluentPlan.Proofs.Literal.Reading

/-!
Texts that spell words. A text spells words if its tokens say them before every text that does not
run on from it. Operators, gaps, identifiers and dotted names are spelled by themselves.
-/

namespace FluentPlan.Script

open Java Text Word

/-! ### Operators and gaps -/

theorem reads_op {c : Char} {r : List Char} {us : List Word}
    (hl : lexeme c r = .ok (.token .op [c] 0)) (h : Reads r us) :
    Reads (c :: r) (op (String.ofList [c]) :: us) := reads_token hl h

theorem reads_open {r : List Char} {us : List Word} (h : Reads r us) :
    Reads ('(' :: r) (op "(" :: us) := reads_op rfl h

theorem reads_close {r : List Char} {us : List Word} (h : Reads r us) :
    Reads (')' :: r) (op ")" :: us) := reads_op rfl h

theorem reads_comma {r : List Char} {us : List Word} (h : Reads r us) :
    Reads (',' :: r) (op "," :: us) := reads_op rfl h

theorem reads_point {r : List Char} {us : List Word} (h : Reads r us) :
    Reads ('.' :: r) (op "." :: us) := reads_op rfl h

theorem reads_minus {r : List Char} {us : List Word} (h : Reads r us) :
    Reads ('-' :: r) (op "-" :: us) := reads_op rfl h

theorem takeWhile_append_of_stop {p : Char → Bool} {cs r : List Char} (hc : ∀ c ∈ cs, p c = true)
    (hr : ∀ c, r.head? = some c → p c = false) : (cs ++ r).takeWhile p = cs := by
  rw [List.takeWhile_append_of_pos hc]
  cases r with
  | nil => simp
  | cons d r => simp [hr d rfl]

/-- A text without tokens, whatever follows: blanks, line breaks and comments. -/
structure Skipped (cs : List Char) : Prop where
  no_return : '\r' ∉ cs
  reads : ∀ r us, Reads r us → Reads (cs ++ r) us

theorem skipped_nil : Skipped [] := ⟨by simp, fun _ _ h => h⟩

theorem Skipped.cons {c : Char} {cs : List Char} (hc : c = '\n' ∨ isIndent c = true)
    (h : Skipped cs) : Skipped (c :: cs) := by
  have hg : isGap c = true ∧ '\r' ≠ c := by
    rcases hc with rfl | hc
    · decide
    · unfold isIndent at hc
      unfold isGap
      grind
  refine ⟨by simp [hg.2, h.no_return], fun r us hr => ?_⟩
  have hl : lexeme c (cs ++ r) = .ok (.gap 0) := by simp [lexeme, hg.1]
  exact reads_gap hl (h.reads r us hr)

theorem Skipped.break {cs : List Char} (h : Skipped cs) : Skipped ('\n' :: cs) := h.cons (.inl rfl)

theorem Skipped.indent {indent cs : List Char} (hi : indent.all isIndent = true)
    (h : Skipped cs) : Skipped (indent ++ cs) := by
  induction indent with
  | nil => exact h
  | cons c indent ih =>
    obtain ⟨hc, hi⟩ := Bool.and_eq_true_iff.mp hi
    exact (ih hi).cons (.inr hc)

theorem skipped_of_indent {cs : List Char} (h : cs.all isIndent = true) : Skipped cs := by
  simpa using skipped_nil.indent h

/-- A comment goes on to the end of its line. -/
theorem Skipped.comment {l cs : List Char} (hn : '\n' ∉ l) (hr : '\r' ∉ l) (h : Skipped cs) :
    Skipped ('/' :: '/' :: l ++ '\n' :: cs) := by
  refine ⟨by simp [hr, h.no_return], fun r us hus => ?_⟩
  have hrun : ('/' :: l ++ '\n' :: (cs ++ r)).takeWhile (· ≠ '\n') = '/' :: l :=
    takeWhile_append_of_stop
      (fun c hc => decide_eq_true (by rintro rfl; exact hn (by simpa using hc)))
      fun c hc => by obtain rfl : '\n' = c := by simpa using hc
                     simp
  have hl : lexeme '/' ('/' :: l ++ '\n' :: (cs ++ r)) = .ok (.gap (l.length + 1)) := by
    simp only [lexeme, hrun]
    rfl
  have hd : ('/' :: l ++ '\n' :: (cs ++ r)).drop (l.length + 1) = '\n' :: (cs ++ r) :=
    List.drop_left' (by simp)
  have hread := reads_gap hl (by rw [hd]; exact h.break.reads r us hus)
  simpa using hread

/-! ### Identifiers -/

/-- The characters of an identifier. -/
def isIdentifier : List Char → Bool
  | [] => false
  | c :: cs => isIdentStart c && cs.all isIdentPart

theorem isAlpha_of_isIdentStart {c : Char} (h : isIdentStart c = true) (hc : c.toNat < 0x80) :
    c.isAlpha = true ∨ c = '_' ∨ c = '$' := by
  unfold isIdentStart isLetter at h
  simp [hc] at h
  tauto

/-- What begins an identifier begins nothing else. -/
theorem ne_of_isIdentStart {c d : Char} (h : isIdentStart c = true)
    (hd : isIdentStart d = false) : c ≠ d := fun he => by simp [he, hd] at h

theorem not_isDigit_of_isIdentStart {c : Char} (h : isIdentStart c = true) : c.isDigit = false := by
  by_contra hd
  simp [Char.isDigit, UInt32.le_iff_toNat_le] at hd
  change 48 ≤ c.toNat ∧ c.toNat ≤ 57 at hd
  rcases isAlpha_of_isIdentStart h (by omega) with h | rfl | rfl
  · change (decide (65 ≤ c.toNat ∧ c.toNat ≤ 90) ||
      (decide (97 ≤ c.toNat) && decide (c.toNat ≤ 122))) = true at h
    simp only [Bool.or_eq_true, Bool.and_eq_true, decide_eq_true_eq] at h
    omega
  · exact absurd hd (by decide)
  · exact absurd hd (by decide)

theorem not_mem_of_isIdentifier {cs : List Char} (h : isIdentifier cs = true) {c : Char}
    (hc : isIdentPart c = false) : c ∉ cs := by
  cases cs with
  | nil => simp
  | cons d cs =>
    simp only [isIdentifier, Bool.and_eq_true] at h
    intro hm
    rcases List.mem_cons.mp hm with rfl | hm
    · simp [isIdentPart, h.1] at hc
    · simp [List.all_eq_true.mp h.2 _ hm] at hc

theorem isIdentifier_no_return {cs : List Char} (h : isIdentifier cs = true) : '\r' ∉ cs :=
  not_mem_of_isIdentifier h (by decide)

/-- An identifier ends where no further character of identifiers follows. -/
theorem reads_ident {cs r : List Char} {us : List Word} (hc : isIdentifier cs = true)
    (hr : ∀ c, r.head? = some c → isIdentPart c = false) (h : Reads r us) :
    Reads (cs ++ r) (ident (String.ofList cs) :: us) := by
  cases cs with
  | nil => cases hc
  | cons c cs =>
    simp only [isIdentifier, Bool.and_eq_true] at hc
    obtain ⟨hs, hp⟩ := hc
    have hrun : (cs ++ r).takeWhile isIdentPart = cs :=
      takeWhile_append_of_stop (List.all_eq_true.mp hp) hr
    have hl : lexeme c (cs ++ r) = .ok (.token .ident (c :: cs) cs.length) := by
      have hg : isGap c = false := by
        have := ne_of_isIdentStart (d := '\n') hs (by decide)
        have := ne_of_isIdentStart (d := ' ') hs (by decide)
        have := ne_of_isIdentStart (d := '\t') hs (by decide)
        have := ne_of_isIdentStart (d := '\r') hs (by decide)
        simp_all [isGap]
      have hslash := ne_of_isIdentStart (d := '/') hs (by decide)
      have hquote := ne_of_isIdentStart (d := '"') hs (by decide)
      simp [lexeme, hg, hslash, hquote, not_isDigit_of_isIdentStart hs, hs, hrun]
    have hd : (cs ++ r).drop cs.length = r := List.drop_left
    exact reads_token hl ((congrArg (Reads · us) hd).mpr h)

/-! ### Dotted names -/

/-- One or more identifiers with points between them, the first of them not a literal. -/
def IsDotted (name : String) : Prop :=
  ∃ s ss, s ∉ literalWords ∧ (∀ t ∈ s :: ss, isIdentifier t.toList = true) ∧
    name = String.intercalate "." (s :: ss)

theorem isDotted_of_isIdentifier {s : String} (h : isIdentifier s.toList = true)
    (hs : s ∉ literalWords) : IsDotted s :=
  ⟨s, [], hs, by simpa using h, by simp⟩

theorem IsDotted.append {name t : String} (h : IsDotted name) (ht : isIdentifier t.toList = true) :
    IsDotted (name ++ "." ++ t) := by
  obtain ⟨s, ss, hs, hi, rfl⟩ := h
  refine ⟨s, ss ++ [t], hs, ?_, ?_⟩
  · intro u hu
    rw [← List.cons_append] at hu
    rcases List.mem_append.mp hu with hu | hu
    · exact hi u hu
    · rw [List.mem_singleton.mp hu]
      exact ht
  · rw [← List.cons_append, String.intercalate_append_of_ne_nil (by simp) (by simp)]
    simp

theorem reads_parts {ss : List String} (hi : ∀ t ∈ ss, isIdentifier t.toList = true)
    {r : List Char} {us : List Word} (hr : ∀ c, r.head? = some c → isIdentPart c = false)
    (h : Reads r us) :
    Reads (ss.flatMap (fun t => '.' :: t.toList) ++ r) (partWords ss ++ us) := by
  induction ss with
  | nil => exact h
  | cons t ss ih =>
    have hrest := ih fun u hu => hi u (List.mem_cons_of_mem t hu)
    have hhead : ∀ c, (ss.flatMap (fun t => '.' :: t.toList) ++ r).head? = some c →
        isIdentPart c = false := by
      cases ss with
      | nil => exact hr
      | cons u ss =>
        intro c hc
        obtain rfl : '.' = c := by simpa using hc
        decide
    have hread := reads_point (reads_ident (hi t List.mem_cons_self) hhead hrest)
    simpa [partWords] using hread

theorem toList_intercalate_point (s : String) (ss : List String) :
    (String.intercalate "." (s :: ss)).toList =
      s.toList ++ ss.flatMap fun t => '.' :: t.toList := by
  induction ss generalizing s with
  | nil => simp
  | cons t ss ih => simp [String.intercalate_cons_cons, ih]

/-- A dotted name is spelled by its words, before whatever does not run on from it. -/
theorem IsDotted.reads {name : String} (h : IsDotted name) :
    ∃ ns, IsName name ns ∧ ∀ r us, (∀ c, r.head? = some c → isIdentPart c = false) →
      Reads r us → Reads (name.toList ++ r) (ns ++ us) := by
  obtain ⟨s, ss, hs, hi, rfl⟩ := h
  refine ⟨ident s :: partWords ss, ⟨s, ss, hs, rfl, rfl⟩, ?_⟩
  intro r us hr hus
  have hparts := reads_parts (fun t ht => hi t (List.mem_cons_of_mem s ht)) hr hus
  have hhead : ∀ c, (ss.flatMap (fun t => '.' :: t.toList) ++ r).head? = some c →
      isIdentPart c = false := by
    cases ss with
    | nil => exact hr
    | cons t ss =>
      intro c hc
      obtain rfl : '.' = c := by simpa using hc
      decide
  have hread := reads_ident (hi s List.mem_cons_self) hhead hparts
  rw [toList_intercalate_point, List.append_assoc]
  simpa using hread

theorem IsDotted.no_return {name : String} (h : IsDotted name) : '\r' ∉ name.toList := by
  obtain ⟨s, ss, -, hi, rfl⟩ := h
  rw [toList_intercalate_point]
  intro hm
  rcases List.mem_append.mp hm with hm | hm
  · exact isIdentifier_no_return (hi s List.mem_cons_self) hm
  · obtain ⟨t, ht, hm⟩ := List.mem_flatMap.mp hm
    rcases List.mem_cons.mp hm with hm | hm
    · exact absurd hm (by decide)
    · exact isIdentifier_no_return (hi t (List.mem_cons_of_mem s ht)) hm

/-! ### Texts that spell words -/

/-- What cannot run on from a text before it. -/
def Closed (r : List Char) : Prop :=
  ∀ c, r.head? = some c → c = ',' ∨ c = ')' ∨ c = '\n' ∨ c = '/' ∨ c = ';'

theorem closed_nil : Closed [] := nofun

theorem closed_cons {c : Char} (r : List Char)
    (h : c = ',' ∨ c = ')' ∨ c = '\n' ∨ c = '/' ∨ c = ';') : Closed (c :: r) := by
  intro d hd
  obtain rfl : c = d := by simpa using hd
  exact h

theorem Closed.not_isIdentPart {r : List Char} (h : Closed r) :
    ∀ c, r.head? = some c → isIdentPart c = false := by
  intro c hc
  rcases h c hc with rfl | rfl | rfl | rfl | rfl <;> decide

theorem Closed.not_quote {r : List Char} (h : Closed r) : r.head? ≠ some '"' := by
  intro hq
  rcases h _ hq with h | h | h | h | h <;> exact absurd h (by decide)

/-- A text whose tokens say `ws` before every text that does not run on from it. -/
structure Spells (cs : List Char) (ws : List Word) : Prop where
  no_return : '\r' ∉ cs
  reads : ∀ r us, Closed r → Reads r us → Reads (cs ++ r) (ws ++ us)

theorem spells_nil : Spells [] [] := ⟨by simp, fun _ _ _ h => h⟩

/-- Words that are spelled are the tokens of a source text, with a line break behind them or not. -/
theorem Spells.tokenize {cs : List Char} {ws : List Word} (h : Spells cs ws) {last : List Char}
    (hl : last = [] ∨ last = ['\n']) :
    ∃ ts, tokenize (String.ofList (cs ++ last)) = .ok ts ∧
      ts.map Token.content = ws ++ [(.eof, "")] := by
  apply tokenize_of_reads
  rw [String.toList_ofList, joinBreaks_append h.no_return]
  rcases hl with rfl | rfl
  · exact h.reads _ _ closed_nil reads_nil
  · exact h.reads ['\n'] _ (closed_cons [] (by decide)) (skipped_nil.break.reads [] _ reads_nil)

theorem Spells.minus {cs : List Char} {ws : List Word} (h : Spells cs ws) :
    Spells ('-' :: cs) (op "-" :: ws) :=
  ⟨by simpa using h.no_return, fun r us hr hus => reads_minus (h.reads r us hr hus)⟩

theorem Spells.point {cs : List Char} {ws : List Word} (h : Spells cs ws) :
    Spells ('.' :: cs) (op "." :: ws) :=
  ⟨by simpa using h.no_return, fun r us hr hus => reads_point (h.reads r us hr hus)⟩

theorem Spells.space {gap cs : List Char} {ws : List Word} (hg : Skipped gap) (h : Spells cs ws) :
    Spells (gap ++ cs) ws := by
  refine ⟨?_, fun r us hr hus => ?_⟩
  · simp [hg.no_return, h.no_return]
  · rw [List.append_assoc]
    exact hg.reads _ _ (h.reads r us hr hus)

/-- A gap behind a text, whose first character does not run on from it. -/
theorem Spells.behind {c : Char} {gap cs : List Char} {ws : List Word}
    (hc : c = ',' ∨ c = ')' ∨ c = '\n' ∨ c = '/' ∨ c = ';') (hg : Skipped (c :: gap))
    (h : Spells cs ws) : Spells (cs ++ c :: gap) ws := by
  refine ⟨?_, fun r us hr hus => ?_⟩
  · exact fun hm => (List.mem_append.mp hm).elim h.no_return hg.no_return
  · rw [List.append_assoc]
    exact h.reads _ us (closed_cons _ hc) (hg.reads r us hus)

theorem Skipped.spells {cs : List Char} (h : Skipped cs) : Spells cs [] :=
  ⟨h.no_return, fun r us _ hus => h.reads r us hus⟩

/-- A comma and a gap between two texts. -/
theorem Spells.comma {gap cs ds : List Char} {ws vs : List Word} (hc : Spells cs ws)
    (hg : Skipped gap) (hd : Spells ds vs) :
    Spells (cs ++ ',' :: gap ++ ds) (ws ++ op "," :: vs) := by
  refine ⟨?_, fun r us hr hus => ?_⟩
  · simp [hc.no_return, hg.no_return, hd.no_return]
  · have hrest := reads_comma (hg.reads _ _ (hd.reads r us hr hus))
    have hread := hc.reads _ _ (closed_cons _ (by decide)) hrest
    simpa using hread

/-- A name with what stands in its parentheses and the calls chained to it. -/
theorem Spells.call {name : String} {ns : List Word}
    (hn : ∀ r us, (∀ c, r.head? = some c → isIdentPart c = false) → Reads r us →
      Reads (name.toList ++ r) (ns ++ us)) (hr : '\r' ∉ name.toList)
    {cs ds : List Char} {ws vs : List Word} (hc : Spells cs ws) (hd : Spells ds vs) :
    Spells (name.toList ++ '(' :: cs ++ ')' :: ds) (ns ++ op "(" :: ws ++ op ")" :: vs) := by
  refine ⟨?_, fun r us hcl hus => ?_⟩
  · simp [hr, hc.no_return, hd.no_return]
  · have htail := reads_close (hd.reads r us hcl hus)
    have hargs := reads_open (hc.reads _ _ (closed_cons _ (by decide)) htail)
    have hread := hn _ _ (fun c h => by obtain rfl : '(' = c := by simpa using h
                                        decide) hargs
    simpa using hread

end FluentPlan.Script
