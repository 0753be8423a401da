import Mathlib
import FluentPlan.Proofs.Lexing.Lexeme
import FluentPlan.Proofs.Lexing.Position

/-!
How a source text is made of its tokens. `Denotes` says what the text of a token looks like, and
`Between` what may stand between two of them. The main result is that a text which has tokens is
their texts in order, with nothing but blanks and comments in between, and that each token has the
place where its text begins.
-/

namespace FluentPlan.Script

open Text

/-! ### Texts of tokens -/

/-- What stands between quotes: pairs of a backslash and any character, and other characters, each
of which `alone` allows before what follows it. -/
inductive Content (alone : Char → List Char → Prop) : List Char → Prop
  | nil : Content alone []
  | pair (c : Char) {cs : List Char} (h : Content alone cs) : Content alone ('\\' :: c :: cs)
  | char {c : Char} {cs : List Char} (hc : c ≠ '\\') (ha : alone c cs) (h : Content alone cs) :
    Content alone (c :: cs)

def quotes : List Char := ['"', '"', '"']

/-- What a plain literal holds: no quote ends it early, and no line break stands alone in it. -/
def PlainContent : List Char → Prop := Content fun c _ => c ≠ '"' ∧ c ≠ '\n'

/-- What a text block holds: the closing quotes are the first three in a row, pairs apart. -/
def BlockContent : List Char → Prop := Content fun c cs => (c :: cs ++ quotes).take 3 ≠ quotes

/-- A character that a number may have behind its first digit. -/
def isNumeralPart (c : Char) : Bool :=
  isWholePart c || isFloatSign c || isLongMark c || c = '+' || c = '-'

/-- The text of a token, with its kind and its value. -/
inductive Denotes : List Char → TokenKind → List Char → Prop
  | ident {cs : List Char} (h : isIdentifier cs = true) : Denotes cs .ident cs
  | number {c : Char} {cs : List Char} {kind : TokenKind} (hc : c.isDigit = true)
    (hcs : cs.all isNumeralPart = true) (hk : numeralKind (c :: cs) = kind) :
    Denotes (c :: cs) kind ((c :: cs).filter (· ≠ '_'))
  | op {c : Char} (h : isOperator c = true) : Denotes [c] .op [c]
  | plain {content value : List Char} (hc : PlainContent content)
    (hv : unescape content = .ok value) : Denotes ('"' :: content ++ ['"']) .text value
  | block {head content value : List Char} (hh : isBlankLine head = true)
    (hc : BlockContent content) (hv : unescape (dedent content) = .ok value) :
    Denotes (quotes ++ head ++ '\n' :: content ++ quotes) .text value

/-- A token's text has a first character, and it is no line break. -/
theorem Denotes.head? {text value : List Char} {kind : TokenKind} (h : Denotes text kind value) :
    ∃ c, text.head? = some c ∧ c ≠ '\n' := by
  cases h with
  | ident h =>
    cases text with
    | nil => cases h
    | cons c cs =>
      have hc : isIdentStart c = true := (Bool.and_eq_true_iff.mp h).1
      exact ⟨c, rfl, ne_of_isIdentStart hc (by decide)⟩
  | @number c cs _ hc _ _ => exact ⟨c, rfl, by rintro rfl; exact absurd hc (by decide)⟩
  | @op c h => exact ⟨c, rfl, by rintro rfl; exact absurd h (by decide)⟩
  | plain => exact ⟨'"', rfl, by decide⟩
  | block => exact ⟨'"', rfl, by decide⟩

theorem Denotes.ne_nil {text value : List Char} {kind : TokenKind} (h : Denotes text kind value) :
    text ≠ [] := by
  rintro rfl
  obtain ⟨c, hc, -⟩ := h.head?
  cases hc

theorem Denotes.kind_ne_eof {text value : List Char} {kind : TokenKind}
    (h : Denotes text kind value) : kind ≠ .eof := by
  cases h with
  | number hc hcs hk =>
    rw [← hk, numeralKind]
    split <;> decide
  | _ => decide

/-! ### Literals -/

/-- A backslash would have taken the next character, or ended the text. -/
theorem ne_backslash {c : Char} {r : List Char} (hend : c = '\\' → r = [] → False)
    (hpair : ∀ d s, c = '\\' → r = d :: s → False) : c ≠ '\\' := by
  intro hc
  cases r with
  | nil => exact hend hc rfl
  | cons d s => exact hpair d s hc rfl

/-- A plain literal ends at the first quote that no backslash takes. -/
theorem eq_append_of_plainContent? {cs content : List Char} (h : plainContent? cs = some content) :
    ∃ rest, cs = content ++ '"' :: rest ∧ PlainContent content := by
  fun_induction plainContent? cs generalizing content with
  | case1 => cases h
  | case2 r =>
    cases h
    exact ⟨r, rfl, .nil⟩
  | case3 => cases h
  | case4 c r ih =>
    obtain ⟨content, hr, rfl⟩ := Option.map_eq_some_iff.mp h
    obtain ⟨rest, rfl, hc⟩ := ih hr
    exact ⟨rest, rfl, .pair c hc⟩
  | case5 r => cases h
  | case6 c r hq hend hpair hn ih =>
    obtain ⟨content, hr, rfl⟩ := Option.map_eq_some_iff.mp h
    have hb := ne_backslash hend hpair
    obtain ⟨rest, rfl, hc⟩ := ih hr
    exact ⟨rest, rfl, .char hb ⟨hq, hn⟩ hc⟩

/-- A text block ends at the first three quotes of which no backslash takes one. -/
theorem eq_append_of_blockContent? {cs content : List Char} (h : blockContent? cs = some content) :
    ∃ rest, cs = content ++ quotes ++ rest ∧ BlockContent content := by
  fun_induction blockContent? cs generalizing content with
  | case1 => cases h
  | case2 => cases h
  | case3 c r ih =>
    obtain ⟨content, hr, rfl⟩ := Option.map_eq_some_iff.mp h
    obtain ⟨rest, rfl, hc⟩ := ih hr
    exact ⟨rest, rfl, .pair c hc⟩
  | case4 c r _ _ hq =>
    cases h
    refine ⟨(c :: r).drop 3, ?_, .nil⟩
    rw [List.nil_append, quotes, ← hq, List.take_append_drop]
  | case5 c r hend hpair hq ih =>
    obtain ⟨content, hr, rfl⟩ := Option.map_eq_some_iff.mp h
    have hb := ne_backslash hend hpair
    obtain ⟨rest, rfl, hc⟩ := ih hr
    refine ⟨rest, rfl, .char hb ?_ hc⟩
    -- the three characters from here on lie in the content and the closing quotes
    have htake : (c :: (content ++ quotes ++ rest)).take 3 = (c :: content ++ quotes).take 3 := by
      rw [← List.cons_append, ← List.cons_append, List.take_append_of_le_length]
      simp [quotes]
    rwa [htake] at hq

/-- A line ends before its break, or with the text. -/
theorem exists_line (cs : List Char) : ∃ r, cs = cs.takeWhile (· ≠ '\n') ++ r ∧
    cs.drop (cs.takeWhile (· ≠ '\n')).length = r ∧ '\n' ∉ cs.takeWhile (· ≠ '\n') ∧
    ∀ c ∈ r.head?, c = '\n' := by
  have hsplit := (List.takeWhile_append_dropWhile (p := (· ≠ '\n')) (l := cs)).symm
  refine ⟨cs.dropWhile (· ≠ '\n'), hsplit, ?_, fun hm => ?_, fun c hc => ?_⟩
  · nth_rewrite 2 [hsplit]
    exact List.drop_left
  · simpa using List.all_eq_true.mp List.all_takeWhile _ hm
  · have hstop := List.head?_dropWhile_not (· ≠ '\n') cs
    rw [Option.mem_def.mp hc] at hstop
    simpa using hstop

theorem exists_of_blockLexeme {cs : List Char} {l : Lexeme} (h : blockLexeme cs = .ok l) :
    ∃ head content rest value, cs = head ++ '\n' :: content ++ quotes ++ rest ∧
      l = .token .text value (head.length + content.length + 6) ∧ isBlankLine head = true ∧
      BlockContent content ∧ unescape (dedent content) = .ok value := by
  unfold blockLexeme at h
  dsimp only at h
  split at h
  · cases h
  · next b r hr =>
    split_ifs at h with hblank
    split at h
    · cases h
    · next content hcontent =>
      obtain ⟨rest, rfl, hblock⟩ := eq_append_of_blockContent? hcontent
      cases hu : unescape (dedent content) with
      | error p =>
        rw [hu] at h
        cases h
      | ok v =>
        rw [hu] at h
        cases h
        obtain ⟨q, hsplit, hdrop, -, hbreak⟩ := exists_line cs
        obtain rfl : b :: (content ++ quotes ++ rest) = q := hr.symm.trans hdrop
        obtain rfl : b = '\n' := hbreak b rfl
        exact ⟨_, content, rest, v, by simpa using hsplit, rfl, by simpa using hblank, hblock, hu⟩

theorem exists_of_plainLexeme {cs : List Char} {l : Lexeme} (h : plainLexeme cs = .ok l) :
    ∃ content rest value, cs = content ++ '"' :: rest ∧
      l = .token .text value (content.length + 1) ∧ PlainContent content ∧
      unescape content = .ok value := by
  unfold plainLexeme at h
  split at h
  · cases h
  · next content hcontent =>
    obtain ⟨rest, rfl, hplain⟩ := eq_append_of_plainContent? hcontent
    cases hu : unescape content with
    | error p =>
      rw [hu] at h
      cases h
    | ok v =>
      rw [hu] at h
      cases h
      exact ⟨content, rest, v, rfl, rfl, hplain, hu⟩

/-! ### Numbers -/

theorem isNumeralPart_of_isDigit {c : Char} (h : c.isDigit = true) : isNumeralPart c = true := by
  simp [isNumeralPart, isWholePart, h]

theorem isPrefix_append_drop {cs ds es : List Char} (hd : ds <+: cs) (he : es <+: cs.drop ds.length) :
    ds ++ es <+: cs := by
  obtain ⟨r, rfl⟩ := hd
  rw [List.drop_left] at he
  exact (List.prefix_append_right_inj ds).mpr he

theorem fractionPart_isPrefix (cs : List Char) :
    fractionPart cs <+: cs ∧ (fractionPart cs).all isNumeralPart = true := by
  unfold fractionPart
  split
  · next d r =>
    split
    · refine ⟨(List.prefix_cons_inj '.').mpr (List.takeWhile_prefix _), ?_⟩
      rw [List.all_cons, List.all_eq_true.mpr fun c hc => isNumeralPart_of_isDigit
        (List.all_eq_true.mp List.all_takeWhile c hc)]
      rfl
    · exact ⟨List.nil_prefix, rfl⟩
  · exact ⟨List.nil_prefix, rfl⟩

theorem exponentPart_isPrefix {cs exp : List Char} (h : exponentPart cs = .ok exp) :
    exp <+: cs ∧ exp.all isNumeralPart = true := by
  unfold exponentPart at h
  split at h
  · next e r =>
    split at h
    · next he =>
      dsimp only at h
      split at h
      · cases h
      · cases h
        have hsign : (r.take 1).filter (fun c => c = '+' || c = '-') <+: r := by
          cases r with
          | nil => exact List.nil_prefix
          | cons s r =>
            rw [List.take_succ_cons, List.take_zero, List.filter_singleton, cond_eq_ite]
            split
            · exact List.prefix_append [s] r
            · exact List.nil_prefix
        have hall := isPrefix_append_drop hsign (List.takeWhile_prefix Char.isDigit)
        refine ⟨(List.prefix_cons_inj e).mpr hall, ?_⟩
        rw [List.cons_append, List.all_cons, List.all_append, Bool.and_eq_true, Bool.and_eq_true,
          List.all_eq_true, List.all_eq_true]
        refine ⟨?_, fun c hc => ?_, fun c hc => ?_⟩
        · rcases (by simpa using he : e = 'e' ∨ e = 'E') with rfl | rfl <;> rfl
        · have hc : c = '+' ∨ c = '-' := by simpa using (List.mem_filter.mp hc).2
          rcases hc with rfl | rfl <;> rfl
        · exact isNumeralPart_of_isDigit (List.all_eq_true.mp List.all_takeWhile c hc)
    · cases h
      exact ⟨List.nil_prefix, rfl⟩
  · cases h
    exact ⟨List.nil_prefix, rfl⟩

/-- A number is a beginning of the text, made of characters that numbers have. -/
theorem numberPart_isPrefix {cs body : List Char} {floating : Bool}
    (h : numberPart cs = .ok (body, floating)) : body <+: cs ∧ body.all isNumeralPart = true := by
  have hwhole : cs.takeWhile isWholePart <+: cs ∧
      (cs.takeWhile isWholePart).all isNumeralPart = true := by
    refine ⟨List.takeWhile_prefix _, List.all_eq_true.mpr fun c hc => ?_⟩
    simp [isNumeralPart, List.all_eq_true.mp List.all_takeWhile c hc]
  unfold numberPart at h
  dsimp only at h
  generalize cs.takeWhile isWholePart = whole at h hwhole
  obtain ⟨hfrac, hfracAll⟩ := fractionPart_isPrefix (cs.drop whole.length)
  generalize fractionPart (cs.drop whole.length) = frac at h hfrac hfracAll
  replace hfrac := isPrefix_append_drop hwhole.1 hfrac
  rw [List.drop_drop, ← List.length_append] at h
  cases he : exponentPart (cs.drop (whole ++ frac).length) with
  | error p =>
    rw [he] at h
    cases h
  | ok exp =>
    obtain ⟨hexp, hexpAll⟩ := exponentPart_isPrefix he
    replace hexp := isPrefix_append_drop hfrac hexp
    rw [he] at h
    simp only [bind, Except.bind, pure, Except.pure] at h
    have hbody : (whole ++ frac ++ exp).all isNumeralPart = true := by
      rw [List.all_append, List.all_append, hwhole.2, hfracAll, hexpAll]
      rfl
    rw [List.drop_drop, ← List.length_append] at h
    split at h
    · next m r hr =>
      have hmark : whole ++ frac ++ exp ++ [m] <+: cs := isPrefix_append_drop hexp (by
        rw [hr]
        exact List.prefix_append [m] r)
      have hmarked (hm : isNumeralPart m = true) :
          (whole ++ frac ++ exp ++ [m]).all isNumeralPart = true := by
        rw [List.all_append, hbody]
        simp [hm]
      split at h
      · next hm =>
        cases h
        exact ⟨hmark, hmarked (by simp [isNumeralPart, isFloatSign, hm])⟩
      · split at h
        · next hm =>
          cases h
          exact ⟨hmark, hmarked (by simp [isNumeralPart, (Bool.and_eq_true_iff.mp hm).1])⟩
        · cases h
          exact ⟨hexp, hbody⟩
    · cases h
      exact ⟨hexp, hbody⟩

/-- What is read as a token is a text of it. -/
theorem denotes_of_lexeme {c : Char} {r value : List Char} {kind : TokenKind} {n : Nat}
    (h : lexeme c r = .ok (.token kind value n)) : Denotes (c :: r.take n) kind value := by
  unfold lexeme at h
  split_ifs at h with _ _ _ hblock hplain hdigit hstart hop
  · cases h
  · cases h
  · split at h <;> cases h
  · obtain ⟨head, content, rest, v, hr, hl, hh, hc, hv⟩ := exists_of_blockLexeme h
    cases hl
    obtain ⟨hquote, htwo⟩ := Bool.and_eq_true_iff.mp hblock
    obtain rfl : c = '"' := of_decide_eq_true hquote
    have htext : r = ['"', '"'] ++ (head ++ '\n' :: content ++ quotes) ++ rest := by
      rw [← List.take_append_drop 2 r, of_decide_eq_true htwo, hr]
      simp only [List.append_assoc]
    rw [htext, List.take_left' (by simp [quotes]; omega)]
    exact .block hh hc hv
  · obtain ⟨content, rest, v, rfl, hl, hc, hv⟩ := exists_of_plainLexeme h
    cases hl
    rw [hplain, List.append_cons, List.take_left' (by simp)]
    exact .plain hc hv
  · cases hn : numberPart (c :: r) with
    | error p =>
      rw [hn] at h
      cases h
    | ok x =>
      obtain ⟨body, floating⟩ := x
      rw [hn] at h
      cases h
      obtain ⟨hbody, hall⟩ := numberPart_isPrefix hn
      obtain ⟨hfloat, more, hwhole⟩ := any_isFloatSign_of_numberPart hn
      rw [List.takeWhile_cons_of_pos (by simp [isWholePart, hdigit]), List.cons_append] at hwhole
      subst hwhole
      rw [List.all_cons, Bool.and_eq_true] at hall
      rw [List.length_cons, Nat.add_sub_cancel,
        ← List.prefix_iff_eq_take.mp ((List.prefix_cons_inj c).mp hbody)]
      exact .number hdigit hall.2 (by rw [numeralKind, hfloat])
  · cases h
    rw [← List.prefix_iff_eq_take.mp (List.takeWhile_prefix isIdentPart)]
    refine .ident ?_
    rw [isIdentifier, hstart, Bool.true_and]
    exact List.all_takeWhile
  · cases h
    exact .op hop

/-! ### What stands between tokens -/

/-- Blanks and comments, one after the other. Only behind the `last` token may the text end within a
line comment. -/
inductive Between (last : Bool) : List Char → Prop
  | nil : Between last []
  | blank {c : Char} {cs : List Char} (hc : isGap c = true) (h : Between last cs) :
    Between last (c :: cs)
  | line {body cs : List Char} (hb : '\n' ∉ body) (h : Between last ('\n' :: cs)) :
    Between last ('/' :: '/' :: body ++ '\n' :: cs)
  | block {body cs : List Char} (hb : ¬ ['*', '/'] <:+: body ++ ['*']) (h : Between last cs) :
    Between last ('/' :: '*' :: body ++ '*' :: '/' :: cs)
  | lastLine (hl : last = true) {body : List Char} (hb : '\n' ∉ body) : Between last ('/' :: '/' :: body)

/-- A block comment ends at the first mark of its end. -/
theorem exists_of_commentLength? {cs : List Char} {n : Nat} (h : commentLength? cs = some n) :
    ∃ body rest, cs = body ++ '*' :: '/' :: rest ∧ n = body.length + 2 ∧
      ¬ ['*', '/'] <:+: body ++ ['*'] := by
  fun_induction commentLength? cs generalizing n with
  | case1 rest =>
    cases h
    exact ⟨[], rest, rfl, rfl, by decide⟩
  | case2 c r hmark ih =>
    obtain ⟨n, hr, rfl⟩ := Option.map_eq_some_iff.mp h
    obtain ⟨body, rest, rfl, rfl, hb⟩ := ih hr
    refine ⟨c :: body, rest, rfl, by simp, fun hm => ?_⟩
    rcases List.infix_cons_iff.mp hm with hm | hm
    · obtain ⟨hstar, hm⟩ := List.cons_prefix_cons.mp hm
      cases body with
      | nil => cases (List.cons_prefix_cons.mp hm).1
      | cons d body =>
        obtain rfl : '/' = d := (List.cons_prefix_cons.mp hm).1
        exact hmark _ hstar.symm rfl
    · exact hb hm
  | case3 => cases h

theorem exists_of_take_one {cs : List Char} {c : Char} (h : cs.take 1 = [c]) : ∃ r, cs = c :: r := by
  cases cs with
  | nil => cases h
  | cons d r =>
    obtain rfl : d = c := (List.cons.inj h).1
    exact ⟨r, rfl⟩

/-- What is skipped may stand between tokens, in front of more that may. A line comment has its line
break or the end of the text behind it, so that must be in `cs` as well. -/
theorem between_of_lexeme {c : Char} {r cs : List Char} {n : Nat} {last : Bool}
    (h : lexeme c r = .ok (.gap n)) (hcs : Between last cs)
    (hend : r.drop n = [] → last = true ∧ cs = [])
    (hhead : (r.drop n).head? = some '\n' → cs.head? = some '\n') :
    Between last (c :: r.take n ++ cs) := by
  unfold lexeme at h
  split_ifs at h with hgap hline hcomment _ _ _ hstart hop
  · cases h
    exact .blank hgap hcs
  · cases h
    obtain ⟨hslash, hone⟩ := Bool.and_eq_true_iff.mp hline
    obtain rfl : c = '/' := of_decide_eq_true hslash
    obtain ⟨r, rfl⟩ := exists_of_take_one (of_decide_eq_true hone)
    obtain ⟨q, -, hdrop, hbody, hbreak⟩ := exists_line r
    rw [List.takeWhile_cons_of_pos (by decide)] at hend hhead ⊢
    rw [List.length_cons, List.drop_succ_cons, hdrop] at hend hhead
    rw [List.length_cons, List.take_succ_cons,
      ← List.prefix_iff_eq_take.mp (List.takeWhile_prefix _)]
    cases q with
    | nil =>
      obtain ⟨hlast, rfl⟩ := hend rfl
      rw [List.append_nil]
      exact .lastLine hlast hbody
    | cons b q =>
      obtain rfl : b = '\n' := hbreak b rfl
      obtain ⟨cs, rfl⟩ := List.head?_eq_some_iff.mp (hhead rfl)
      exact .line hbody hcs
  · split at h
    · cases h
    · next k hk =>
      cases h
      obtain ⟨hslash, hone⟩ := Bool.and_eq_true_iff.mp hcomment
      obtain rfl : c = '/' := of_decide_eq_true hslash
      obtain ⟨r, rfl⟩ := exists_of_take_one (of_decide_eq_true hone)
      obtain ⟨body, rest, hr, rfl, hbody⟩ := exists_of_commentLength? hk
      obtain rfl : r = body ++ '*' :: '/' :: rest := hr
      have htake : (body ++ '*' :: '/' :: rest).take (body.length + 2) = body ++ ['*', '/'] := by
        rw [List.append_cons, List.append_cons, List.append_assoc body]
        exact List.take_left' (by simp)
      rw [List.take_succ_cons, htake]
      simpa using Between.block hbody hcs
  · obtain ⟨_, _, _, _, -, hl, -⟩ := exists_of_blockLexeme h
    cases hl
  · obtain ⟨_, _, _, -, hl, -⟩ := exists_of_plainLexeme h
    cases hl
  · cases hn : numberPart (c :: r) <;> rw [hn] at h <;> cases h
  · cases h
  · cases h

/-! ### Texts with tokens -/

/-- The tokens of a text, of which `before` is read and `cs` is left: what may stand between tokens,
then the text of the next one, which has the place behind all that, and so on. The mark of the end
has the place behind the whole text. -/
inductive Laid : (before cs : List Char) → List Token → Prop
  | fin {before gap : List Char} (hg : Between true gap) :
    Laid before gap [⟨.eof, "", .after (before ++ gap)⟩]
  | token {before gap text rest value : List Char} {kind : TokenKind} {ts : List Token}
    (hg : Between false gap) (ht : Denotes text kind value)
    (h : Laid (before ++ gap ++ text) rest ts) :
    Laid before (gap ++ text ++ rest) (⟨kind, String.ofList value, .after (before ++ gap)⟩ :: ts)

/-- What is skipped in front of the tokens changes none of them. -/
theorem Laid.skip {before r : List Char} {c : Char} {n : Nat} {ts : List Token}
    (hl : lexeme c r = .ok (.gap n)) (h : Laid (before ++ c :: r.take n) (r.drop n) ts) :
    Laid before (c :: r) ts := by
  rw [← List.take_append_drop n r, ← List.cons_append]
  generalize hd : r.drop n = rest at h ⊢
  cases h with
  | fin hg =>
    rw [List.append_assoc]
    exact .fin (between_of_lexeme hl hg (fun hnil => ⟨rfl, hd ▸ hnil⟩) (by rw [hd]; exact id))
  | @token _ gap text rest value kind ts hg ht h =>
    have hgap : Between false (c :: r.take n ++ gap) := by
      refine between_of_lexeme hl hg (fun hnil => ?_) fun hbreak => ?_
      · rw [hd] at hnil
        simp [ht.ne_nil] at hnil
      · obtain ⟨d, hhead, hne⟩ := ht.head?
        rw [hd, List.append_assoc, List.head?_append, List.head?_append, hhead] at hbreak
        cases gap with
        | nil => exact absurd (Option.some.inj hbreak) hne
        | cons b gap => exact hbreak
    have hlaid := Laid.token hgap ht (by rwa [← List.append_assoc before])
    simpa using hlaid

theorem laid_of_scan {before cs : List Char} {ts : List Token}
    (h : scan (.after before) cs = .ok ts) : Laid before cs ts := by
  generalize hpos : Position.after before = pos at h
  fun_induction scan pos cs generalizing before ts with
  | case1 pos =>
    cases h
    subst hpos
    simpa using @Laid.fin before [] .nil
  | case2 pos c r p hp => cases h
  | case3 pos c r n hl ih =>
    rw [← hpos, Position.advance_after] at ih h
    exact (ih rfl h).skip hl
  | case4 pos c r kind value n hl ih =>
    cases hs : scan (pos.advance (c :: r.take n)) (r.drop n) with
    | error f =>
      rw [hs] at h
      cases h
    | ok us =>
      rw [hs] at h
      cases h
      subst hpos
      rw [Position.advance_after] at ih hs
      have hlaid := Laid.token .nil (denotes_of_lexeme hl) (by simpa using ih rfl hs)
      simpa using hlaid

/-! ### Places of tokens -/

/-- Each token has the place behind some beginning of the text. -/
theorem Laid.exists_pos_eq_after {before cs : List Char} {ts : List Token}
    (h : Laid before cs ts) :
    ∀ t ∈ ts, ∃ ds rest, cs = ds ++ rest ∧ t.pos = .after (before ++ ds) := by
  induction h with
  | @fin before gap hg => exact List.forall_mem_singleton.mpr ⟨gap, [], by simp, rfl⟩
  | @token before gap text rest value kind ts hg ht h ih =>
    refine List.forall_mem_cons.mpr ⟨⟨gap, text ++ rest, by simp, rfl⟩, fun t hts => ?_⟩
    obtain ⟨ds, rest, rfl, hpos⟩ := ih t hts
    exact ⟨gap ++ text ++ ds, rest, by simp, by simpa using hpos⟩

/-- The places of the tokens increase. -/
theorem Laid.pairwise {before cs : List Char} {ts : List Token} (h : Laid before cs ts) :
    (ts.map Token.pos).Pairwise Position.Before := by
  induction h with
  | fin => exact List.pairwise_singleton _ _
  | @token before gap text rest value kind ts hg ht h ih =>
    refine List.pairwise_cons.mpr ⟨List.forall_mem_map.mpr fun t hts => ?_, ih⟩
    obtain ⟨ds, -, -, hpos⟩ := h.exists_pos_eq_after t hts
    have hne : text ++ ds ≠ [] := fun hnil => ht.ne_nil (List.append_eq_nil_iff.mp hnil).1
    rw [hpos, List.append_assoc]
    exact Position.after_before_after _ hne

/-- The mark of the end has the place of the end. -/
theorem Laid.exists_eq_append {before cs : List Char} {ts : List Token} (h : Laid before cs ts) :
    ∃ us, ts = us ++ [⟨.eof, "", .after (before ++ cs)⟩] := by
  induction h with
  | fin => exact ⟨[], rfl⟩
  | token hg ht h ih =>
    obtain ⟨us, rfl⟩ := ih
    simp only [List.append_assoc, ← List.cons_append]
    exact ⟨_, rfl⟩

/-! ### Line breaks of source texts -/

theorem joinBreaks_append_break (cs ds : List Char) :
    joinBreaks (cs ++ '\r' :: '\n' :: ds) = joinBreaks cs ++ '\n' :: joinBreaks ds := by
  fun_induction joinBreaks cs with
  | case1 r ih => rw [List.cons_append, List.cons_append, joinBreaks, ih, List.cons_append]
  | case2 c r hc ih =>
    rw [List.cons_append, joinBreaks, ih, List.cons_append]
    intro s hreturn hs
    cases r with
    | nil => cases hs
    | cons d r =>
      obtain rfl : d = '\n' := (List.cons.inj hs).1
      exact hc r hreturn rfl
  | case3 => rfl

theorem joinBreaks_eq_self {cs : List Char} (h : ¬ ['\r', '\n'] <:+: cs) : joinBreaks cs = cs := by
  fun_induction joinBreaks cs with
  | case1 r ih => exact absurd (List.prefix_append ['\r', '\n'] r).isInfix h
  | case2 c r hc ih => rw [ih fun hr => h (List.infix_cons hr)]
  | case3 => rfl

/-- Lines that a carriage return and a line break part are parted by the line break alone. -/
theorem joinBreaks_intercalate {ls : List (List Char)} (h : ∀ l ∈ ls, ¬ ['\r', '\n'] <:+: l) :
    joinBreaks (['\r', '\n'].intercalate ls) = ['\n'].intercalate ls := by
  induction ls with
  | nil => rfl
  | cons l ls ih =>
    obtain ⟨hl, hls⟩ := List.forall_mem_cons.mp h
    cases ls with
    | nil =>
      rw [List.intercalate_singleton, List.intercalate_singleton, joinBreaks_eq_self hl]
    | cons m ls =>
      rw [List.intercalate_cons_cons, List.intercalate_cons_cons, ← ih hls]
      simpa [joinBreaks_eq_self hl] using
        joinBreaks_append_break l (['\r', '\n'].intercalate (m :: ls))

/-! ### Source texts -/

/-- The tokens of a source text make it up, with blanks and comments in between. Each has the place
where its text begins, the places increase, and the mark of the end has the place of the end. -/
theorem laid_of_tokenize {source : String} {ts : List Token} (h : tokenize source = .ok ts) :
    Laid [] (joinBreaks source.toList) ts ∧ (ts.map Token.pos).Pairwise Position.Before ∧
      ∃ us, ts = us ++ [⟨.eof, "", .after (joinBreaks source.toList)⟩] := by
  have hlaid := @laid_of_scan [] _ ts h
  exact ⟨hlaid, hlaid.pairwise, hlaid.exists_eq_append⟩

/-- A comment and a text block over several lines, and a line comment at the end. -/
theorem laid_of_tokenize_block :
    let source := "a(\r\n/* b\n*/ \"\"\"\n  c\\\n  \"\"\", // d"
    let ts : List Token := [⟨.ident, "a", ⟨1, 1⟩⟩, ⟨.op, "(", ⟨1, 2⟩⟩, ⟨.text, "c", ⟨3, 4⟩⟩,
      ⟨.op, ",", ⟨5, 6⟩⟩, ⟨.eof, "", ⟨5, 12⟩⟩]
    tokenize source = .ok ts ∧
      Laid [] (joinBreaks source.toList) ts ∧ (ts.map Token.pos).Pairwise Position.Before ∧
        ∃ us, ts = us ++ [⟨.eof, "", .after (joinBreaks source.toList)⟩] := by
  intro source ts
  have htokens : tokenize source = .ok ts := by
    subst source ts
    cbv
  exact ⟨htokens, laid_of_tokenize htokens⟩

end FluentPlan.Script
