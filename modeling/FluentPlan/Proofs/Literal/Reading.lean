import Mathlib.Data.List.Basic
import Mathlib.Tactic.Common
import FluentPlan.Proofs.Literal.TextBlock

/-!
Tokens apart from their places, and the literal at the head of a text. `Reads` says what the tokens
of a text are wherever it begins, so that pieces of text can be read one after the other. The main
result is that a literal reads as the text it was made of, whatever follows.
-/

namespace FluentPlan.Script

open Java Text

/-- The text has tokens that say `ws`, wherever it begins. -/
def Reads (cs : List Char) (ws : List (TokenKind × String)) : Prop :=
  ∀ pos, ∃ ts, scan pos cs = .ok ts ∧ ts.map Token.content = ws

theorem reads_nil : Reads [] [(.eof, "")] := fun pos => ⟨[⟨.eof, "", pos⟩], by rw [scan], rfl⟩

theorem reads_gap {c : Char} {r : List Char} {n : Nat} {ws : List (TokenKind × String)}
    (hl : lexeme c r = .ok (.gap n)) (h : Reads (r.drop n) ws) : Reads (c :: r) ws := by
  intro pos
  obtain ⟨ts, hs, hw⟩ := h (pos.advance (c :: r.take n))
  refine ⟨ts, ?_, hw⟩
  rw [scan]
  simp only [hl, hs]

theorem reads_token {c : Char} {r v : List Char} {n : Nat} {kind : TokenKind}
    {ws : List (TokenKind × String)} (hl : lexeme c r = .ok (.token kind v n))
    (h : Reads (r.drop n) ws) : Reads (c :: r) ((kind, String.ofList v) :: ws) := by
  intro pos
  obtain ⟨ts, hs, hw⟩ := h (pos.advance (c :: r.take n))
  refine ⟨⟨kind, String.ofList v, pos⟩ :: ts, ?_, by simp [Token.content, hw]⟩
  rw [scan]
  simp only [hl, hs]
  rfl

/-- What a text says does not depend on where it begins. -/
theorem reads_of_scan {pos : Position} {cs : List Char} {ts : List Token}
    (h : scan pos cs = .ok ts) : Reads cs (ts.map Token.content) := by
  fun_induction scan pos cs generalizing ts with
  | case1 pos =>
    cases h
    exact reads_nil
  | case2 pos c r p hl => cases h
  | case3 pos c r n hl ih => exact reads_gap hl (ih h)
  | case4 pos c r kind v n hl ih =>
    cases hs : scan (pos.advance (c :: r.take n)) (r.drop n) with
    | error e =>
      rw [hs] at h
      cases h
    | ok us =>
      rw [hs] at h
      cases h
      exact reads_token hl (ih hs)

/-! ### Line breaks of source texts -/

theorem joinBreaks_append {cs : List Char} (h : '\r' ∉ cs) (r : List Char) :
    joinBreaks (cs ++ r) = cs ++ joinBreaks r := by
  induction cs with
  | nil => rfl
  | cons c cs ih =>
    obtain ⟨hc, hcs⟩ := not_or.mp (mt List.mem_cons.mpr h)
    rw [List.cons_append, joinBreaks.eq_def]
    split
    · simp_all
    · simp_all
    · simp_all

theorem head?_joinBreaks {cs : List Char} (h : cs.head? ≠ some '"') :
    (joinBreaks cs).head? ≠ some '"' := by
  rw [joinBreaks.eq_def]
  split <;> simp_all

theorem reads_of_tokenize {s : String} {ts : List Token} (h : tokenize s = .ok ts) :
    Reads (joinBreaks s.toList) (ts.map Token.content) := reads_of_scan h

theorem tokenize_of_reads {s : String} {ws : List (TokenKind × String)}
    (h : Reads (joinBreaks s.toList) ws) :
    ∃ ts, tokenize s = .ok ts ∧ ts.map Token.content = ws := h .start

/-! ### Literals -/

theorem lexeme_plainLiteral (cs : List Char) {r : List Char} (h : r.head? ≠ some '"') :
    lexeme '"' (escape cs ++ '"' :: r) = .ok (.token .text cs ((escape cs).length + 1)) := by
  have htake : (escape cs ++ '"' :: r).take 2 ≠ ['"', '"'] := by
    cases cs with
    | nil => cases r <;> simp_all
    | cons c cs =>
      intro ht
      apply head?_escapeChar c (escape cs ++ '"' :: r)
      rw [← List.append_assoc, ← escape_cons]
      cases hs : escape (c :: cs) ++ '"' :: r <;> simp_all
  have hu : unescape (escape cs) = .ok cs := by
    have := unescape_escape cs []
    rw [List.append_nil] at this
    simpa [unescape, Except.map] using this
  simp only [lexeme, isGap, htake, plainLexeme, plainContent?_escape, hu]
  simp [bind, Except.bind, pure, Except.pure]

theorem reads_plainLiteral (cs : List Char) {r : List Char} {ws : List (TokenKind × String)}
    (hq : r.head? ≠ some '"') (h : Reads r ws) :
    Reads (plainLiteral cs ++ r) ((.text, String.ofList cs) :: ws) := by
  have hl := lexeme_plainLiteral cs hq
  have hd : (escape cs ++ '"' :: r).drop ((escape cs).length + 1) = r := by
    rw [← List.drop_drop, List.drop_left]
    rfl
  simp only [plainLiteral, List.cons_append, List.append_assoc, List.nil_append]
  exact reads_token hl (by rw [hd]; exact h)

/-- The block with these lines between its quotes says what its lines say. -/
theorem reads_block {indent : List Char} (hi : indent.all isIndent = true)
    {rows : List (List Char)} (hr : ∀ row ∈ rows, IsRow row) (hne : rows ≠ []) {cs : List Char}
    (hu : unescape (endLines rows) = .ok cs) {r : List Char} {ws : List (TokenKind × String)}
    (h : Reads r ws) : Reads ('"' :: '"' :: '"' :: '\n' :: blockBody indent rows ++
      '"' :: '"' :: '"' :: r) ((.text, String.ofList cs) :: ws) := by
  have hl : lexeme '"' ('"' :: '"' :: '\n' :: blockBody indent rows ++ '"' :: '"' :: '"' :: r) =
      .ok (.token .text cs ((blockBody indent rows).length + 6)) := by
    simp [lexeme, isGap, blockLexeme, blockContent?_blockBody hi hr, dedent_blockBody hi hr hne,
      hu, isBlankLine, bind, Except.bind, pure, Except.pure]
  have hd : ('"' :: '"' :: '\n' :: blockBody indent rows ++ '"' :: '"' :: '"' :: r).drop
      ((blockBody indent rows).length + 6) = r := by
    have hs : '"' :: '"' :: '\n' :: blockBody indent rows ++ '"' :: '"' :: '"' :: r =
        ('"' :: '"' :: '\n' :: blockBody indent rows ++ ['"', '"', '"']) ++ r := by simp
    rw [hs]
    exact List.drop_left' (by simp)
  exact reads_token hl ((congrArg (Reads · ws) hd).mpr h)

/-- A text block has the same rows at every indentation. -/
theorem textBlock_eq {cs : List Char} (hn : '\n' ∈ cs) :
    ∃ rows, (∀ row ∈ rows, IsRow row) ∧ rows ≠ [] ∧ unescape (endLines rows) = .ok cs ∧
      ∀ indent, textBlock cs indent =
        '"' :: '"' :: '"' :: '\n' :: blockBody indent rows ++ ['"', '"', '"'] := by
  obtain ⟨ms, m, hl, hms⟩ := exists_lines_concat hn
  have hcs : endLines ms ++ m = cs := by rw [← unlines_concat, ← hl, unlines_lines]
  have hbody (continued : Bool) {ls : List (List Char)} (h : ls ≠ []) (indent : List Char) :
      unlines ((blockLines continued ls).map (placeRow indent)) ++ '\n' :: indent =
        blockBody indent (blockLines continued ls) := by
    apply unlines_append_break
    simpa using blockLines_ne_nil continued h
  rcases eq_or_ne m [] with rfl | hm
  · refine ⟨blockLines false ms, isRow_blockLines false ms, blockLines_ne_nil false hms, ?_, fun indent => ?_⟩
    · have hu := unescape_complete ms []
      rw [List.append_nil] at hu hcs
      rw [hu, hcs]
      simp [unescape, Except.map]
    · rw [← hbody false hms indent]
      simp only [textBlock, hl, List.getLastD_concat, List.dropLast_concat]
      simp
      rfl
  · have hne : lines cs ≠ [] := by simp [hl]
    refine ⟨blockLines true (lines cs), isRow_blockLines true _, blockLines_ne_nil true hne, ?_,
      fun indent => ?_⟩
    · have hu := unescape_continued hne []
      rw [List.append_nil, unlines_lines] at hu
      simpa [unescape, Except.map] using hu
    · rw [← hbody true hne indent]
      simp [textBlock, hl, hm]
      rfl

theorem reads_textBlock {indent : List Char} (hi : indent.all isIndent = true) {cs : List Char}
    (hn : '\n' ∈ cs) {r : List Char} {ws : List (TokenKind × String)} (h : Reads r ws) :
    Reads (textBlock cs indent ++ r) ((.text, String.ofList cs) :: ws) := by
  obtain ⟨rows, hr, hne, hu, he⟩ := textBlock_eq hn
  rw [he indent, List.append_assoc]
  exact reads_block hi hr hne hu h

/-- A literal reads as the text it was made of, and what follows as if it stood alone. -/
theorem reads_literal {indent : List Char} (hi : indent.all isIndent = true) (cs : List Char)
    (blocks : Bool) {r : List Char} {ws : List (TokenKind × String)} (hq : r.head? ≠ some '"')
    (h : Reads r ws) : Reads (literal cs indent blocks ++ r) ((.text, String.ofList cs) :: ws) := by
  unfold literal
  split_ifs with hb
  · have hn : '\n' ∈ cs := List.contains_iff_mem.mp (Bool.and_eq_true_iff.mp hb).2
    exact reads_textBlock hi hn h
  · exact reads_plainLiteral cs hq h

theorem textBlock_no_return {indent : List Char} (hi : indent.all isIndent = true) {cs : List Char}
    (hn : '\n' ∈ cs) : '\r' ∉ textBlock cs indent := by
  obtain ⟨rows, hr, -, -, he⟩ := textBlock_eq hn
  have hind : '\r' ∉ indent := fun hm => absurd (List.all_eq_true.mp hi _ hm) (by decide)
  have hrows : '\r' ∉ endLines (rows.map (placeRow indent)) := by
    intro hm
    obtain ⟨l, hl, hc⟩ := List.mem_flatMap.mp hm
    obtain ⟨row, hrow, rfl⟩ := List.mem_map.mp hl
    have hrr := (hr row hrow).no_return
    unfold placeRow at hc
    split_ifs at hc
    · simp at hc
    · simp [hind, hrr] at hc
  simp [he indent, blockBody, hrows, hind]

theorem literal_no_return {indent : List Char} (hi : indent.all isIndent = true) (cs : List Char)
    (blocks : Bool) : '\r' ∉ literal cs indent blocks := by
  unfold literal
  split_ifs with hb
  · exact textBlock_no_return hi (List.contains_iff_mem.mp (Bool.and_eq_true_iff.mp hb).2)
  · simp [plainLiteral, escape_no_return]

/-- The tokens of a literal before another text are the literal's own text and the tokens of the
other text. That one must not begin with a quote, which would turn two quotes into three. -/
theorem tokenize_literal_append (v : String) {indent : List Char}
    (hi : indent.all isIndent = true) (blocks : Bool) {rest : String} {ts : List Token}
    (h : tokenize rest = .ok ts) (hq : rest.toList.head? ≠ some '"') :
    ∃ us, tokenize (String.ofList (literal v.toList indent blocks) ++ rest) = .ok us ∧
      us.map Token.content = (.text, v) :: ts.map Token.content := by
  apply tokenize_of_reads
  rw [String.toList_append, String.toList_ofList, joinBreaks_append (literal_no_return hi _ blocks)]
  have hread := reads_literal hi v.toList blocks (head?_joinBreaks hq) (reads_of_tokenize h)
  rwa [String.ofList_toList] at hread

/-- A run of quotes, blanks at the end of a line, a control character before a digit and no last
line break, in a block before the rest of an argument list. -/
theorem tokenize_block_append :
    let v := "a\"\"\"\"\n \t \n\x017"
    let ts : List Token := [⟨.op, ",", ⟨1, 1⟩⟩, ⟨.op, "-", ⟨1, 3⟩⟩, ⟨.int, "1", ⟨1, 4⟩⟩,
      ⟨.op, ")", ⟨1, 5⟩⟩, ⟨.eof, "", ⟨1, 6⟩⟩]
    ([' ', '\t'].all isIndent = true ∧ tokenize ", -1)" = .ok ts ∧
      ", -1)".toList.head? ≠ some '"') ∧
      ∃ us, tokenize (String.ofList (literal v.toList [' ', '\t'] true) ++ ", -1)") = .ok us ∧
        us.map Token.content = (.text, v) :: ts.map Token.content := by
  intro v ts
  have hi : [' ', '\t'].all isIndent = true := by decide
  have ht : tokenize ", -1)" = .ok ts := by with_unfolding_all rfl
  have hq : ", -1)".toList.head? ≠ some '"' := by decide
  exact ⟨⟨hi, ht, hq⟩, tokenize_literal_append v hi true ht hq⟩

end FluentPlan.Script
