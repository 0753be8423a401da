import FluentPlan.Proofs.Lexing.Layout

/-!
Line breaks in plain literals. A plain literal stays on its line, with one exception: a backslash
takes the next character with it, and a line break is no exception to that. `Arrives` says where a
scan stands between two lexemes; a token begins at such a place, and what is wrong there is what the
scan fails with.
-/

namespace FluentPlan.Script

open Text

/-! ### Places of a scan -/

/-- A scan of `cs` that begins at `pos` comes to the place `q`, with `ds` left. -/
inductive Arrives : (pos : Position) → (cs : List Char) → (q : Position) → (ds : List Char) → Prop
  | here (pos : Position) (cs : List Char) : Arrives pos cs pos cs
  | step {pos q : Position} {c : Char} {r ds : List Char} {l : Lexeme} (hl : lexeme c r = .ok l)
    (h : Arrives (pos.advance (c :: r.take l.more)) (r.drop l.more) q ds) :
    Arrives pos (c :: r) q ds

/-- A scan counts up the places of what it has read. -/
theorem Arrives.exists_eq_append {pos q : Position} {cs ds : List Char}
    (h : Arrives pos cs q ds) : ∃ read, cs = read ++ ds ∧ q = pos.advance read := by
  induction h with
  | here pos cs => exact ⟨[], rfl, rfl⟩
  | @step pos q c r ds l hl h ih =>
    obtain ⟨read, hr, rfl⟩ := ih
    refine ⟨c :: r.take l.more ++ read, ?_, by rw [Position.advance_append]⟩
    rw [List.append_assoc, ← hr, List.cons_append, List.take_append_drop]

/-- What a scan fails with where it comes to, it fails with at all. -/
theorem Arrives.scan_eq_error {pos q : Position} {cs ds : List Char} (h : Arrives pos cs q ds)
    {f : Failure} (hf : scan q ds = .error f) : scan pos cs = .error f := by
  induction h with
  | here => exact hf
  | @step pos q c r ds l hl h ih =>
    rw [scan]
    cases l with
    | gap n =>
      simp only [hl]
      exact ih hf
    | token kind value n =>
      have hrest : scan (pos.advance (c :: r.take n)) (r.drop n) = .error f := ih hf
      simp only [hl, hrest]
      rfl

/-- A token other than the mark of the end begins where the scan comes to. -/
theorem exists_arrives_of_mem {pos : Position} {cs : List Char} {ts : List Token}
    (h : scan pos cs = .ok ts) {t : Token} (ht : t ∈ ts) : t.pos = pos.advance cs ∨
      ∃ c r n, Arrives pos cs t.pos (c :: r) ∧
        lexeme c r = .ok (.token t.kind t.value.toList n) := by
  fun_induction scan pos cs generalizing ts with
  | case1 pos =>
    cases h
    rw [List.mem_singleton.mp ht]
    exact .inl rfl
  | case2 pos c r p hp => cases h
  | case3 pos c r n hl ih =>
    rcases ih h ht with hend | ⟨d, s, m, harrives, hd⟩
    · refine .inl (hend.trans ?_)
      rw [← Position.advance_append, List.cons_append, List.take_append_drop]
    · exact .inr ⟨d, s, m, .step hl harrives, hd⟩
  | case4 pos c r kind value n hl ih =>
    cases hs : scan (pos.advance (c :: r.take n)) (r.drop n) with
    | error f =>
      rw [hs] at h
      cases h
    | ok us =>
      rw [hs] at h
      cases h
      rcases List.mem_cons.mp ht with rfl | ht
      · exact .inr ⟨c, r, n, .here _ _, by rw [String.toList_ofList]; exact hl⟩
      · rcases ih hs ht with hend | ⟨d, s, m, harrives, hd⟩
        · refine .inl (hend.trans ?_)
          rw [← Position.advance_append, List.cons_append, List.take_append_drop]
        · exact .inr ⟨d, s, m, .step hl harrives, hd⟩

/-! ### Plain literals -/

theorem lexeme_eq_plainLexeme {cs : List Char} (h : cs.take 2 ≠ ['"', '"']) :
    lexeme '"' cs = plainLexeme cs := by
  simp [lexeme, isGap, h]

/-- Where a line break stands in a plain literal, a backslash stands right before it. -/
theorem PlainContent.infix_of_mem {content : List Char} (h : PlainContent content)
    (hn : '\n' ∈ content) : ['\\', '\n'] <:+: content := by
  induction h with
  | nil => cases hn
  | @pair c cs h ih =>
    rcases List.mem_cons.mp hn with hn | hn
    · exact absurd hn (by decide)
    · rcases List.mem_cons.mp hn with rfl | hn
      · exact (List.prefix_append ['\\', '\n'] cs).isInfix
      · exact List.infix_cons (List.infix_cons (ih hn))
  | @char c cs hc ha h ih =>
    rcases List.mem_cons.mp hn with rfl | hn
    · exact absurd rfl ha.2
    · exact List.infix_cons (ih hn)

/-- A line break that no backslash takes leaves a plain literal open. -/
theorem plainContent?_append_break {content : List Char} (h : PlainContent content)
    (r : List Char) : plainContent? (content ++ '\n' :: r) = none := by
  induction h with
  | nil => simp [plainContent?]
  | @pair c cs h ih => simp [plainContent?, ih]
  | @char c cs hc ha h ih =>
    rw [List.cons_append, plainContent?_other hc ha.1 ha.2, ih]
    rfl

theorem PlainContent.take_two_ne {content : List Char} (h : PlainContent content) (r : List Char) :
    (content ++ '\n' :: r).take 2 ≠ ['"', '"'] := by
  intro ht
  cases h with
  | nil => exact absurd (List.cons.inj ht).1 (by decide)
  | pair c h => exact absurd (List.cons.inj ht).1 (by decide)
  | char hc ha h => exact ha.1 (List.cons.inj ht).1

/-- A plain literal goes from its place up to the first quote that no backslash takes, and has a line
break only right behind a backslash. Where the scan comes to a plain literal with any other line
break before its closing quote, the text has no tokens, and the literal is reported as open. -/
theorem plainContent_of_tokenize (source : String) :
    (∀ ts, tokenize source = .ok ts → ∀ t ∈ ts, ∀ before cs,
      joinBreaks source.toList = before ++ '"' :: cs → t.pos = .after before →
      cs.take 2 ≠ ['"', '"'] → ∃ content rest, cs = content ++ '"' :: rest ∧
        t.kind = .text ∧ unescape content = .ok t.value.toList ∧ PlainContent content ∧
        ('\n' ∈ content → ['\\', '\n'] <:+: content)) ∧
    ∀ pos content rest,
      Arrives .start (joinBreaks source.toList) pos ('"' :: content ++ '\n' :: rest) →
      PlainContent content → tokenize source = .error (.report (.lexical .openText pos)) := by
  constructor
  · intro ts h t ht before cs hsource hpos hblock
    rcases exists_arrives_of_mem h ht with hend | ⟨c, r, n, harrives, hl⟩
    · rw [Position.advance_start, hpos, hsource] at hend
      cases Position.eq_nil_of_after_append hend.symm
    · obtain ⟨read, hread, hq⟩ := harrives.exists_eq_append
      rw [Position.advance_start, hpos] at hq
      obtain rfl := Position.eq_of_after_eq (hsource.symm.trans hread) hq
      have hsame := List.append_cancel_left (hsource.symm.trans hread)
      obtain ⟨rfl, rfl⟩ := List.cons.inj hsame
      rw [lexeme_eq_plainLexeme hblock] at hl
      obtain ⟨content, rest, value, hcs, htoken, hcontent, hvalue⟩ := exists_of_plainLexeme hl
      injection htoken with hkind htext
      exact ⟨content, rest, hcs, hkind, htext ▸ hvalue, hcontent, hcontent.infix_of_mem⟩
  · intro pos content rest harrives hcontent
    refine harrives.scan_eq_error ?_
    rw [List.cons_append, scan, lexeme_eq_plainLexeme (hcontent.take_two_ne rest)]
    simp only [plainLexeme, plainContent?_append_break hcontent rest]

/-- The first literal has its line break behind a backslash, the second has one that stands alone. -/
theorem plainContent_of_tokenize_twoLiterals :
    let first := "f(\"a\\\nb\")"
    let t : Token := ⟨.text, "ab", ⟨1, 3⟩⟩
    let ts : List Token := [⟨.ident, "f", ⟨1, 1⟩⟩, ⟨.op, "(", ⟨1, 2⟩⟩, t, ⟨.op, ")", ⟨2, 3⟩⟩,
      ⟨.eof, "", ⟨2, 4⟩⟩]
    let cs := ['a', '\\', '\n', 'b', '"', ')']
    let second := "f(\"a\\\nb\", \"c\nd\")"
    ((tokenize first = .ok ts ∧ t ∈ ts ∧ joinBreaks first.toList = ['f', '('] ++ '"' :: cs ∧
        t.pos = .after ['f', '('] ∧ cs.take 2 ≠ ['"', '"']) ∧
      ∃ content rest, cs = content ++ '"' :: rest ∧ t.kind = .text ∧
        unescape content = .ok t.value.toList ∧ PlainContent content ∧
        ('\n' ∈ content → ['\\', '\n'] <:+: content)) ∧
    (Arrives .start (joinBreaks second.toList) ⟨2, 5⟩ ('"' :: ['c'] ++ '\n' :: ['d', '"', ')']) ∧
        PlainContent ['c']) ∧
      tokenize second = .error (.report (.lexical .openText ⟨2, 5⟩)) := by
  intro first t ts cs second
  have htokens : tokenize first = .ok ts := by
    subst first ts t
    cbv
  have hmem : t ∈ ts := by simp [ts]
  have hsource : joinBreaks first.toList = ['f', '('] ++ '"' :: cs := by
    subst first cs
    cbv
  have hblock : cs.take 2 ≠ ['"', '"'] := by decide
  have harrives : Arrives .start (joinBreaks second.toList) ⟨2, 5⟩
      ('"' :: ['c'] ++ '\n' :: ['d', '"', ')']) := by
    have hchars : joinBreaks second.toList = 'f' :: '(' :: '"' :: (['a', '\\', '\n', 'b'] ++
        ['"', ',', ' ', '"', 'c', '\n', 'd', '"', ')']) := by
      subst second
      cbv
    rw [hchars]
    refine .step (l := .token .ident ['f'] 0) rfl ?_
    refine .step (l := .token .op ['('] 0) rfl ?_
    refine .step (l := .token .text ['a', 'b'] 5) rfl ?_
    refine .step (l := .token .op [','] 0) rfl ?_
    exact .step (l := .gap 0) rfl (.here ⟨2, 5⟩ _)
  have hcontent : PlainContent ['c'] := .char (by decide) (by decide) .nil
  have hlaw₁ := plainContent_of_tokenize first
  have hlaw₂ := plainContent_of_tokenize second
  exact ⟨⟨⟨htokens, hmem, hsource, rfl, hblock⟩,
    hlaw₁.1 ts htokens t hmem ['f', '('] cs hsource rfl hblock⟩, ⟨harrives, hcontent⟩,
    hlaw₂.2 ⟨2, 5⟩ ['c'] ['d', '"', ')'] harrives hcontent⟩

/-- A plain literal over two lines is a token: the backslash takes the line break with it. -/
theorem exists_break_in_plain :
    ∃ source content, tokenize source = .ok [⟨.text, "ab", ⟨1, 1⟩⟩, ⟨.eof, "", ⟨2, 3⟩⟩] ∧
      joinBreaks source.toList = '"' :: content ++ ['"'] ∧ PlainContent content ∧
      '\n' ∈ content := by
  refine ⟨"\"a\\\nb\"", ['a', '\\', '\n', 'b'], by cbv, rfl, ?_, by decide⟩
  exact .char (by decide) (by decide) <| .pair '\n' <| .char (by decide) (by decide) .nil

end FluentPlan.Script
