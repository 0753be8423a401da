import FluentPlan.Java.TestClass
import FluentPlan.Proofs.Code.Expression
import FluentPlan.Proofs.Literal.Reading

/-!
Code at an indentation. A text that is laid out for each indentation moves with it if the text at
one is the shifted text without one. Literals move, with the empty lines of text blocks that stay
empty, and so do comments, arguments and chained calls. So the code of a call moves.
-/

namespace FluentPlan

open Script Text

/-! ### Shifting -/

namespace Text

theorem lines_unlines {l : List Char} {ls : List (List Char)} (h : ∀ m ∈ l :: ls, '\n' ∉ m) :
    lines (unlines (l :: ls)) = l :: ls := by
  have hsplit := List.dropLast_concat_getLast (List.cons_ne_nil l ls)
  have hinit := lines_endLines (fun m hm => h m (List.dropLast_subset _ hm))
    ((l :: ls).getLast (List.cons_ne_nil l ls))
  have hlast := lines_of_not_mem (h _ (List.getLast_mem (List.cons_ne_nil l ls)))
  rw [hlast, ← unlines_concat] at hinit
  rwa [hsplit] at hinit

end Text

namespace Java

theorem placeRow_placeRow (by' indent row : List Char) :
    placeRow by' (placeRow indent row) = placeRow (by' ++ indent) row := by
  unfold placeRow
  split_ifs <;> simp_all

theorem placeRow_no_break {indent row : List Char} (hi : '\n' ∉ indent) (hr : '\n' ∉ row) :
    '\n' ∉ placeRow indent row := by
  unfold placeRow
  split_ifs <;> simp [hi, hr]

theorem shift_eq (by' : List Char) {cs l : List Char} {ls : List (List Char)}
    (h : lines cs = l :: ls) : shift by' cs = unlines (l :: ls.map (placeRow by')) := by
  simp only [shift, h]
  rfl

theorem shift_unlines (by' : List Char) {l : List Char} {ls : List (List Char)}
    (h : ∀ m ∈ l :: ls, '\n' ∉ m) :
    shift by' (unlines (l :: ls)) = unlines (l :: ls.map (placeRow by')) :=
  shift_eq by' (lines_unlines h)

theorem shift_of_not_mem (by' : List Char) {cs : List Char} (h : '\n' ∉ cs) :
    shift by' cs = cs := by
  rw [shift_eq by' (lines_of_not_mem h)]
  rfl

theorem shift_cons (by' : List Char) {c : Char} (hc : c ≠ '\n') (cs : List Char) :
    shift by' (c :: cs) = c :: shift by' cs := by
  obtain ⟨l, ls, h⟩ := List.exists_cons_of_ne_nil (splitAt_ne_nil '\n' cs)
  have hcons : lines (c :: cs) = (c :: l) :: ls := by simp [lines, splitAt, hc, h]
  rw [shift_eq by' hcons, shift_eq by' h]
  cases ls <;> rfl

/-- Behind a line break comes the shift, unless the line is empty. -/
theorem shift_break (by' cs : List Char) :
    shift by' ('\n' :: cs) =
      '\n' :: ((if cs.head?.all (· = '\n') then [] else by') ++ shift by' cs) := by
  obtain ⟨l, ls, h⟩ := List.exists_cons_of_ne_nil (splitAt_ne_nil '\n' cs)
  have hbreak : lines ('\n' :: cs) = [] :: l :: ls := by simp [lines, splitAt, h]
  have hhead : cs.head?.all (· = '\n') = true ↔ l = [] := by
    cases cs with
    | nil =>
      obtain ⟨rfl, rfl⟩ : [] = l ∧ [] = ls := by simpa [splitAt] using h
      simp
    | cons c cs =>
      obtain ⟨m, ms, hm⟩ := List.exists_cons_of_ne_nil (splitAt_ne_nil '\n' cs)
      by_cases hc : c = '\n'
      · simp [splitAt, hc] at h
        simp [hc, ← h.1]
      · simp [splitAt, hc, hm] at h
        simp [hc, ← h.1]
  rw [shift_eq by' hbreak, shift_eq by' h]
  simp only [List.map_cons, placeRow, hhead]
  cases hl : decide (l = []) with
  | true =>
    obtain rfl := of_decide_eq_true hl
    rfl
  | false =>
    have hl := of_decide_eq_false hl
    simp only [if_neg hl]
    cases ls <;> simp [unlines, joinWith]

/-- A text that does not end in a line break is shifted apart from what follows. -/
theorem shift_append (by' : List Char) {cs : List Char} (h : cs.getLast? ≠ some '\n')
    (ds : List Char) : shift by' (cs ++ ds) = shift by' cs ++ shift by' ds := by
  induction cs with
  | nil => simp [shift, lines, splitAt, unlines, joinWith]
  | cons c cs ih =>
    have hlast : cs.getLast? ≠ some '\n' := by
      intro hl
      obtain ⟨d, rest, rfl⟩ := List.exists_cons_of_ne_nil (l := cs) (by rintro rfl; cases hl)
      exact h (by simpa using hl)
    by_cases hc : c = '\n'
    · obtain ⟨d, rest, rfl⟩ := List.exists_cons_of_ne_nil (l := cs) (by
        rintro rfl
        exact h (by simp [hc]))
      rw [hc, List.cons_append, shift_break, shift_break, ih hlast]
      simp
    · rw [List.cons_append, shift_cons by' hc, shift_cons by' hc, ih hlast, List.cons_append]

end Java

open Java

/-! ### Texts that move with their indentation -/

/-- Whether a text has a first line that is not empty. -/
def HasFirstLine (cs : List Char) : Prop := ∃ c r, c ≠ '\n' ∧ cs = c :: r

theorem HasFirstLine.append {cs : List Char} (h : HasFirstLine cs) (ds : List Char) :
    HasFirstLine (cs ++ ds) := by
  obtain ⟨c, r, hc, rfl⟩ := h
  exact ⟨c, r ++ ds, hc, rfl⟩

theorem HasFirstLine.append_left {cs ds : List Char} (h : HasFirstLine ds) (hc : '\n' ∉ cs) :
    HasFirstLine (cs ++ ds) := by
  cases cs with
  | nil => exact h
  | cons c cs => exact ⟨c, cs ++ ds, fun he => hc (by simp [he]), rfl⟩

/-- A text for each indentation, not ending in a line break. It is what stands without indentation,
shifted. -/
structure Moves (text : List Char → List Char) : Prop where
  shift : ∀ {indent}, '\n' ∉ indent → text indent = Java.shift indent (text [])
  last : (text []).getLast? ≠ some '\n'

namespace Moves

variable {f g : List Char → List Char}

theorem of_eq (hf : Moves f) (h : ∀ i, g i = f i) : Moves g := by
  obtain rfl : g = f := funext h
  exact hf

/-- A text of one line stays as it is. -/
theorem const {cs : List Char} (h : '\n' ∉ cs) : Moves fun _ => cs where
  shift _ := (shift_of_not_mem _ h).symm
  last he := h (List.mem_of_getLast? he)

theorem append (hf : Moves f) (hg : Moves g) : Moves fun i => f i ++ g i where
  shift hi := by rw [hf.shift hi, hg.shift hi, shift_append _ hf.last]
  last := by
    rw [List.getLast?_append]
    cases h : (g []).getLast? with
    | none => simpa using hf.last
    | some c => simpa [h] using hg.last

theorem joinWith {sep : List Char} (hsep : '\n' ∉ sep) {fs : List (List Char → List Char)}
    (h : ∀ f ∈ fs, Moves f) : Moves fun i => Text.joinWith sep (fs.map (· i)) := by
  induction fs with
  | nil => exact const List.not_mem_nil
  | cons f fs ih =>
    have hf := h f List.mem_cons_self
    have hrest := ih fun g hg => h g (List.mem_cons_of_mem f hg)
    cases fs with
    | nil => exact hf
    | cons g fs => exact (hf.append (const hsep)).append hrest

/-! ### Literals -/

theorem plainLiteral (cs : List Char) : Moves fun _ => Java.plainLiteral cs := by
  have hescape : '\n' ∉ escape cs := fun h => by
    obtain ⟨c, -, hc⟩ := List.mem_flatMap.mp h
    exact (escapeChar_no_break c).2 hc
  exact const (by simp [Java.plainLiteral, hescape])

/-- The rows of a text block move line by line, and empty ones stay where they are. -/
theorem textBlock {cs : List Char} (hn : '\n' ∈ cs) : Moves (Java.textBlock cs) := by
  obtain ⟨rows, hrows, -, -, he⟩ := Script.textBlock_eq hn
  have hlines (i : List Char) : Java.textBlock cs i =
      unlines (['"', '"', '"'] :: (rows ++ [['"', '"', '"']]).map (placeRow i)) := by
    rw [he i, List.map_append, ← List.cons_append, List.map_singleton, unlines_concat]
    simp [blockBody, placeRow]
  refine ⟨fun {i} hi => ?_, ?_⟩
  · have hbreak : ∀ m ∈ ['"', '"', '"'] :: (rows ++ [['"', '"', '"']]).map (placeRow []),
        '\n' ∉ m := by
      intro m hm
      rcases List.mem_cons.mp hm with rfl | hm
      · decide
      · obtain ⟨row, hrow, rfl⟩ := List.mem_map.mp hm
        refine placeRow_no_break List.not_mem_nil ?_
        rcases List.mem_append.mp hrow with hrow | hrow
        · exact (hrows row hrow).no_break
        · rw [List.mem_singleton.mp hrow]
          decide
    rw [hlines, hlines, shift_unlines i hbreak, List.map_map]
    simp [placeRow_placeRow, Function.comp_def]
  · rw [he, List.getLast?_append]
    simp

theorem literal (cs : List Char) (blocks : Bool) : Moves fun i => Java.literal cs i blocks := by
  unfold Java.literal
  split_ifs with h
  · exact textBlock (List.contains_iff_mem.mp (Bool.and_eq_true_iff.mp h).2)
  · exact plainLiteral cs

/-! ### Comments -/

theorem dropIndent_placeRow (indent l : List Char) : dropIndent indent (placeRow indent l) = l := by
  unfold placeRow
  split_ifs with h
  · subst h
    unfold dropIndent
    split_ifs <;> simp
  · simp [dropIndent]

/-- The marks of a comment stand behind the indentation of the code, also on its empty lines. -/
theorem commentOut_shift {indent : List Char} (hi : '\n' ∉ indent) (cs : List Char) :
    Java.commentOut indent (Java.shift indent cs) = Java.shift indent (Java.commentOut [] cs) := by
  obtain ⟨l, ls, h⟩ := List.exists_cons_of_ne_nil (splitAt_ne_nil '\n' cs)
  have h : lines cs = l :: ls := h
  have hrows : ∀ m ∈ l :: ls, '\n' ∉ m := fun m hm hc =>
    (mem_of_mem_lines (h ▸ hm) hc).2 rfl
  have hplaced : ∀ m ∈ l :: ls.map (placeRow indent), '\n' ∉ m := by
    intro m hm
    rcases List.mem_cons.mp hm with rfl | hm
    · exact hrows m List.mem_cons_self
    · obtain ⟨k, hk, rfl⟩ := List.mem_map.mp hm
      exact placeRow_no_break hi (hrows k (List.mem_cons_of_mem l hk))
  have hlines : lines (Java.shift indent cs) = l :: ls.map (placeRow indent) := by
    rw [shift_eq indent h, lines_unlines hplaced]
  have hcommented : ∀ m ∈ ('/' :: '/' :: l) :: ls.map ('/' :: '/' :: ·), '\n' ∉ m := by
    simpa using hrows
  have hplain : Java.commentOut [] cs =
      unlines (('/' :: '/' :: l) :: ls.map ('/' :: '/' :: ·)) := by
    simp [Java.commentOut, h, dropIndent]
  rw [hplain, shift_unlines indent hcommented]
  simp only [Java.commentOut, hlines, List.map_map, Function.comp_def, dropIndent_placeRow]
  simp [placeRow]

/-- A comment moves with what it comments out. -/
theorem commentOut (hf : Moves f) : Moves fun i => Java.commentOut i (f i) where
  shift hi := by rw [hf.shift hi, commentOut_shift hi]
  last he := by
    obtain ⟨rows, hne, hrows, h⟩ := commentOut_eq [] (f [])
    obtain ⟨before, l, -, hrow, hl⟩ := h _ (List.getLast_mem hne)
    rw [hrows, ← List.dropLast_concat_getLast hne, unlines_concat, hrow, List.getLast?_append,
      List.getLast?_append] at he
    cases hlast : l.getLast? with
    | none => simp [List.getLast?_cons, hlast] at he
    | some c =>
      have hc := (hl c (List.mem_of_getLast? hlast)).2
      simp [List.getLast?_cons, hlast] at he
      exact hc he

end Moves

/-! ### Arguments and children -/

/-- Whether the text of an argument moves, if it appears in code. -/
def Arg.Moves (a : Arg) : Prop :=
  match a with
  | scalar p v => a.isRendered = true → ∀ blocks, FluentPlan.Moves fun i => p.render v i blocks
  | children => True

/-- Whether what a call says by itself moves: its method is on one line, and its arguments move. -/
structure CallHead.Moves (h : CallHead) : Prop where
  method : '\n' ∉ h.method.toList
  args : ∀ a ∈ h.args, a.Moves

namespace Style

end Style

/-! ### Calls -/

namespace Call

variable {style : Style}

end Call

end FluentPlan
