import Mathlib.Data.List.Basic
import Mathlib.Tactic.Common
import FluentPlan.Proofs.Literal.Block

/-!
Whole text blocks. The lines of a block stand at an indentation that the reader finds again, since
the closing quotes stand there too; removing it leaves the written lines, and their escapes give the
text back.
-/

namespace FluentPlan.Script

open Java Text

/-! ### Written lines -/

/-- What the reader needs of a line between the opening and the closing quotes of a block. -/
structure IsRow (row : List Char) : Prop where
  no_return : '\r' ∉ row
  no_break : '\n' ∉ row
  last : row = [] ∨ ∃ s d, row = s ++ [d] ∧ isIndent d = false
  passes : ∀ r, blockContent? (row ++ '\n' :: r) = (blockContent? r).map (row ++ '\n' :: ·)

theorem isRow_blockLine (l : List Char) : IsRow (blockLine l) where
  no_return := (blockLine_no_break l).1
  no_break := (blockLine_no_break l).2
  last := by
    rcases eq_or_ne l [] with rfl | h
    · exact .inl rfl
    · exact .inr (blockLine_end h)
  passes r := by
    rw [blockContent?_blockLine l (by simp), blockContent?_other (by decide) (by decide)]
    simp [Function.comp_def]

/-- A line that continues behind its line break. -/
theorem isRow_continued (l : List Char) : IsRow (blockLine l ++ ['\\']) where
  no_return := by simp [(blockLine_no_break l).1]
  no_break := by simp [(blockLine_no_break l).2]
  last := .inr ⟨blockLine l, '\\', rfl, rfl⟩
  passes r := by
    rw [List.append_assoc, blockContent?_blockLine l (by simp)]
    simp [blockContent?_escape, Function.comp_def]

theorem isRow_blockLines (continued : Bool) (ls : List (List Char)) :
    ∀ row ∈ blockLines continued ls, IsRow row := by
  induction ls with
  | nil => simp [blockLines]
  | cons l ls ih =>
    cases ls with
    | nil =>
      cases continued
      · simpa [blockLines] using isRow_blockLine l
      · simpa [blockLines] using isRow_continued l
    | cons m ms =>
      simp only [blockLines, List.forall_mem_cons]
      exact ⟨isRow_blockLine l, ih⟩

theorem blockLines_ne_nil (continued : Bool) {ls : List (List Char)} (h : ls ≠ []) :
    blockLines continued ls ≠ [] := by
  match ls with
  | [] => exact absurd rfl h
  | [l] => simp [blockLines]
  | l :: m :: ms => simp [blockLines]

/-- Without a last line break the written lines stand for lines without one. -/
theorem unescape_continued {ls : List (List Char)} (h : ls ≠ []) (r : List Char) :
    unescape (endLines (blockLines true ls) ++ r) = (unescape r).map (unlines ls ++ ·) := by
  induction ls with
  | nil => exact absurd rfl h
  | cons l ls ih =>
    cases ls with
    | nil =>
      simp [blockLines, unlines, joinWith, unescape_blockLine, unescape_break]
    | cons m ms =>
      simp only [blockLines, endLines_cons, List.append_assoc, List.cons_append]
      rw [unescape_blockLine, unescape_other (by decide), ih (by simp)]
      cases unescape r <;> simp [Except.map, unlines, joinWith]

theorem unescape_complete (ls : List (List Char)) (r : List Char) :
    unescape (endLines (blockLines false ls) ++ r) = (unescape r).map (endLines ls ++ ·) := by
  induction ls with
  | nil => cases h : unescape r <;> simp [blockLines, h, Except.map]
  | cons l ls ih =>
    cases ls with
    | nil =>
      simp only [blockLines, endLines_cons, Bool.false_eq_true, if_false, endLines_nil,
        List.append_assoc, List.cons_append, List.nil_append]
      rw [unescape_blockLine, unescape_other (by decide)]
      cases unescape r <;> simp [Except.map]
    | cons m ms =>
      simp only [blockLines, endLines_cons, List.append_assoc, List.cons_append]
      rw [unescape_blockLine, unescape_other (by decide), ih]
      cases unescape r <;> simp [Except.map]

/-! ### Indented lines -/

/-- A line of a block where it stands: an empty one has no indentation. -/
def placeRow (indent row : List Char) : List Char := if row = [] then [] else indent ++ row

/-- What stands between the quotes of a block. -/
def blockBody (indent : List Char) (rows : List (List Char)) : List Char :=
  endLines (rows.map (placeRow indent)) ++ indent

variable {indent : List Char} {rows : List (List Char)}

theorem indentation_of_all (h : indent.all isIndent = true) : indentation indent = indent.length := by
  have ht : (indent ++ []).takeWhile isIndent = indent ++ [].takeWhile isIndent :=
    List.takeWhile_append_of_pos (List.all_eq_true.mp h)
  rw [List.append_nil] at ht
  simp [indentation, ht]

theorem le_indentation_append (h : indent.all isIndent = true) (row : List Char) :
    indent.length ≤ indentation (indent ++ row) := by
  rw [indentation, List.takeWhile_append_of_pos (List.all_eq_true.mp h), List.length_append]
  omega

theorem not_isBlankLine_of_end {l s : List Char} {d : Char} (h : l = s ++ [d])
    (hd : isIndent d = false) : isBlankLine l = false := by
  simp [isBlankLine, h, hd]

theorem trimEnd_of_end {l s : List Char} {d : Char} (h : l = s ++ [d]) (hd : isIndent d = false) :
    trimEnd isIndent l = l := by
  simp [trimEnd, h, hd]

/-- No line of a block is indented less than its closing quotes. -/
theorem commonIndentation (h : indent.all isIndent = true) :
    ((((rows.map (placeRow indent)).filter fun l => !isBlankLine l) ++ [indent]).foldl
      (fun n l => min n (indentation l)) (indentation indent)) = indent.length := by
  have hle : ∀ l ∈ ((rows.map (placeRow indent)).filter fun l => !isBlankLine l) ++ [indent],
      indent.length ≤ indentation l := by
    intro l hl
    rcases List.mem_append.mp hl with hl | hl
    · obtain ⟨hm, hb⟩ := List.mem_filter.mp hl
      obtain ⟨row, -, rfl⟩ := List.mem_map.mp hm
      unfold placeRow at hb ⊢
      split_ifs with he
      · simp [he, isBlankLine] at hb
      · exact le_indentation_append h row
    · rw [List.mem_singleton.mp hl]
      exact Nat.le_of_eq (indentation_of_all h).symm
  rw [indentation_of_all h]
  generalize ((rows.map (placeRow indent)).filter fun l => !isBlankLine l) ++ [indent] = ls at hle
  induction ls with
  | nil => rfl
  | cons l ls ih =>
    obtain ⟨hl, hls⟩ := List.forall_mem_cons.mp hle
    rw [List.foldl_cons, Nat.min_eq_left hl]
    exact ih hls

theorem dedent_placeRow (indent : List Char) {row : List Char} (hr : IsRow row) :
    (if isBlankLine (placeRow indent row) then []
      else trimEnd isIndent ((placeRow indent row).drop indent.length)) = row := by
  rcases hr.last with rfl | ⟨s, d, hs, hd⟩
  · simp [placeRow, isBlankLine]
  · have hne : row ≠ [] := by simp [hs]
    have hend : indent ++ row = (indent ++ s) ++ [d] := by rw [hs, List.append_assoc]
    rw [placeRow, if_neg hne, not_isBlankLine_of_end hend hd, List.drop_left,
      trimEnd_of_end hs hd]
    rfl

theorem lines_blockBody (h : indent.all isIndent = true) (hr : ∀ row ∈ rows, IsRow row) :
    lines (blockBody indent rows) = rows.map (placeRow indent) ++ [indent] := by
  have hi : '\n' ∉ indent := fun hm => absurd (List.all_eq_true.mp h _ hm) (by decide)
  rw [blockBody, lines_endLines, lines_of_not_mem hi]
  intro l hl
  obtain ⟨row, hrow, rfl⟩ := List.mem_map.mp hl
  unfold placeRow
  split_ifs
  · simp
  · simp [hi, (hr row hrow).no_break]

/-- Removing the indentation of a block leaves its lines as they were written. -/
theorem dedent_blockBody (h : indent.all isIndent = true) (hr : ∀ row ∈ rows, IsRow row)
    (hne : rows ≠ []) : dedent (blockBody indent rows) = endLines rows := by
  have hblank : isBlankLine indent = true := h
  have hlen : (rows.map (placeRow indent) ++ [indent]).length ≠ 1 := by
    have := List.length_pos_iff.mpr hne
    simp only [List.length_append, List.length_map, List.length_singleton]
    omega
  have hrows : rows.map (fun row => if isBlankLine (placeRow indent row) then []
      else trimEnd isIndent ((placeRow indent row).drop indent.length)) = rows := by
    conv_rhs => rw [← List.map_id rows]
    exact List.map_congr_left fun row hrow => dedent_placeRow indent (hr row hrow)
  unfold dedent
  simp only [lines_blockBody h hr, List.getLastD_concat, List.dropLast_concat,
    commonIndentation h, hlen, decide_false, Bool.false_and, Bool.false_eq_true, if_false,
    List.map_append, List.map_map, List.map_cons, List.map_nil, hblank, if_true]
  rw [show (fun l => if isBlankLine l then [] else trimEnd isIndent (l.drop indent.length)) ∘
      placeRow indent = fun row => if isBlankLine (placeRow indent row) then []
      else trimEnd isIndent ((placeRow indent row).drop indent.length) from rfl, hrows,
    unlines_concat, List.append_nil]

/-! ### The closing quotes -/

theorem blockContent?_indent (h : indent.all isIndent = true) (r : List Char) :
    blockContent? (indent ++ r) = (blockContent? r).map (indent ++ ·) := by
  induction indent with
  | nil => simp
  | cons c cs ih =>
    obtain ⟨hc, hcs⟩ := Bool.and_eq_true_iff.mp (List.all_cons ▸ h)
    have hne : c ≠ '\\' ∧ c ≠ '"' := by
      constructor <;> (rintro rfl; revert hc; decide)
    rw [List.cons_append, blockContent?_other hne.1 hne.2, ih hcs]
    simp [Function.comp_def]

theorem blockContent?_placeRow (h : indent.all isIndent = true) {row : List Char} (hr : IsRow row)
    (r : List Char) : blockContent? (placeRow indent row ++ '\n' :: r) =
      (blockContent? r).map (placeRow indent row ++ '\n' :: ·) := by
  unfold placeRow
  split_ifs
  · exact blockContent?_other (by decide) (by decide) r
  · rw [List.append_assoc, blockContent?_indent h, hr.passes]
    simp [Function.comp_def]

/-- A block ends at the quotes that close it and not before. -/
theorem blockContent?_blockBody (h : indent.all isIndent = true) (hr : ∀ row ∈ rows, IsRow row)
    (r : List Char) : blockContent? (blockBody indent rows ++ '"' :: '"' :: '"' :: r) =
      some (blockBody indent rows) := by
  unfold blockBody
  induction rows with
  | nil =>
    rw [List.map_nil, endLines_nil, List.nil_append, blockContent?_indent h]
    simp [blockContent?]
  | cons row rows ih =>
    obtain ⟨hrow, hrows⟩ := List.forall_mem_cons.mp hr
    rw [List.map_cons, endLines_cons, List.append_assoc, List.append_assoc, List.cons_append,
      blockContent?_placeRow h hrow, ← List.append_assoc, ih hrows]
    simp

end FluentPlan.Script
