/-!
Lines of a text. A text of `n` line breaks has `n + 1` lines, so joining them gives the text back.
-/

namespace FluentPlan.Text

/-- The pieces of a text between the characters `sep`. -/
def splitAt (sep : Char) : List Char → List (List Char)
  | [] => [[]]
  | c :: cs =>
    if c = sep then [] :: splitAt sep cs
    else match splitAt sep cs with
      | [] => [[c]]
      | l :: ls => (c :: l) :: ls

/-- Puts `sep` between the pieces. -/
def joinWith (sep : List Char) : List (List Char) → List Char
  | [] => []
  | [l] => l
  | l :: ls => l ++ sep ++ joinWith sep ls

theorem splitAt_ne_nil (sep : Char) (cs : List Char) : splitAt sep cs ≠ [] := by
  cases cs with
  | nil => simp [splitAt]
  | cons c cs => unfold splitAt; split; · simp
                 · split <;> simp

theorem joinWith_splitAt (sep : Char) (cs : List Char) :
    joinWith [sep] (splitAt sep cs) = cs := by
  induction cs with
  | nil => rfl
  | cons c cs ih =>
    unfold splitAt
    split
    · next h =>
      cases hs : splitAt sep cs with
      | nil => exact absurd hs (splitAt_ne_nil sep cs)
      | cons l ls => simp [joinWith, ← hs, ih, h]
    · cases hs : splitAt sep cs with
      | nil => exact absurd hs (splitAt_ne_nil sep cs)
      | cons l ls =>
        rw [hs] at ih
        cases ls with
        | nil => simpa [joinWith] using ih
        | cons m ms => simpa [joinWith] using ih

theorem splitAt_of_not_mem {sep : Char} {l : List Char} (h : sep ∉ l) : splitAt sep l = [l] := by
  induction l with
  | nil => rfl
  | cons c l ih =>
    obtain ⟨hc, hl⟩ := not_or.mp (mt List.mem_cons.mpr h)
    simp [splitAt, ih hl, Ne.symm hc]

theorem splitAt_append_cons {sep : Char} {l : List Char} (h : sep ∉ l) (r : List Char) :
    splitAt sep (l ++ sep :: r) = l :: splitAt sep r := by
  induction l with
  | nil => simp [splitAt]
  | cons c l ih =>
    obtain ⟨hc, hl⟩ := not_or.mp (mt List.mem_cons.mpr h)
    simp [splitAt, ih hl, Ne.symm hc]

/-- Pieces without `sep` are found again between the `sep` that were put between them. -/
theorem splitAt_joinWith {sep : Char} {ls : List (List Char)} (hne : ls ≠ [])
    (h : ∀ l ∈ ls, sep ∉ l) : splitAt sep (joinWith [sep] ls) = ls := by
  induction ls with
  | nil => exact absurd rfl hne
  | cons l ls ih =>
    have hl := h l List.mem_cons_self
    cases ls with
    | nil => exact splitAt_of_not_mem hl
    | cons m ms =>
      have hrest := ih (List.cons_ne_nil m ms) fun k hk => h k (List.mem_cons_of_mem l hk)
      rw [joinWith.eq_3 _ _ _ (List.cons_ne_nil m ms), List.append_assoc, List.singleton_append,
        splitAt_append_cons hl, hrest]

/-- A piece has characters of the text, without `sep`. -/
theorem mem_of_mem_splitAt {sep : Char} {cs l : List Char} (hl : l ∈ splitAt sep cs) {c : Char}
    (hc : c ∈ l) : c ∈ cs ∧ c ≠ sep := by
  induction cs generalizing l with
  | nil =>
    have hnil : l = [] := by simpa [splitAt] using hl
    rw [hnil] at hc
    cases hc
  | cons d cs ih =>
    obtain ⟨m, ms, hms⟩ := List.exists_cons_of_ne_nil (splitAt_ne_nil sep cs)
    unfold splitAt at hl
    split at hl
    · rcases List.mem_cons.mp hl with rfl | hl
      · cases hc
      · exact ⟨List.mem_cons_of_mem d (ih hl hc).1, (ih hl hc).2⟩
    · next hd =>
      rw [hms] at hl
      have hin {k : List Char} (hk : k ∈ m :: ms) (hck : c ∈ k) : c ∈ d :: cs ∧ c ≠ sep :=
        have hl : k ∈ splitAt sep cs := by rwa [hms]
        ⟨List.mem_cons_of_mem d (ih hl hck).1, (ih hl hck).2⟩
      rcases List.mem_cons.mp hl with rfl | hl
      · rcases List.mem_cons.mp hc with rfl | hc
        · exact ⟨List.mem_cons_self, hd⟩
        · exact hin List.mem_cons_self hc
      · exact hin (List.mem_cons_of_mem m hl) hc

/-- The lines of a text. -/
def lines (cs : List Char) : List (List Char) := splitAt '\n' cs

/-- The text of given lines. -/
def unlines (ls : List (List Char)) : List Char := joinWith ['\n'] ls

@[simp] theorem unlines_lines (cs : List Char) : unlines (lines cs) = cs :=
  joinWith_splitAt '\n' cs

theorem lines_of_not_mem {l : List Char} (h : '\n' ∉ l) : lines l = [l] := splitAt_of_not_mem h

theorem lines_append_break {l : List Char} (h : '\n' ∉ l) (r : List Char) :
    lines (l ++ '\n' :: r) = l :: lines r := splitAt_append_cons h r

theorem exists_lines_concat {cs : List Char} (h : '\n' ∈ cs) :
    ∃ ls l, lines cs = ls ++ [l] ∧ ls ≠ [] := by
  obtain ⟨l, r, rfl, hl⟩ := List.eq_append_cons_of_mem h
  have hr : lines r ≠ [] := splitAt_ne_nil '\n' r
  refine ⟨l :: (lines r).dropLast, (lines r).getLast hr, ?_, by simp⟩
  rw [lines_append_break hl, List.cons_append, List.dropLast_concat_getLast hr]

/-- A line has the characters of the text, without its line breaks. -/
theorem mem_of_mem_lines {cs l : List Char} (hl : l ∈ lines cs) {c : Char} (hc : c ∈ l) :
    c ∈ cs ∧ c ≠ '\n' := mem_of_mem_splitAt hl hc

theorem mem_unlines {ls : List (List Char)} {c : Char} (h : c ∈ unlines ls) :
    c = '\n' ∨ ∃ l ∈ ls, c ∈ l := by
  unfold unlines at h
  fun_induction joinWith ['\n'] ls with
  | case1 => cases h
  | case2 l => exact .inr ⟨l, List.mem_cons_self, h⟩
  | case3 l ls hne ih =>
    rcases List.mem_append.mp h with h | h
    · rcases List.mem_append.mp h with h | h
      · exact .inr ⟨l, List.mem_cons_self, h⟩
      · exact .inl (List.mem_singleton.mp h)
    · rcases ih h with h | ⟨m, hm, h⟩
      · exact .inl h
      · exact .inr ⟨m, List.mem_cons_of_mem l hm, h⟩

/-- The text of lines that all end in a line break, the last one too. -/
def endLines (ls : List (List Char)) : List Char := ls.flatMap (· ++ ['\n'])

@[simp] theorem endLines_nil : endLines [] = [] := rfl

@[simp] theorem endLines_cons (l : List Char) (ls : List (List Char)) :
    endLines (l :: ls) = l ++ '\n' :: endLines ls := by simp [endLines]

theorem unlines_concat (ls : List (List Char)) (l : List Char) :
    unlines (ls ++ [l]) = endLines ls ++ l := by
  induction ls with
  | nil => simp [unlines, joinWith]
  | cons m ls ih =>
    cases ls with
    | nil => simp [unlines, joinWith]
    | cons n ls =>
      have h : joinWith ['\n'] (n :: ls ++ [l]) = endLines (n :: ls) ++ l := ih
      simp only [List.cons_append] at h
      simp [unlines, joinWith, h]

theorem unlines_append_break {ls : List (List Char)} (h : ls ≠ []) (r : List Char) :
    unlines ls ++ '\n' :: r = endLines ls ++ r := by
  have hs : ls.dropLast ++ [ls.getLast h] = ls := List.dropLast_concat_getLast h
  have he : endLines ls = unlines ls ++ ['\n'] := by
    rw [← hs, unlines_concat]
    simp [endLines]
  simp [he]

theorem lines_endLines {ls : List (List Char)} (h : ∀ l ∈ ls, '\n' ∉ l) (r : List Char) :
    lines (endLines ls ++ r) = ls ++ lines r := by
  induction ls with
  | nil => simp
  | cons l ls ih =>
    rw [endLines_cons, List.append_assoc, List.cons_append,
      lines_append_break (h l List.mem_cons_self), ih fun m hm => h m (List.mem_cons_of_mem l hm)]
    rfl

theorem lines_break_append (l : List Char) {r : List Char} (h : '\n' ∉ r) :
    lines (l ++ '\n' :: r) = lines l ++ [r] := by
  have hne : lines l ≠ [] := splitAt_ne_nil '\n' l
  have hlines : ∀ m ∈ lines l, '\n' ∉ m := fun m hm hn => (mem_of_mem_lines hm hn).2 rfl
  conv => lhs; rw [← unlines_lines l]
  rw [unlines_append_break hne, lines_endLines hlines, lines_of_not_mem h]

end FluentPlan.Text
