import Mathlib.Data.List.Basic
import Mathlib.Tactic.Common
import FluentPlan.Json.Printer
import FluentPlan.Json.Reader

/-!
Printed documents read back. A document without numbers, in which no object has a key twice, is read
from its printed text as it was, whatever stands behind the text.
-/

namespace FluentPlan.Json

open Text

/-! ### Texts -/

theorem hexValue?_digitChar : ∀ d < 16, hexValue? (Nat.digitChar d) = some d := by decide

theorem codeUnit?_hexDigits {n : Nat} (h : n < 0x10000) (c : Char) (r : List Char) :
    codeUnit? (hexDigits 4 n ++ c :: r) = some (n, c :: r) := by
  have hdigit (k : Nat) : hexValue? (Nat.digitChar (k % 16)) = some (k % 16) :=
    hexValue?_digitChar _ (Nat.mod_lt k (by decide))
  have hsum : ((n / 16 / 16 / 16 % 16 * 16 + n / 16 / 16 % 16) * 16 + n / 16 % 16) * 16 + n % 16 =
      n := by omega
  simp [hexDigits, codeUnit?, hdigit, hsum]

theorem codePoint_hexDigits {c : Char} (hc : c.toNat < 0x20) (d : Char) (r : List Char) :
    codePoint (hexDigits 4 c.toNat ++ d :: r) = .ok (c, d :: r) := by
  have hunit := codeUnit?_hexDigits (n := c.toNat) (by omega) d r
  have hhigh : isHighSurrogate c.toNat = false := by
    simp only [isHighSurrogate, Bool.and_eq_false_iff, decide_eq_false_iff_not]
    omega
  have hchar : charOfUnit c.toNat = c := by
    have hlow : (0xD800 ≤ c.toNat && c.toNat ≤ 0xDFFF) = false := by
      simp only [Bool.and_eq_false_iff, decide_eq_false_iff_not]
      omega
    rw [charOfUnit, hlow]
    exact Char.ofNat_toNat c
  unfold codePoint
  rw [hunit]
  split
  · next h => cases h
  · next h =>
    cases h
    simp [hhigh, hchar]
  · next h =>
    cases h
    rw [hchar]

/-- A character is escaped by a letter, escaped by its code point, or stands for itself. -/
theorem escapeChar_cases (c : Char) :
    (∃ e, e ≠ 'u' ∧ escapes.lookup e = some c ∧ escapeChar c = ['\\', e]) ∨
      (c.toNat < 0x20 ∧ escapeChar c = '\\' :: 'u' :: hexDigits 4 c.toNat) ∨
      (¬ c.toNat < 0x20 ∧ c ≠ '"' ∧ c ≠ '\\' ∧ escapeChar c = [c]) := by
  unfold escapeChar
  split_ifs with h1 h2 h3 h4 h5 h6 h7 h8
  · exact .inl ⟨'"', by decide, by rw [h1]; rfl, rfl⟩
  · exact .inl ⟨'\\', by decide, by rw [h2]; rfl, rfl⟩
  · exact .inl ⟨'n', by decide, by rw [h3]; rfl, rfl⟩
  · exact .inl ⟨'r', by decide, by rw [h4]; rfl, rfl⟩
  · exact .inl ⟨'t', by decide, by rw [h5]; rfl, rfl⟩
  · exact .inl ⟨'b', by decide, by rw [h6]; rfl, rfl⟩
  · exact .inl ⟨'f', by decide, by rw [h7]; rfl, rfl⟩
  · exact .inr (.inl ⟨h8, rfl⟩)
  · exact .inr (.inr ⟨h8, h1, h2, rfl⟩)

/-- An escaped character is read as the character, whatever follows but the end of the text. -/
theorem textBody_escapeChar (start fuel : Nat) (c d : Char) (r : List Char) :
    textBody start (fuel + 1) (escapeChar c ++ d :: r) =
      (textBody start fuel (d :: r)).map fun p => (c :: p.1, p.2) := by
  rcases escapeChar_cases c with ⟨e, he, hc, hs⟩ | ⟨hc, hs⟩ | ⟨hc, hq, hb, hs⟩
  · rw [hs, List.cons_append, List.cons_append, List.nil_append, textBody]
    · simp only [hc]
      cases textBody start fuel (d :: r) <;> rfl
    · exact fun h => he h
  · rw [hs, List.cons_append, List.cons_append, textBody, codePoint_hexDigits hc]
    cases h : textBody start fuel (d :: r) <;>
      simp [h, bind, Except.bind, Except.map, pure, Except.pure]
  · rw [hs, List.cons_append, List.nil_append, textBody]
    · rw [if_neg hc]
      cases textBody start fuel (d :: r) <;> rfl
    · exact hq
    · exact fun h _ => hb h
    · exact fun _ h _ => hb h
    · exact fun _ _ h _ => hb h

theorem textBody_flatMap (start : Nat) (cs r : List Char) : ∀ {fuel : Nat}, cs.length < fuel →
    textBody start fuel (cs.flatMap escapeChar ++ '"' :: r) = .ok (cs, r) := by
  induction cs with
  | nil =>
    intro fuel h
    obtain ⟨fuel, rfl⟩ := Nat.exists_eq_succ_of_ne_zero (Nat.ne_of_gt h)
    rw [List.flatMap_nil, List.nil_append, textBody]
  | cons c cs ih =>
    intro fuel h
    obtain ⟨fuel, rfl⟩ := Nat.exists_eq_succ_of_ne_zero (Nat.ne_of_gt (Nat.zero_lt_of_lt h))
    obtain ⟨d, rest, hd⟩ :=
      List.exists_cons_of_ne_nil (l := cs.flatMap escapeChar ++ '"' :: r) (by simp)
    have hrest := ih (Nat.lt_of_succ_lt_succ h)
    rw [hd] at hrest
    rw [List.flatMap_cons, List.append_assoc, hd, textBody_escapeChar, hrest]
    rfl

theorem length_le_flatMap_escapeChar (cs : List Char) :
    cs.length ≤ (cs.flatMap escapeChar).length := by
  induction cs with
  | nil => exact Nat.le_refl 0
  | cons c cs ih =>
    have hc : 1 ≤ (escapeChar c).length := by
      rcases escapeChar_cases c with ⟨e, -, -, hs⟩ | ⟨-, hs⟩ | ⟨-, -, -, hs⟩ <;> simp [hs]
    simp only [List.flatMap_cons, List.length_append, List.length_cons]
    omega

/-- A quoted text is read from behind its opening quote. -/
theorem readText_quoted (s : String) (r : List Char) :
    readText (s.toList.flatMap escapeChar ++ '"' :: r) = .ok (s, r) := by
  have hlen := length_le_flatMap_escapeChar s.toList
  unfold readText
  rw [textBody_flatMap _ s.toList r (by simp only [List.length_append, List.length_cons]; omega)]
  simp [bind, Except.bind, pure, Except.pure]

/-! ### Space between parts -/

theorem skipSpace_newline (level : Nat) (cs : List Char) :
    skipSpace (newline level ++ cs) = skipSpace cs := by
  refine List.dropWhile_append_of_pos fun c hc => ?_
  rcases List.mem_cons.mp hc with rfl | hc
  · decide
  · rw [List.eq_of_mem_replicate hc]
    decide

theorem skipSpace_cons {c : Char} (hc : isSpace c = false) (cs : List Char) :
    skipSpace (c :: cs) = c :: cs := List.dropWhile_cons_of_neg (by simp [hc])

/-! ### Objects -/

theorem put_of_not_mem {key : String} {seen : List (String × Json)}
    (h : key ∉ seen.map Prod.fst) (v : Json) : put key v seen = seen ++ [(key, v)] := by
  induction seen with
  | nil => rfl
  | cons e seen ih =>
    obtain ⟨hk, hseen⟩ := not_or.mp (mt List.mem_cons.mpr h)
    rw [put, if_neg (Ne.symm hk), ih hseen, List.cons_append]

/-- An object closes with the entries that it was given, if no key is repeated. -/
theorem close_of_nodup (repeats : Repeats) {seen es : List (String × Json)}
    (h : ((seen ++ es).map Prod.fst).Nodup) :
    close repeats seen es = .ok (.object (seen ++ es)) := by
  induction es generalizing seen with
  | nil => rw [close, List.append_nil]
  | cons e es ih =>
    obtain ⟨k, v⟩ := e
    have hk : k ∉ seen.map Prod.fst := by
      rw [List.map_append, List.nodup_append] at h
      exact fun hm => h.2.2 k hm k List.mem_cons_self rfl
    have hnone : seen.lookup k = none :=
      List.lookup_eq_none_iff.mpr fun e he => by
        simpa using fun hek : k = e.1 => hk (hek ▸ List.mem_map_of_mem he)
    have happ : seen ++ [(k, v)] ++ es = seen ++ (k, v) :: es := by simp
    simp only [close, hnone, Option.isSome_none, Bool.and_false, Bool.false_eq_true, if_false]
    rw [put_of_not_mem hk, ih (by rwa [happ]), happ]

/-! ### Documents -/

mutual

/-- Whether a document has no numbers, and no object of it has a key twice. -/
def isPlain : Json → Bool
  | .number _ => false
  | .list items => isPlainAll items
  | .object entries => (entries.map Prod.fst).Nodup && isPlainEntries entries
  | .null | .bool _ | .text _ => true

def isPlainAll : List Json → Bool
  | [] => true
  | v :: vs => v.isPlain && isPlainAll vs

def isPlainEntries : List (String × Json) → Bool
  | [] => true
  | (_, v) :: es => v.isPlain && isPlainEntries es

end

theorem exists_print {j : Json} (h : j.isPlain = true) (level : Nat) :
    ∃ c r, print level j = c :: r ∧ c ∈ ['n', 't', 'f', '"', '[', '\x7b'] := by
  cases j with
  | null => exact ⟨'n', _, by rw [print]; rfl, by decide⟩
  | bool b =>
    cases b
    · exact ⟨'f', _, by rw [print]; rfl, by decide⟩
    · exact ⟨'t', _, by rw [print]; rfl, by decide⟩
  | number n => simp [isPlain] at h
  | text s => exact ⟨'"', _, by rw [print]; rfl, by decide⟩
  | list vs =>
    cases vs
    · exact ⟨'[', _, by rw [print], by decide⟩
    · exact ⟨'[', _, by rw [print, List.cons_append, List.cons_append], by decide⟩
  | object es =>
    cases es
    · exact ⟨'\x7b', _, by rw [print], by decide⟩
    · exact ⟨'\x7b', _, by rw [print, List.cons_append, List.cons_append], by decide⟩

theorem isSpace_of_mem {c : Char} (h : c ∈ ['n', 't', 'f', '"', '[', '\x7b']) :
    isSpace c = false ∧ c ≠ ']' := by
  simp only [List.mem_cons, List.not_mem_nil, or_false] at h
  rcases h with rfl | rfl | rfl | rfl | rfl | rfl <;> exact ⟨by decide, by decide⟩

/-- What stands behind an item: nothing, or a comma and the other items. -/
def printMore (level : Nat) : List Json → List Char
  | [] => []
  | v :: vs => ',' :: printItems level (v :: vs)

theorem printItems_cons (level : Nat) (v : Json) (vs : List Json) :
    printItems level (v :: vs) = newline level ++ (print level v ++ printMore level vs) := by
  cases vs <;> simp [printItems, printMore]

theorem skipSpace_printItems {v : Json} (h : v.isPlain = true) (level : Nat) (vs : List Json)
    (r : List Char) : skipSpace (printItems level (v :: vs) ++ r) =
      print level v ++ (printMore level vs ++ r) := by
  obtain ⟨c, cs, hc, hm⟩ := exists_print h level
  rw [printItems_cons, List.append_assoc, skipSpace_newline, hc, List.append_assoc,
    List.cons_append, skipSpace_cons (isSpace_of_mem hm).1]

/-- What stands behind an entry: nothing, or a comma and the other entries. -/
def printMoreEntries (level : Nat) : List (String × Json) → List Char
  | [] => []
  | e :: es => ',' :: printEntries level (e :: es)

theorem printEntries_cons (level : Nat) (k : String) (v : Json) (es : List (String × Json)) :
    printEntries level ((k, v) :: es) =
      newline level ++ (quote k ++ ':' :: ' ' :: (print level v ++ printMoreEntries level es)) := by
  cases es <;> simp [printEntries, printMoreEntries]

theorem skipSpace_printEntries (level : Nat) (k : String) (v : Json) (es : List (String × Json))
    (r : List Char) : skipSpace (printEntries level ((k, v) :: es) ++ r) =
      quote k ++ ':' :: ' ' :: (print level v ++ (printMoreEntries level es ++ r)) := by
  rw [printEntries_cons, List.append_assoc, skipSpace_newline, quote]
  simp only [List.cons_append, List.append_assoc]
  exact skipSpace_cons (by decide) _

theorem value_word (word : String) {j : Json}
    (hw : (word, j) ∈ [("null", Json.null), ("true", .bool true), ("false", .bool false)])
    (repeats : Repeats) (fuel : Nat) (r : List Char) :
    value repeats (fuel + 1) (word.toList ++ r) = .ok (j, r) := by
  simp only [List.mem_cons, Prod.mk.injEq, List.not_mem_nil, or_false] at hw
  rcases hw with ⟨rfl, rfl⟩ | ⟨rfl, rfl⟩ | ⟨rfl, rfl⟩ <;>
    simp [value, scalar, words, word?]

mutual

/-- A plain document is read from its text, and what stands behind the text is left. -/
theorem value_print : (j : Json) → j.isPlain = true → ∀ (level fuel : Nat) (r : List Char),
    (print level j).length ≤ fuel → value .refuse fuel (print level j ++ r) = .ok (j, r)
  | j, h => by
    intro level fuel r hlen
    obtain ⟨c, cs, hc, -⟩ := exists_print h level
    obtain ⟨fuel, rfl⟩ : ∃ n, fuel = n + 1 := ⟨fuel - 1, by
      rw [hc, List.length_cons] at hlen
      omega⟩
    match j, h with
    | .null, _ =>
      rw [print]
      exact value_word "null" (by simp) .refuse fuel r
    | .bool false, _ =>
      rw [print]
      exact value_word "false" (by simp) .refuse fuel r
    | .bool true, _ =>
      rw [print]
      exact value_word "true" (by simp) .refuse fuel r
    | .text s, _ =>
      simp only [print, quote, List.cons_append, List.append_assoc, List.nil_append, value,
        readText_quoted]
      rfl
    | .list [], _ =>
      simp only [print, List.cons_append, List.nil_append, value, skipSpace_cons (c := ']') rfl]
    | .list (v :: vs), h =>
      have hv : v.isPlain = true := (Bool.and_eq_true_iff.mp h).1
      have hitems := items_print (v :: vs) (List.cons_ne_nil v vs) h (level + 1) fuel level r (by
        simp only [print, List.length_append, List.length_cons] at hlen
        omega)
      obtain ⟨d, ds, hd, hm⟩ := exists_print hv (level + 1)
      have hspace := skipSpace_printItems hv (level + 1) vs (newline level ++ ']' :: r)
      rw [hd, List.cons_append] at hspace
      rw [hspace] at hitems
      have hne := (isSpace_of_mem hm).2
      simp only [print, List.cons_append, List.append_assoc, List.nil_append, value, hspace]
      split
      · next he => exact absurd (List.cons.inj he).1 hne
      · rw [hitems]
        rfl
    | .object [], _ =>
      simp only [print, List.cons_append, List.nil_append, value, skipSpace_cons (c := '\x7d') rfl]
    | .object ((k, v) :: es), h =>
      simp only [isPlain, Bool.and_eq_true, decide_eq_true_eq] at h
      have hentries := entries_print ((k, v) :: es) (List.cons_ne_nil _ es) h.2 (level + 1) fuel
        level r (by
          simp only [print, List.length_append, List.length_cons] at hlen
          omega)
      have hkeys : (([] ++ (k, v) :: es).map Prod.fst).Nodup := h.1
      have hclose := close_of_nodup .refuse hkeys
      have hspace := skipSpace_printEntries (level + 1) k v es (newline level ++ '\x7d' :: r)
      obtain ⟨t, ht⟩ : ∃ t, skipSpace (printEntries (level + 1) ((k, v) :: es) ++
          (newline level ++ '\x7d' :: r)) = '"' :: t := ⟨_, hspace⟩
      rw [ht] at hentries
      simp only [print, List.cons_append, List.append_assoc, List.nil_append, value, ht]
      split
      · next he => exact absurd (List.cons.inj he).1 (by decide)
      · simp only [hentries, bind, Except.bind, hclose]
        rfl

/-- Plain items are read up to the closing bracket. -/
theorem items_print : (vs : List Json) → vs ≠ [] → isPlainAll vs = true →
    ∀ (level fuel close : Nat) (r : List Char), (printItems level vs).length ≤ fuel →
      items .refuse fuel (skipSpace (printItems level vs ++ (newline close ++ ']' :: r))) =
        .ok (vs, r)
  | [], hne, _ => absurd rfl hne
  | v :: vs, _, h => by
    intro level fuel close r hlen
    obtain ⟨hv, hvs⟩ := Bool.and_eq_true_iff.mp h
    rw [skipSpace_printItems hv]
    rw [printItems_cons, List.length_append, List.length_append, newline, List.length_cons] at hlen
    obtain ⟨fuel, rfl⟩ : ∃ n, fuel = n + 1 := ⟨fuel - 1, by omega⟩
    rw [items, value_print v hv level fuel _ (by omega)]
    cases vs with
    | nil =>
      have hclose : skipSpace (printMore level [] ++ (newline close ++ ']' :: r)) = ']' :: r := by
        rw [printMore, List.nil_append, skipSpace_newline, skipSpace_cons (by decide)]
      simp only [bind, Except.bind, hclose]
      rfl
    | cons w vs =>
      have hcomma : skipSpace (printMore level (w :: vs) ++ (newline close ++ ']' :: r)) =
          ',' :: (printItems level (w :: vs) ++ (newline close ++ ']' :: r)) := by
        rw [printMore, List.cons_append, skipSpace_cons (by decide)]
      have hlen' : (printItems level (w :: vs)).length ≤ fuel := by
        rw [printMore, List.length_cons] at hlen
        omega
      have hrest := items_print (w :: vs) (List.cons_ne_nil w vs) hvs level fuel close r hlen'
      simp only [bind, Except.bind, hcomma, hrest]
      rfl

/-- Plain entries are read up to the closing brace. -/
theorem entries_print : (es : List (String × Json)) → es ≠ [] → isPlainEntries es = true →
    ∀ (level fuel close : Nat) (r : List Char), (printEntries level es).length ≤ fuel →
      entries .refuse fuel (skipSpace (printEntries level es ++ (newline close ++ '\x7d' :: r))) =
        .ok (es, r)
  | [], hne, _ => absurd rfl hne
  | (k, v) :: es, _, h => by
    intro level fuel close r hlen
    obtain ⟨hv, hes⟩ := Bool.and_eq_true_iff.mp h
    rw [skipSpace_printEntries]
    rw [printEntries_cons] at hlen
    simp only [List.length_append, List.length_cons, newline] at hlen
    obtain ⟨fuel, rfl⟩ : ∃ n, fuel = n + 1 := ⟨fuel - 1, by omega⟩
    obtain ⟨c, cs, hc, hm⟩ := exists_print hv level
    have hspace (t : List Char) : skipSpace (' ' :: (print level v ++ t)) = print level v ++ t := by
      rw [hc, List.cons_append]
      exact skipSpace_cons (isSpace_of_mem hm).1 _
    have hvalue := value_print v hv level fuel
      (printMoreEntries level es ++ (newline close ++ '\x7d' :: r)) (by omega)
    have hcolon (t : List Char) : skipSpace (':' :: t) = ':' :: t := skipSpace_cons (by decide) t
    simp only [quote, List.cons_append, List.append_assoc, List.nil_append, entries,
      readText_quoted, hcolon, hspace, hvalue, bind, Except.bind]
    cases es with
    | nil =>
      have hclose : skipSpace (printMoreEntries level [] ++ (newline close ++ '\x7d' :: r)) =
          '\x7d' :: r := by
        rw [printMoreEntries, List.nil_append, skipSpace_newline, skipSpace_cons (by decide)]
      simp only [hclose]
      rfl
    | cons e es =>
      have hcomma : skipSpace (printMoreEntries level (e :: es) ++ (newline close ++ '\x7d' :: r)) =
          ',' :: (printEntries level (e :: es) ++ (newline close ++ '\x7d' :: r)) := by
        rw [printMoreEntries, List.cons_append, skipSpace_cons (by decide)]
      have hlen' : (printEntries level (e :: es)).length ≤ fuel := by
        rw [printMoreEntries, List.length_cons] at hlen
        omega
      have hrest := entries_print (e :: es) (List.cons_ne_nil e es) hes level fuel close r hlen'
      simp only [hcomma, hrest]
      rfl

end

/-- A plain document is read as it was printed, with a line break behind it. -/
theorem read_print {j : Json} (h : j.isPlain = true) :
    read .refuse (print 0 j ++ ['\n']) = .ok j := by
  obtain ⟨c, cs, hc, hm⟩ := exists_print h 0
  have hmark : c ≠ '\uFEFF' := fun he => absurd (he ▸ hm) (by decide)
  have hvalue := value_print j h 0 (2 * (print 0 j ++ ['\n']).length + 1) ['\n'] (by
    rw [List.length_append]
    omega)
  have hspace : skipSpace (print 0 j ++ ['\n']) = print 0 j ++ ['\n'] := by
    rw [hc, List.cons_append]
    exact skipSpace_cons (isSpace_of_mem hm).1 _
  have hend : skipSpace ['\n'] = [] := rfl
  unfold read
  split
  · next he =>
    rw [hc] at he
    exact absurd (List.cons.inj he).1 hmark
  · simp only [hspace, hvalue, hend, bind, Except.bind]
    rfl

end FluentPlan.Json
