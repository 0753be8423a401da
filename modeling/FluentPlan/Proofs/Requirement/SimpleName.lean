import Mathlib.Tactic.Common
import FluentPlan.Java.Name

/-!
Simple names read off bytes. To find the characters of a text takes the kernel much longer than to
find its bytes, so a table of class names is told apart by these. In an ASCII text they say the same.
-/

namespace FluentPlan.Java

def bytes (s : String) : List UInt8 := s.toByteArray.data.toList

def isAscii (s : String) : Bool := (bytes s).all fun b => b.toNat < 128

/-- The codes of the simple name, from behind. -/
def simpleCodes (s : String) : List Nat :=
  ((bytes s).map UInt8.toNat).reverse.takeWhile (· ≠ '.'.toNat)

theorem bytes_ofList (cs : List Char) :
    bytes (String.ofList cs) = cs.flatMap String.utf8EncodeChar := by
  rw [bytes, String.toByteArray_ofList, List.utf8Encode, List.data_toByteArray]

/-- The first byte of a longer code is no ASCII. -/
theorem map_toNat_utf8EncodeChar {c : Char} (h : ∀ b ∈ String.utf8EncodeChar c, b.toNat < 128) :
    (String.utf8EncodeChar c).map UInt8.toNat = [c.toNat] := by
  unfold String.utf8EncodeChar at h ⊢
  simp only at h ⊢
  split_ifs at h ⊢ with h1 h2 h3
  · simp only [List.map_cons, List.map_nil, UInt8.toNat_ofNat', List.cons.injEq, and_true]
    exact Nat.mod_eq_of_lt (by omega)
  all_goals
    have := h _ List.mem_cons_self
    simp only [UInt8.toNat_ofNat'] at this
    omega

theorem map_toNat_bytes {s : String} (h : isAscii s = true) :
    (bytes s).map UInt8.toNat = s.toList.map Char.toNat := by
  have h : ∀ b ∈ bytes s, b.toNat < 128 := by simpa [isAscii] using h
  rw [← String.ofList_toList (s := s), bytes_ofList] at h
  rw [← String.ofList_toList (s := s), bytes_ofList, String.toList_ofList]
  generalize s.toList = cs at h ⊢
  induction cs with
  | nil => rfl
  | cons c cs ih =>
    rw [List.flatMap_cons] at h ⊢
    rw [List.map_append, map_toNat_utf8EncodeChar fun b hb => h b (List.mem_append_left _ hb),
      ih fun b hb => h b (List.mem_append_right _ hb)]
    rfl

theorem simpleCodes_eq {s : String} (h : isAscii s = true) :
    simpleCodes s = ((simpleName s).toList.map Char.toNat).reverse := by
  have hdot : (fun n => decide (n ≠ '.'.toNat)) ∘ Char.toNat = fun c => decide (c ≠ '.') := by
    funext c
    exact decide_eq_decide.mpr (not_congr Char.toNat_inj)
  rw [simpleCodes, map_toNat_bytes h, ← List.map_reverse, List.takeWhile_map, hdot, simpleName,
    String.toList_ofList, List.map_reverse, List.reverse_reverse]

theorem simpleCodes_congr {a b : String} (ha : isAscii a = true) (hb : isAscii b = true)
    (h : simpleName a = simpleName b) : simpleCodes a = simpleCodes b := by
  rw [simpleCodes_eq ha, simpleCodes_eq hb, h]

/-- The first of some names with the codes of a given one. -/
def firstLike (names : List String) (s : String) : Option String :=
  names.find? fun t => simpleCodes t = simpleCodes s

theorem firstLike_congr {a b : String} (h : simpleCodes a = simpleCodes b) (names : List String) :
    firstLike names a = firstLike names b := by
  rw [firstLike, firstLike, h]

end FluentPlan.Java
