import Mathlib.Data.List.Basic
import Mathlib.Tactic.Common
import FluentPlan.Properties

/-!
Properties that come from putting entries one after the other. What is found under a key is the last
entry for it; what stands in a region of the keys comes from the entries of that region alone.
-/

namespace FluentPlan.Properties

/-- Puts entries one after the other. -/
def putAll (p : Properties) (es : List (String × String)) : Properties :=
  es.foldl (fun p e => p.put e.1 e.2) p

@[simp] theorem putAll_nil (p : Properties) : p.putAll [] = p := rfl

theorem putAll_cons (p : Properties) (e : String × String) (es : List (String × String)) :
    p.putAll (e :: es) = (p.put e.1 e.2).putAll es := rfl

theorem putAll_append (p : Properties) (es fs : List (String × String)) :
    p.putAll (es ++ fs) = (p.putAll es).putAll fs :=
  List.foldl_append

theorem filter_putEntry (keep : String → Bool) (key value : String) (es : List (String × String)) :
    (putEntry key value es).filter (fun e => keep e.1) =
      if keep key then putEntry key value (es.filter fun e => keep e.1)
      else es.filter fun e => keep e.1 := by
  induction es with
  | nil => cases hk : keep key <;> simp [putEntry, hk]
  | cons e es ih =>
    obtain ⟨k, v⟩ := e
    by_cases hkey : k = key
    · subst hkey
      cases hk : keep k <;> simp [putEntry, hk]
    · cases hk : keep k <;> cases hkey' : keep key <;>
        simp [putEntry, hkey, hk, hkey', ih]

theorem filter_entries_putAll (keep : String → Bool) (p : Properties)
    (es : List (String × String)) :
    (p.putAll es).entries.filter (fun e => keep e.1) =
      (es.filter fun e => keep e.1).foldl (fun fs e => putEntry e.1 e.2 fs)
        (p.entries.filter fun e => keep e.1) := by
  induction es generalizing p with
  | nil => rfl
  | cons e es ih =>
    have hput := filter_putEntry keep e.1 e.2 p.entries
    rw [putAll_cons, ih]
    cases hk : keep e.1 with
    | true =>
      rw [List.filter_cons_of_pos (by simp [hk]), List.foldl_cons]
      simp only [put, hput, hk, if_true]
    | false =>
      rw [List.filter_cons_of_neg (by simp [hk])]
      simp only [put, hput, hk, Bool.false_eq_true, if_false]

theorem foldl_putEntry {fs es : List (String × String)} (h : ((fs ++ es).map Prod.fst).Nodup) :
    es.foldl (fun fs e => putEntry e.1 e.2 fs) fs = fs ++ es := by
  induction es generalizing fs with
  | nil => rw [List.foldl_nil, List.append_nil]
  | cons e es ih =>
    have hnot : e.1 ∉ fs.map Prod.fst := by
      rw [List.map_append, List.map_cons, List.nodup_append] at h
      exact fun hm => h.2.2 _ hm _ List.mem_cons_self rfl
    have happ : fs ++ e :: es = fs ++ [e] ++ es := by simp
    rw [List.foldl_cons, putEntry_of_not_mem e.2 hnot, ih (by rw [← happ]; exact h), happ]

/-- Entries under distinct keys of a region stand there as they were put. -/
theorem filter_putAll_of_nodup (keep : String → Bool) {es : List (String × String)}
    (h : ((es.filter fun e => keep e.1).map Prod.fst).Nodup) :
    (empty.putAll es).entries.filter (fun e => keep e.1) = es.filter fun e => keep e.1 := by
  rw [filter_entries_putAll, entries_empty, List.filter_nil, foldl_putEntry (by simpa using h),
    List.nil_append]

theorem get?_putAll_of_not_mem {p : Properties} {es : List (String × String)} {key : String}
    (h : ∀ e ∈ es, e.1 ≠ key) : (p.putAll es).get? key = p.get? key := by
  induction es generalizing p with
  | nil => rfl
  | cons e es ih =>
    rw [putAll_cons, ih fun f hf => h f (List.mem_cons_of_mem e hf),
      get?_put_of_ne p e.2 (Ne.symm (h e List.mem_cons_self))]

/-- The value that entries give a key: that of the last of them, if there is one. -/
theorem get?_putAll (p : Properties) (es : List (String × String)) (key : String) :
    (p.putAll es).get? key =
      (((es.filter fun e => e.1 = key).getLast?).map Prod.snd).or (p.get? key) := by
  induction es generalizing p with
  | nil => rfl
  | cons e es ih =>
    rw [putAll_cons, ih]
    by_cases hk : e.1 = key
    · subst hk
      rw [List.filter_cons_of_pos (by simp), get?_put_self, List.getLast?_cons]
      cases (es.filter fun f => f.1 = e.1).getLast? <;> rfl
    · rw [List.filter_cons_of_neg (by simpa using hk), get?_put_of_ne p e.2 (Ne.symm hk)]

/-- Entries with the same ones under a key store the same under it. -/
theorem get?_putAll_congr {p : Properties} {es fs : List (String × String)} {key : String}
    (h : (es.filter fun e => e.1 = key) = fs.filter fun e => e.1 = key) :
    (p.putAll es).get? key = (p.putAll fs).get? key := by
  rw [get?_putAll, get?_putAll, h]

theorem exists_mem_of_get?_putAll {es : List (String × String)} {key value : String}
    (h : (empty.putAll es).get? key = some value) : (key, value) ∈ es := by
  rw [get?_putAll, get?_empty, Option.or_none] at h
  obtain ⟨⟨k, v⟩, hlast, rfl⟩ := Option.map_eq_some_iff.mp h
  have hm := List.mem_filter.mp (List.mem_of_getLast? hlast)
  have hk : k = key := by simpa using hm.2
  subst hk
  exact hm.1

theorem isSome_get?_putAll {es : List (String × String)} {e : String × String} (h : e ∈ es) :
    ((empty.putAll es).get? e.1).isSome = true := by
  rw [get?_putAll, get?_empty, Option.or_none, Option.isSome_map, Option.isSome_iff_ne_none, Ne,
    List.getLast?_eq_none_iff]
  exact List.ne_nil_of_mem (List.mem_filter.mpr ⟨h, by simp⟩)

end FluentPlan.Properties
