import FluentPlan.Call

/-!
The order of child calls: by category, and within a category as they came.
-/

namespace FluentPlan

/-- The last position of a category, or one behind all where it has none. -/
def rankIn (categories : List String) (category : String) : Nat :=
  match categories.reverse.idxOf? category with
  | some i => categories.length - 1 - i
  | none => categories.length

/-- Orders items by the rank of their category. -/
def orderBy {α : Type} (category : α → String) (categories : List String) (items : List α) :
    List α :=
  items.mergeSort fun a b => rankIn categories (category a) ≤ rankIn categories (category b)

theorem orderBy_perm {α : Type} (category : α → String) (categories : List String)
    (items : List α) : (orderBy category categories items).Perm items :=
  List.mergeSort_perm _ _

theorem orderBy_sorted {α : Type} (category : α → String) (categories : List String)
    (items : List α) :
    (orderBy category categories items).Pairwise fun a b =>
      rankIn categories (category a) ≤ rankIn categories (category b) := by
  have h : (orderBy category categories items).Pairwise fun a b =>
      decide (rankIn categories (category a) ≤ rankIn categories (category b)) = true :=
    List.pairwise_mergeSort (fun a b c hab hbc => by simp_all; omega)
      (fun a b => by simp; omega) items
  simpa using h

theorem orderBy_map {α β : Type} (f : α → β) (category : β → String) (categories : List String)
    (items : List α) :
    (orderBy (fun a => category (f a)) categories items).map f =
      orderBy category categories (items.map f) :=
  List.map_mergeSort fun _ _ _ _ => rfl

theorem orderBy_cons {α : Type} (category : α → String) (categories : List String) (a : α)
    (items : List α) :
    ∃ before behind, orderBy category categories (a :: items) = before ++ a :: behind ∧
      orderBy category categories items = before ++ behind ∧
      ∀ b ∈ before, rankIn categories (category b) < rankIn categories (category a) := by
  let le (a b : α) : Bool := rankIn categories (category a) ≤ rankIn categories (category b)
  have trans (a b c : α) (hab : le a b = true) (hbc : le b c = true) : le a c = true := by
    simp only [le, decide_eq_true_eq] at hab hbc ⊢
    omega
  have total (a b : α) : (le a b || le b a) = true := by
    simp only [le, Bool.or_eq_true, decide_eq_true_eq]
    omega
  obtain ⟨before, behind, ha, hi, hb⟩ := List.mergeSort_cons trans total a items
  exact ⟨before, behind, ha, hi, by simpa [le] using hb⟩

/-- Leaving items out does not change the order of the others. -/
theorem orderBy_filter {α : Type} (category : α → String) (categories : List String)
    (p : α → Bool) (items : List α) :
    (orderBy category categories items).filter p =
      orderBy category categories (items.filter p) := by
  -- an item goes in front of the first one whose category does not rank before its own
  have hsplit {a : α} {before behind : List α}
      (hb : ∀ b ∈ before, rankIn categories (category b) < rankIn categories (category a))
      (hs : (before ++ a :: behind).Pairwise fun a b =>
        rankIn categories (category a) ≤ rankIn categories (category b)) :
      (before ++ behind).takeWhile (fun b =>
        rankIn categories (category b) < rankIn categories (category a)) = before := by
    have hbehind := (List.pairwise_cons.mp (List.pairwise_append.mp hs).2.1).1
    rw [List.takeWhile_append_of_pos (by simpa using hb)]
    cases behind with
    | nil => simp
    | cons b behind => simp [Nat.not_lt.mpr (hbehind b List.mem_cons_self)]
  induction items with
  | nil => simp [orderBy]
  | cons a items ih =>
    obtain ⟨before, behind, ha, hi, hb⟩ := orderBy_cons category categories a items
    rw [hi, List.filter_append] at ih
    cases hp : p a with
    | false => simp [ha, hp, ih]
    | true =>
      obtain ⟨before', behind', ha', hi', hb'⟩ :=
        orderBy_cons category categories a (items.filter p)
      have hsorted := (ha ▸ orderBy_sorted category categories (a :: items)).filter p
      have hsorted' := ha' ▸ orderBy_sorted category categories (a :: items.filter p)
      simp only [List.filter_append, List.filter_cons_of_pos hp] at hsorted
      rw [hi'] at ih
      have hbefore : before.filter p = before' := by
        rw [← hsplit (fun b hm => hb b (List.mem_filter.mp hm).1) hsorted, ih,
          hsplit hb' hsorted']
      have hbehind : behind.filter p = behind' := by
        rw [hbefore] at ih
        exact List.append_cancel_left ih
      simp [ha, ha', hp, hbefore, hbehind]

namespace Call

/-- Orders calls by their categories. -/
def order (categories : List String) (calls : List Call) : List Call :=
  orderBy (fun c => c.head.category) categories calls

end Call

end FluentPlan
