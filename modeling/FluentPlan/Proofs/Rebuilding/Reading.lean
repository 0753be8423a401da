import FluentPlan.Proofs.Rebuilding.Region

/-!
Values that are read from regions: where a region holds what storing a value puts there, the value is
found again, and where a collection is numbered from zero on its indices are all found.
-/

namespace FluentPlan

open Text Number

theorem lookup_filter {keep : String → Bool} {key : String} (hk : keep key = true)
    (es : List (String × String)) :
    (es.filter fun e => keep e.1).lookup key = es.lookup key := by
  induction es with
  | nil => rfl
  | cons e es ih =>
    obtain ⟨k, v⟩ := e
    by_cases hkey : key = k
    · subst hkey
      simp [hk]
    · have hne : (key == k) = false := by simpa using hkey
      cases hkk : keep k <;> simp [hkk, List.lookup_cons, hne, ih]

theorem get?_of_filter {props : Properties} {keep : String → Bool} {es : List (String × String)}
    (h : props.entries.filter (fun e => keep e.1) = es) {key : String} (hk : keep key = true) :
    props.get? key = es.lookup key := by
  rw [Properties.get?, ← lookup_filter hk, h]

theorem isDigits_of_forall {cs : List Char} (hne : cs ≠ []) (hd : ∀ c ∈ cs, c.isDigit = true) :
    Number.isDigits cs = true := by
  simp only [Number.isDigits, Bool.and_eq_true, Bool.not_eq_true', List.all_eq_true]
  refine ⟨by simpa using hne, fun c hc => ?_⟩
  have hd := hd c hc
  have hlow : c.toNat < 0x80 := by
    simp only [Char.isDigit, Bool.and_eq_true, decide_eq_true_eq] at hd
    have := hd.2
    have hle : c.toNat ≤ 57 := this
    omega
  refine isDigit_of_isDecimal ?_
  rw [isDecimal, decimalValue?, if_pos hlow, if_pos hd]
  rfl

theorem isDigit_of_mem_toDigits (n : Nat) : ∀ c ∈ Nat.toDigits 10 n, c.isDigit = true :=
  fun _ hc => Nat.isDigit_of_mem_toDigits (by decide) (by decide) hc

theorem isDigits_toDigits_text (n : Nat) : Number.isDigits (Nat.toDigits 10 n) = true :=
  isDigits_of_forall Nat.toDigits_ne_nil (isDigit_of_mem_toDigits n)

namespace Param

theorem indexed_filter (base : String) (es : List (String × String)) :
    indexed base (es.filter fun e => inRegion [.below base] e.1) = indexed base es := by
  induction es with
  | nil => rfl
  | cons e es ih =>
    obtain ⟨key, value⟩ := e
    cases hb : behind? base key with
    | none =>
      rw [List.filter_cons_of_neg (by simp [inRegion, KeyPattern.covers, hb]), ih]
      simp only [indexed, hb]
    | some tail =>
      rw [List.filter_cons_of_pos (by simp [inRegion, KeyPattern.covers, hb])]
      simp only [indexed, hb, ih]

/-- Texts that were stored one by one are found with increasing indices. -/
theorem indexed_itemEntries (base : String) (index : Nat) (items : List String) :
    ∃ found, indexed base (itemEntries base index items) = .ok found ∧
      found.map Prod.snd = items ∧ found.Pairwise (fun a b => a.1 < b.1) ∧
      ∀ x ∈ found, index ≤ x.1 := by
  induction items generalizing index with
  | nil => exact ⟨[], rfl, rfl, .nil, nofun⟩
  | cons s r ih =>
    obtain ⟨found, hf, hs, hp, hb⟩ := ih (index + 1)
    have htail : behind? base (base ++ toString index) = some (Nat.toDigits 10 index) := by
      rw [behind?_append]
      simp [toString, Nat.repr]
    have hvalue : indexValue (Nat.toDigits 10 index) = .ok index := by
      rw [indexValue, readNatural?_toDigits]
    refine ⟨(index, s) :: found, ?_, by rw [List.map_cons, hs], ?_, ?_⟩
    · rw [itemEntries, indexed, htail]
      simp only [isDigits_toDigits_text, if_true, hvalue, hf, ok_bind]
      rfl
    · exact List.pairwise_cons.mpr ⟨fun x hx => hb x hx, hp⟩
    · rintro x hx
      rcases List.mem_cons.mp hx with rfl | hx
      · exact Nat.le_refl _
      · exact Nat.le_of_succ_le (hb x hx)

theorem nodup_itemEntries (base : String) (index : Nat) (items : List String) :
    ((itemEntries base index items).map Prod.fst).Nodup := by
  have hbound {key : String} {i : Nat} {xs : List String}
      (h : key ∈ (itemEntries base i xs).map Prod.fst) : ∃ j, i ≤ j ∧ key = base ++ toString j := by
    induction xs generalizing i with
    | nil => cases h
    | cons s r ih =>
      rcases List.mem_cons.mp h with rfl | h
      · exact ⟨i, Nat.le_refl i, rfl⟩
      · obtain ⟨j, hj, hk⟩ := ih h
        exact ⟨j, Nat.le_of_succ_le hj, hk⟩
  induction items generalizing index with
  | nil => exact List.nodup_nil
  | cons s r ih =>
    rw [itemEntries, List.map_cons, List.nodup_cons]
    refine ⟨fun hm => ?_, ih (index + 1)⟩
    obtain ⟨j, hj, hk⟩ := hbound hm
    have htext : (toString index).toList = (toString j).toList :=
      congrArg String.toList ((String.append_right_inj base).mp hk)
    have hread := Number.readNatural?_toString index
    rw [htext, Number.readNatural?_toString] at hread
    cases hread
    omega

theorem nodup_entries (p : Param) (v : Option Value) (lead : String) :
    ((p.entries v lead).map Prod.fst).Nodup := by
  unfold entries
  split
  · exact nodup_itemEntries _ _ _
  · cases p.prop.bind fun key => (p.stored v).map fun t => (lead ++ key, t) <;> simp

/-- Texts are found where they were stored one by one. -/
theorem valueOf_of_items {p : Param} (hk : p.kind = .textList) {e : Element} {lead : String}
    {items : List String}
    (h : e.properties.entries.filter (fun x => inRegion (p.region lead) x.1) =
      itemEntries (lead ++ p.propText ++ "/") 0 items) :
    p.valueOf e lead = .ok (some (.texts items)) := by
  obtain ⟨found, hf, hs, hlt, -⟩ := indexed_itemEntries (lead ++ p.propText ++ "/") 0 items
  have hregion : p.region lead = [.below (lead ++ p.propText ++ "/")] := by simp only [region, hk]
  have hbase : indexed (lead ++ p.propText ++ "/") e.properties.entries = .ok found := by
    rw [← indexed_filter, ← hf, ← h, hregion]
  have hsorted : found.mergeSort indexedLe = found :=
    List.mergeSort_of_pairwise (hlt.imp fun {a b} hab => by simp [indexedLe, hab])
  simp only [valueOf, hk, hbase, ok_bind, hsorted, hs]
  rfl

/-- Without a host the address is the path. -/
theorem valueOf_of_path {p : Param} (hk : p.kind = .url) {e : Element} {lead : String}
    (h : e.properties.get? (lead ++ domainKey) = none) :
    p.valueOf e lead = p.parse (e.properties.get? (lead ++ p.propText)) := by
  have hraw : p.extract e lead = e.properties.get? (lead ++ p.propText) := by
    simp only [extract, hk, h, Option.getD_none, joinUrl]
    rfl
  simp only [valueOf, hk, hraw]

/-- What is stored under the region of a parameter is read again. -/
theorem valueOf_of_entries {p : Param} (hp : p.isPlaced = true) {e : Element} {lead : String}
    {v : Option Value}
    (h : e.properties.entries.filter (fun x => inRegion (p.region lead) x.1) = p.entries v lead) :
    p.valueOf e lead = p.reread v := by
  obtain ⟨kind, prop, default, required, mandatory⟩ := p
  cases prop with
  | none => simp [isPlaced] at hp
  | some prop =>
    have hget {key : String} (hk : inRegion (region ⟨kind, some prop, default, required, mandatory⟩
        lead) key = true) := get?_of_filter h hk
    have hsimple (hown : region ⟨kind, some prop, default, required, mandatory⟩ lead =
        [.exact (lead ++ prop)]) (hent : entries ⟨kind, some prop, default, required, mandatory⟩ v
        lead = ((stored ⟨kind, some prop, default, required, mandatory⟩ v).map fun t =>
          (lead ++ prop, t)).toList) : e.properties.get? (lead ++ prop) =
        stored ⟨kind, some prop, default, required, mandatory⟩ v := by
      rw [hget (by simp [hown, inRegion, KeyPattern.covers]), hent]
      cases stored ⟨kind, some prop, default, required, mandatory⟩ v <;> simp
    cases kind with
    | displayName | children | holdDuration _ _ => simp [isPlaced] at hp
    | textList => exact valueOf_of_items rfl h
    | url =>
      have hdom : e.properties.get? (lead ++ domainKey) = none := by
        have hne : prop ≠ domainKey := by
          rintro rfl
          simp [isPlaced, propText] at hp
        rw [hget (by simp [region, inRegion, KeyPattern.covers])]
        simp only [entries]
        cases stored ⟨.url, some prop, default, required, mandatory⟩ v with
        | none => rfl
        | some t =>
          have hbeq : (lead ++ domainKey == lead ++ prop) = false :=
            beq_eq_false_iff_ne.mpr fun h => hne (String.append_right_inj lead |>.mp h).symm
          change List.lookup (lead ++ domainKey) [(lead ++ prop, t)] = none
          rw [List.lookup_cons, hbeq]
          rfl
      have hpath : e.properties.get? (lead ++ prop) =
          stored ⟨.url, some prop, default, required, mandatory⟩ v := by
        rw [hget (by simp [region, inRegion, KeyPattern.covers, propText])]
        simp only [entries]
        cases stored ⟨.url, some prop, default, required, mandatory⟩ v <;> simp
      rw [valueOf_of_path rfl hdom]
      exact congrArg _ hpath
    | _ =>
      have hraw := hsimple rfl rfl
      simp only [valueOf, extract, Option.bind_some, hraw, reread]
      rfl
end Param

theorem nodup_eraseDups (xs : List Nat) : xs.eraseDups.Nodup := by
  match xs with
  | [] => exact List.nodup_nil
  | x :: xs =>
    rw [List.eraseDups_cons, List.nodup_cons]
    have hlen := List.length_filter_le (fun y => !y == x) xs
    exact ⟨by simp [List.mem_eraseDups], nodup_eraseDups _⟩
termination_by xs.length
decreasing_by simp only [List.length_cons]; omega

/-- Numbers without repetition, once sorted, increase strictly. -/
theorem pairwise_lt_mergeSort_eraseDups (xs : List Nat) :
    (xs.eraseDups.mergeSort fun a b => a ≤ b).Pairwise (· < ·) := by
  have hnodup : (xs.eraseDups.mergeSort fun a b => a ≤ b).Nodup :=
    (List.mergeSort_perm _ _).nodup_iff.mpr (nodup_eraseDups _)
  have hsorted : (xs.eraseDups.mergeSort fun a b => a ≤ b).Pairwise fun a b =>
      (decide (a ≤ b)) = true :=
    List.pairwise_mergeSort (fun a b c hab hbc => by simp_all; omega) (fun a b => by simp; omega) _
  refine (hsorted.and hnodup).imp fun {a b} h => ?_
  exact Nat.lt_of_le_of_ne (of_decide_eq_true h.1) h.2

namespace Element

/-- A key of an entry has the number of its digits as index. -/
theorem indexIn?_of_digits {digits : String} (hne : digits.toList ≠ [])
    (hd : ∀ c ∈ digits.toList, c.isDigit = true) {n : Nat}
    (hn : readNatural? digits.toList = some n) (each tail : String) :
    indexIn? (each ++ "/") (each ++ "/" ++ digits ++ "/" ++ tail) = .ok (some n) := by
  have hassoc : each ++ "/" ++ digits ++ "/" ++ tail = each ++ "/" ++ (digits ++ "/" ++ tail) := by
    simp only [String.append_assoc]
  have hhead : (digits ++ "/" ++ tail).toList.takeWhile (· ≠ '/') = digits.toList := by
    have htail : (digits ++ "/" ++ tail).toList = digits.toList ++ '/' :: tail.toList := by simp
    rw [htail, List.takeWhile_append_of_pos]
    · simp
    · intro c hc
      rw [decide_eq_true_eq]
      rintro rfl
      exact absurd (hd _ hc) (by decide)
  rw [hassoc, indexIn?, behind?_append]
  simp only [hhead, isDigits_of_forall hne hd, if_true, Param.indexValue, hn]
  rfl

theorem indexIn?_entryLead (each tail : String) (i : Nat) :
    indexIn? (each ++ "/") (entryLead each i ++ tail) = .ok (some i) := by
  have htext : (toString i).toList = Nat.toDigits 10 i := by simp [toString, Nat.repr]
  exact indexIn?_of_digits (htext ▸ Nat.toDigits_ne_nil) (htext ▸ isDigit_of_mem_toDigits i)
    (readNatural?_toString i) each tail

/-- The indices of a collection are those that some key has below it, in increasing order. -/
theorem indices_eq_ok {props : Properties} {each : String} {found : List Nat}
    (h : indices props each "" = .ok found) :
    found.Pairwise (· < ·) ∧
      ∀ n, n ∈ found ↔ ∃ k ∈ props.keys, indexIn? (each ++ "/") k = .ok (some n) := by
  have hbase : "" ++ each ++ "/" = each ++ "/" := by simp
  rw [indices, hbase] at h
  obtain ⟨all, hall, h⟩ := exists_of_bind_eq_ok h
  cases h
  have hread := (mapM_eq_ok_iff _ _ _).mp hall
  refine ⟨pairwise_lt_mergeSort_eraseDups _, fun n => ?_⟩
  rw [(List.mergeSort_perm _ _).mem_iff, List.mem_eraseDups, List.mem_filterMap]
  constructor
  · rintro ⟨_, ho, rfl⟩
    exact exists_of_forall₂ hread ho
  · rintro ⟨k, hk, hn⟩
    obtain ⟨o, ho, hko⟩ := exists_of_forall₂ hread.flip hk
    rw [hn] at hko
    cases hko
    exact ⟨_, ho, rfl⟩

/-- The indices of a collection whose entries are numbered one after the other. -/
theorem indices_eq_range {props : Properties} {each : String} {n : Nat}
    (hkeys : ∀ k ∈ props.keys, (KeyPattern.below (each ++ "/")).covers k = true →
      ∃ i < n, ∃ tail, k = entryLead each i ++ tail)
    (hall : ∀ i < n, ∃ tail, entryLead each i ++ tail ∈ props.keys) :
    indices props each "" = .ok (List.range n) := by
  have hfind (k : String) (hk : k ∈ props.keys) : ∃ o, indexIn? (each ++ "/") k = .ok o ∧
      ∀ i, o = some i → i < n := by
    cases hc : (KeyPattern.below (each ++ "/")).covers k with
    | true =>
      obtain ⟨i, hi, tail, rfl⟩ := hkeys k hk hc
      exact ⟨_, indexIn?_entryLead each tail i, fun j hj => by cases hj; exact hi⟩
    | false =>
      have hnone : Param.behind? (each ++ "/") k = none := by simpa [KeyPattern.covers] using hc
      exact ⟨none, by rw [indexIn?, hnone], fun i hi => by cases hi⟩
  obtain ⟨found, hfound⟩ : ∃ found, indices props each "" = .ok found := by
    obtain ⟨read, hread⟩ := exists_forall₂ fun k hk => (hfind k hk).imp fun _ h => h.1
    have hbase : "" ++ each ++ "/" = each ++ "/" := by simp
    exact ⟨_, by rw [indices, hbase, (mapM_eq_ok_iff _ _ _).mpr hread, ok_bind]; rfl⟩
  obtain ⟨hlt, hmem⟩ := indices_eq_ok hfound
  have hrange (i : Nat) : i ∈ found ↔ i ∈ List.range n := by
    rw [hmem, List.mem_range]
    constructor
    · rintro ⟨k, hk, hi⟩
      obtain ⟨o, ho, hlt⟩ := hfind k hk
      rw [hi] at ho
      cases ho
      exact hlt i rfl
    · intro hi
      obtain ⟨tail, hk⟩ := hall i hi
      exact ⟨_, hk, indexIn?_entryLead each tail i⟩
  have hperm : found.Perm (List.range n) :=
    (List.perm_ext_iff_of_nodup (hlt.imp Nat.ne_of_lt) List.nodup_range).mpr hrange
  rw [hfound, hperm.eq_of_pairwise (fun a b _ _ hab hba => absurd hba (Nat.lt_asymm hab)) hlt
    List.pairwise_lt_range]

end Element
end FluentPlan
