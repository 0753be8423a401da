import FluentPlan.Catalog.Signature

/-!
Indexes of signatures. A row holds the signatures with one key in the order in which they came; rows
stand in the order in which their keys came. Looking a key up finds exactly the signatures that have
it.
-/

namespace FluentPlan

/-- Signatures by a key that each of them has. -/
structure SignatureIndex (key : Signature → String) where
  rows : List (String × List Signature)
  keyed : ∀ row ∈ rows, ∀ s ∈ row.2, key s = row.1
  nodup : (rows.map Prod.fst).Nodup

namespace SignatureIndex

variable {key : Signature → String}

def empty : SignatureIndex key := ⟨[], by simp, by simp⟩

instance : Inhabited (SignatureIndex key) := ⟨empty⟩

/-- The signatures with a key. -/
def get (i : SignatureIndex key) (k : String) : List Signature := (i.rows.lookup k).getD []

/-- Whether a key has a row. -/
def has (i : SignatureIndex key) (k : String) : Bool := (i.rows.lookup k).isSome

/-- All signatures, row by row. -/
def signatures (i : SignatureIndex key) : List Signature := i.rows.flatMap Prod.snd

/-- How many signatures there are. -/
def size (i : SignatureIndex key) : Nat := i.signatures.length

/-- Puts signatures behind those with the same key. A key without a row gets one. -/
def extendRows (k : String) (ss : List Signature) :
    List (String × List Signature) → List (String × List Signature)
  | [] => [(k, ss)]
  | (l, ts) :: rows => if l = k then (l, ts ++ ss) :: rows else (l, ts) :: extendRows k ss rows

theorem mem_keys_extendRows {k l : String} {ss : List Signature}
    {rows : List (String × List Signature)} :
    l ∈ (extendRows k ss rows).map Prod.fst ↔ l = k ∨ l ∈ rows.map Prod.fst := by
  induction rows with
  | nil => simp [extendRows]
  | cons row rows ih =>
    obtain ⟨m, ts⟩ := row
    by_cases h : m = k
    · subst h
      simp [extendRows]
    · simp only [extendRows, h, if_false, List.map_cons, List.mem_cons, ih]
      exact or_left_comm

theorem nodup_keys_extendRows {k : String} {ss : List Signature}
    {rows : List (String × List Signature)} (h : (rows.map Prod.fst).Nodup) :
    ((extendRows k ss rows).map Prod.fst).Nodup := by
  induction rows with
  | nil => simp [extendRows]
  | cons row rows ih =>
    obtain ⟨m, ts⟩ := row
    simp only [List.map_cons, List.nodup_cons] at h
    by_cases hk : m = k
    · simp only [extendRows, hk, if_true, List.map_cons, List.nodup_cons]
      exact ⟨hk ▸ h.1, h.2⟩
    · simp only [extendRows, hk, if_false, List.map_cons, List.nodup_cons]
      exact ⟨fun hm => (mem_keys_extendRows.1 hm).elim hk h.1, ih h.2⟩

theorem keyed_extendRows {k : String} {ss : List Signature} (hs : ∀ s ∈ ss, key s = k)
    {rows : List (String × List Signature)} (h : ∀ row ∈ rows, ∀ s ∈ row.2, key s = row.1) :
    ∀ row ∈ extendRows k ss rows, ∀ s ∈ row.2, key s = row.1 := by
  induction rows with
  | nil => simpa [extendRows] using hs
  | cons row rows ih =>
    obtain ⟨m, ts⟩ := row
    have hrow := h (m, ts) List.mem_cons_self
    have hrest : ∀ row ∈ rows, ∀ s ∈ row.2, key s = row.1 :=
      fun row hr => h row (List.mem_cons_of_mem _ hr)
    by_cases hk : m = k
    · subst hk
      simp only [extendRows, if_true, List.forall_mem_cons]
      exact ⟨fun s hm => (List.mem_append.1 hm).elim (hrow s) (hs s), hrest⟩
    · simp only [extendRows, hk, if_false, List.forall_mem_cons]
      exact ⟨hrow, ih hrest⟩

/-- Gives a key a row unless it has one. -/
def touch (i : SignatureIndex key) (k : String) : SignatureIndex key :=
  ⟨extendRows k [] i.rows, keyed_extendRows (by simp) i.keyed, nodup_keys_extendRows i.nodup⟩

/-- Adds a signature behind those with the same key. -/
def add (i : SignatureIndex key) (s : Signature) : SignatureIndex key :=
  ⟨extendRows (key s) [s] i.rows, keyed_extendRows (by simp) i.keyed,
    nodup_keys_extendRows i.nodup⟩

/-! ### Looking up -/

@[simp] theorem get_empty (k : String) : (empty : SignatureIndex key).get k = [] := rfl

@[simp] theorem has_empty (k : String) : (empty : SignatureIndex key).has k = false := rfl

@[simp] theorem size_empty : (empty : SignatureIndex key).size = 0 := rfl

theorem lookup_extendRows (k l : String) (ss : List Signature)
    (rows : List (String × List Signature)) :
    (extendRows k ss rows).lookup l =
      if l = k then some ((rows.lookup k).getD [] ++ ss) else rows.lookup l := by
  induction rows with
  | nil =>
    by_cases h : l = k
    · simp [extendRows, h]
    · simp [extendRows, List.lookup_cons, h, beq_eq_false_iff_ne.2 h]
  | cons row rows ih =>
    obtain ⟨m, ts⟩ := row
    by_cases hm : m = k
    · subst hm
      by_cases h : l = m
      · simp [extendRows, h]
      · simp [extendRows, List.lookup_cons, h, beq_eq_false_iff_ne.2 h]
    · have hkm : (k == m) = false := by simpa using Ne.symm hm
      by_cases h : l = k
      · subst h
        simp [extendRows, hm, List.lookup_cons, hkm, ih]
      · simp only [extendRows, hm, if_false, List.lookup_cons, ih, h]

theorem get_add (i : SignatureIndex key) (s : Signature) (k : String) :
    (i.add s).get k = if k = key s then i.get k ++ [s] else i.get k := by
  unfold get add
  rw [lookup_extendRows]
  by_cases h : k = key s <;> simp [h]

theorem has_add (i : SignatureIndex key) (s : Signature) (k : String) :
    (i.add s).has k = true ↔ k = key s ∨ i.has k = true := by
  unfold has add
  rw [lookup_extendRows]
  by_cases h : k = key s <;> simp [h]

@[simp] theorem get_touch (i : SignatureIndex key) (k l : String) : (i.touch k).get l = i.get l := by
  unfold get touch
  rw [lookup_extendRows]
  by_cases h : l = k <;> simp [h]

theorem has_touch (i : SignatureIndex key) (k l : String) :
    (i.touch k).has l = true ↔ l = k ∨ i.has l = true := by
  unfold has touch
  rw [lookup_extendRows]
  by_cases h : l = k <;> simp [h]

/-- A key that is there already is not touched. -/
theorem touch_of_has {i : SignatureIndex key} {k : String} (h : i.has k = true) : i.touch k = i := by
  have hrows {rows : List (String × List Signature)} (h : (rows.lookup k).isSome = true) :
      extendRows k [] rows = rows := by
    induction rows with
    | nil => cases h
    | cons row rows ih =>
      obtain ⟨m, ts⟩ := row
      by_cases hm : m = k
      · simp [extendRows, hm]
      · have hkm : (k == m) = false := by simpa using Ne.symm hm
        rw [extendRows, if_neg hm, ih (by simpa [List.lookup_cons, hkm] using h)]
  obtain ⟨rows, hkeyed, hnodup⟩ := i
  simp only [touch, mk.injEq]
  exact hrows h

theorem has_of_mem_get {i : SignatureIndex key} {k : String} {s : Signature} (h : s ∈ i.get k) :
    i.has k = true := by
  unfold get at h
  unfold has
  cases hl : i.rows.lookup k with
  | none => simp [hl] at h
  | some ss => rfl

theorem size_extendRows (k : String) (ss : List Signature) (rows : List (String × List Signature)) :
    ((extendRows k ss rows).flatMap Prod.snd).length =
      (rows.flatMap Prod.snd).length + ss.length := by
  induction rows with
  | nil => simp [extendRows]
  | cons row rows ih =>
    obtain ⟨m, ts⟩ := row
    by_cases hm : m = k
    · simp only [extendRows, hm, if_true, List.flatMap_cons, List.length_append]
      omega
    · simp only [extendRows, hm, if_false, List.flatMap_cons, List.length_append, ih]
      omega

theorem size_add (i : SignatureIndex key) (s : Signature) : (i.add s).size = i.size + 1 :=
  size_extendRows (key s) [s] i.rows

@[simp] theorem size_touch (i : SignatureIndex key) (k : String) : (i.touch k).size = i.size :=
  size_extendRows k [] i.rows

/-- A key finds the signatures that have it. -/
theorem mem_get {i : SignatureIndex key} {k : String} {s : Signature} :
    s ∈ i.get k ↔ s ∈ i.signatures ∧ key s = k := by
  -- keys are distinct, so a row is found under its key
  have hlookup {rows : List (String × List Signature)} (hn : (rows.map Prod.fst).Nodup)
      {ss : List Signature} : rows.lookup k = some ss ↔ (k, ss) ∈ rows := by
    induction rows with
    | nil => simp
    | cons row rows ih =>
      obtain ⟨m, ts⟩ := row
      simp only [List.map_cons, List.nodup_cons] at hn
      by_cases hk : k = m
      · subst hk
        have hno : (k, ss) ∉ rows := fun hm => hn.1 (List.mem_map_of_mem hm)
        simp [hno, eq_comm]
      · have hb : (k == m) = false := by simpa using hk
        simp [List.lookup_cons, hb, hk, ih hn.2]
  unfold get signatures
  rw [List.mem_flatMap]
  constructor
  · intro h
    cases hl : i.rows.lookup k with
    | none => simp [hl] at h
    | some ss =>
      rw [hl] at h
      have hrow := (hlookup i.nodup).1 hl
      exact ⟨⟨_, hrow, h⟩, i.keyed _ hrow s h⟩
  · rintro ⟨⟨row, hrow, hs⟩, hk⟩
    have hl : i.rows.lookup k = some row.2 :=
      (hlookup i.nodup).2 (by rwa [← hk, i.keyed row hrow s hs])
    rwa [hl]

theorem mem_signatures_add {i : SignatureIndex key} {s t : Signature} :
    t ∈ (i.add s).signatures ↔ t = s ∨ t ∈ i.signatures := by
  have h : t ∈ (i.add s).signatures ↔ t ∈ (i.add s).get (key t) := by simp [mem_get]
  rw [h, get_add]
  by_cases hk : key t = key s
  · rw [if_pos hk, List.mem_append, mem_get, List.mem_singleton]
    simp [or_comm]
  · rw [if_neg hk, mem_get]
    constructor
    · exact fun ht => .inr ht.1
    · rintro (rfl | ht)
      · exact absurd rfl hk
      · exact ⟨ht, rfl⟩

/-- The rows of signatures of which those with one key stand together. -/
def runs (key : Signature → String) (ss : List Signature) : List (String × List Signature) :=
  (ss.splitBy fun a b => key a = key b).map fun run => ((run.map key).headD "", run)

end SignatureIndex

end FluentPlan
