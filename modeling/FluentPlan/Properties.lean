/-!
The properties of an element: raw texts under distinct keys, in the order in which the keys came.
-/

namespace FluentPlan

/-- Puts a value under a key. A key that is there keeps its place. -/
def putEntry (key value : String) : List (String × String) → List (String × String)
  | [] => [(key, value)]
  | (k, v) :: r => if k = key then (k, value) :: r else (k, v) :: putEntry key value r

theorem mem_keys_putEntry {key value k : String} {es : List (String × String)} :
    k ∈ (putEntry key value es).map Prod.fst ↔ k = key ∨ k ∈ es.map Prod.fst := by
  induction es with
  | nil => simp [putEntry]
  | cons e es ih =>
    obtain ⟨k', v'⟩ := e
    by_cases h : k' = key
    · subst h
      simp [putEntry]
    · simp only [putEntry, h, if_false, List.map_cons, List.mem_cons, ih]
      exact or_left_comm

theorem nodup_keys_putEntry {key value : String} {es : List (String × String)}
    (h : (es.map Prod.fst).Nodup) : ((putEntry key value es).map Prod.fst).Nodup := by
  induction es with
  | nil => simp [putEntry]
  | cons e es ih =>
    obtain ⟨k', v'⟩ := e
    simp only [List.map_cons, List.nodup_cons] at h
    by_cases hk : k' = key
    · simp only [putEntry, hk, if_true, List.map_cons, List.nodup_cons]
      exact ⟨hk ▸ h.1, h.2⟩
    · simp only [putEntry, hk, if_false, List.map_cons, List.nodup_cons]
      exact ⟨fun hm => (mem_keys_putEntry.1 hm).elim hk h.1, ih h.2⟩

theorem putEntry_of_not_mem {key : String} (value : String) {es : List (String × String)}
    (h : key ∉ es.map Prod.fst) : putEntry key value es = es ++ [(key, value)] := by
  induction es with
  | nil => rfl
  | cons e es ih =>
    simp only [List.map_cons, List.mem_cons, not_or] at h
    rw [putEntry, if_neg (Ne.symm h.1), ih h.2, List.cons_append]

/-- Raw property texts under distinct keys. -/
structure Properties where
  entries : List (String × String)
  nodup : (entries.map Prod.fst).Nodup
deriving DecidableEq

namespace Properties

def empty : Properties := ⟨[], List.nodup_nil⟩

instance : Inhabited Properties := ⟨empty⟩

def get? (p : Properties) (key : String) : Option String := p.entries.lookup key

def put (p : Properties) (key value : String) : Properties :=
  ⟨putEntry key value p.entries, nodup_keys_putEntry p.nodup⟩

def keys (p : Properties) : List String := p.entries.map Prod.fst

def contains (p : Properties) (key : String) : Bool := (p.get? key).isSome

/-- Puts entries one after the other. -/
def ofList (es : List (String × String)) : Properties :=
  es.foldl (fun p e => p.put e.1 e.2) empty

/-- The entries by increasing key. -/
def sorted (p : Properties) : List (String × String) :=
  p.entries.mergeSort fun a b => decide (a.1 ≤ b.1)

@[simp] theorem entries_empty : empty.entries = [] := rfl

@[simp] theorem get?_empty (key : String) : empty.get? key = none := rfl

@[simp] theorem get?_put_self (p : Properties) (key value : String) :
    (p.put key value).get? key = some value := by
  obtain ⟨es, h⟩ := p
  simp only [put, get?]
  clear h
  induction es with
  | nil => simp [putEntry]
  | cons e es ih =>
    obtain ⟨k, v⟩ := e
    by_cases hk : k = key
    · simp [putEntry, hk]
    · have : (key == k) = false := by simpa using Ne.symm hk
      simp [putEntry, hk, List.lookup_cons, this, ih]

theorem get?_put_of_ne (p : Properties) {key k : String} (value : String) (hne : k ≠ key) :
    (p.put key value).get? k = p.get? k := by
  obtain ⟨es, h⟩ := p
  simp only [put, get?]
  clear h
  induction es with
  | nil => simp [putEntry, List.lookup_cons, beq_eq_false_iff_ne.2 hne]
  | cons e es ih =>
    obtain ⟨k', v⟩ := e
    by_cases hk : k' = key
    · simp [putEntry, hk, List.lookup_cons, beq_eq_false_iff_ne.2 hne]
    · simp only [putEntry, hk, if_false, List.lookup_cons]
      split <;> simp_all

/-- The entries are what `get?` finds. -/
theorem get?_eq_some_iff {p : Properties} {key value : String} :
    p.get? key = some value ↔ (key, value) ∈ p.entries := by
  obtain ⟨es, h⟩ := p
  simp only [get?]
  induction es with
  | nil => simp
  | cons e es ih =>
    obtain ⟨k, v⟩ := e
    simp only [List.map_cons, List.nodup_cons] at h
    by_cases hk : key = k
    · subst hk
      have hno : (key, value) ∉ es := fun hm => h.1 (List.mem_map_of_mem hm)
      simp [hno, eq_comm]
    · have hb : (key == k) = false := by simpa using hk
      simp [List.lookup_cons, hb, hk, ih h.2]

end Properties

end FluentPlan
