import FluentPlan.Proofs.Building.Written

/-!
What chained calls write. Each call puts what it stores by itself over the properties that are there, so
a property has the value of the last call that writes it, and a region into which one call alone writes
holds what that call stores.
-/

namespace FluentPlan

open Build Script

namespace Properties

/-- What is put outside of a region leaves the region as it is. -/
theorem filter_putAll_of_not_mem {keep : String → Bool} {es : List (String × String)}
    (h : ∀ e ∈ es, keep e.1 = false) (p : Properties) :
    (p.putAll es).entries.filter (fun e => keep e.1) = p.entries.filter fun e => keep e.1 := by
  have hnone : es.filter (fun e => keep e.1) = [] :=
    List.filter_eq_nil_iff.mpr fun e he => by simp [h e he]
  rw [filter_entries_putAll, hnone, List.foldl_nil]

/-- A region that was empty holds what is put there. -/
theorem filter_putAll_of_empty {keep : String → Bool} {p : Properties}
    (h : p.entries.filter (fun e => keep e.1) = []) (es : List (String × String)) :
    (p.putAll es).entries.filter (fun e => keep e.1) =
      (empty.putAll es).entries.filter fun e => keep e.1 := by
  rw [filter_entries_putAll, filter_entries_putAll, h]
  rfl

theorem get?_putAll_of_some {es : List (String × String)} {key value : String}
    (h : (empty.putAll es).get? key = some value) (p : Properties) :
    (p.putAll es).get? key = some value := by
  rw [get?_putAll, get?_empty, Option.or_none] at h
  rw [get?_putAll, h]
  rfl

end Properties

/-! ### Calls by themselves -/

namespace Build

/-- What a call of a modifier stores by itself, at the entry `index` if the modifier has a collection. -/
def storedAlone (m : Modifier) (index : Nat) (c : Invocation Operand) :
    Except Failure Properties := do
  let values ← bound m c
  let props ← storeAll (lead m index) values .empty
  return m.guard.elim props (·.apply props)

/-- What a chained call writes behind the calls before it. A call for children writes nothing. -/
def writes (s : Signature) (before : List (Invocation Operand)) (c : Invocation Operand) :
    Except Failure Properties :=
  if c.name = childrenMethod then .ok .empty
  else do
    let m ← findModifier s c.pos.line c.name
    storedAlone m (before.countP fun b => b.name = c.name) c

/-- The call at a position of a chain writes a value under a key. -/
def WritesAt (s : Signature) (chain : List (Invocation Operand)) (i : Nat) (key value : String) :
    Prop :=
  ∃ c own, chain[i]? = some c ∧ writes s (chain.take i) c = .ok own ∧ own.get? key = some value

theorem storedAlone_of_no_each {m : Modifier} (h : m.each = none) (i j : Nat)
    (c : Invocation Operand) : storedAlone m i c = storedAlone m j c := by
  simp only [storedAlone, lead, h]

/-- Chained calls put what each of them writes over properties, one call behind the other. -/
inductive Overlays (s : Signature) : (before : List (Invocation Operand)) → Properties →
    List (Invocation Operand) → Properties → Prop
  | nil {before : List (Invocation Operand)} {props : Properties} : Overlays s before props [] props
  | cons {before : List (Invocation Operand)} {c : Invocation Operand}
    {cs : List (Invocation Operand)} {props after : Properties} {es : List (String × String)}
    (hw : writes s before c = .ok (.putAll .empty es))
    (h : Overlays s (before ++ [c]) (props.putAll es) cs after) :
    Overlays s before props (c :: cs) after

namespace Overlays

variable {s : Signature} {before cs : List (Invocation Operand)} {props after : Properties}

theorem exists_writes (h : Overlays s before props cs after) {i : Nat} {c : Invocation Operand}
    (hi : cs[i]? = some c) : ∃ own, writes s (before ++ cs.take i) c = .ok own := by
  induction h generalizing i with
  | nil => cases hi
  | cons hw _ ih =>
    cases i with
    | zero =>
      cases hi
      exact ⟨_, by rw [List.take_zero, List.append_nil]; exact hw⟩
    | succ i =>
      obtain ⟨own, hown⟩ := ih hi
      exact ⟨own, by rwa [List.append_assoc] at hown⟩

/-- A region into which no call writes is left as it is. -/
theorem filter_eq (keep : String → Bool) (h : Overlays s before props cs after)
    (hno : ∀ j c own, cs[j]? = some c → writes s (before ++ cs.take j) c = .ok own →
      ∀ key, keep key = true → own.get? key = none) :
    after.entries.filter (fun e => keep e.1) = props.entries.filter fun e => keep e.1 := by
  induction h with
  | nil => rfl
  | @cons before c cs props after es hw _ ih =>
    rw [ih fun j b own hj hown => hno (j + 1) b own hj (by rwa [List.append_assoc] at hown)]
    refine Properties.filter_putAll_of_not_mem (fun e he => ?_) props
    have hput := Properties.isSome_get?_putAll he
    rw [Bool.eq_false_iff]
    intro hk
    rw [hno 0 c _ rfl (by rwa [List.take_zero, List.append_nil]) e.1 hk] at hput
    cases hput

theorem get?_eq {key : String} (h : Overlays s before props cs after)
    (hno : ∀ j c own, cs[j]? = some c → writes s (before ++ cs.take j) c = .ok own →
      own.get? key = none) : after.get? key = props.get? key := by
  obtain ⟨keep, hkeep⟩ : ∃ keep : String → Bool, ∀ k, keep k = true ↔ k = key :=
    ⟨fun k => decide (k = key), fun k => decide_eq_true_iff⟩
  have hfilter := h.filter_eq keep fun j c own hj hown k hk => by
    rw [(hkeep k).mp hk]
    exact hno j c own hj hown
  rw [get?_of_filter hfilter ((hkeep key).mpr rfl), lookup_filter ((hkeep key).mpr rfl)]
  rfl

/-- What a call writes is there in the end, if no later call writes it. -/
theorem get?_of_last (h : Overlays s before props cs after) {i : Nat} {c : Invocation Operand}
    {own : Properties} (hi : cs[i]? = some c) (hown : writes s (before ++ cs.take i) c = .ok own)
    {key value : String} (hk : own.get? key = some value)
    (hlast : ∀ j b other, i < j → cs[j]? = some b → writes s (before ++ cs.take j) b = .ok other →
      other.get? key = none) : after.get? key = some value := by
  induction h generalizing i with
  | nil => cases hi
  | @cons before b cs props after es hw hrest ih =>
    cases i with
    | zero =>
      cases hi
      rw [List.take_zero, List.append_nil, hw] at hown
      cases hown
      rw [hrest.get?_eq fun j b other hj hother =>
        hlast (j + 1) b other (Nat.zero_lt_succ j) hj (by rwa [List.append_assoc] at hother)]
      exact Properties.get?_putAll_of_some hk props
    | succ i =>
      refine ih hi (by rwa [List.append_assoc]) fun j b other hij hj hother => ?_
      exact hlast (j + 1) b other (Nat.succ_lt_succ hij) hj (by rwa [List.append_assoc] at hother)

/-- A region into which one call alone writes holds what that call writes. -/
theorem filter_of_only {keep : String → Bool} (h : Overlays s before props cs after)
    (hp : props.entries.filter (fun e => keep e.1) = []) {i : Nat} {c : Invocation Operand}
    {own : Properties} (hi : cs[i]? = some c) (hown : writes s (before ++ cs.take i) c = .ok own)
    (honly : ∀ j b other, j ≠ i → cs[j]? = some b → writes s (before ++ cs.take j) b = .ok other →
      ∀ key, keep key = true → other.get? key = none) :
    after.entries.filter (fun e => keep e.1) = own.entries.filter fun e => keep e.1 := by
  induction h generalizing i with
  | nil => cases hi
  | @cons before b cs props after es hw hrest ih =>
    cases i with
    | zero =>
      cases hi
      rw [List.take_zero, List.append_nil, hw] at hown
      cases hown
      rw [hrest.filter_eq keep fun j b other hj hother =>
        honly (j + 1) b other (Nat.succ_ne_zero j) hj (by rwa [List.append_assoc] at hother)]
      exact Properties.filter_putAll_of_empty hp es
    | succ i =>
      have hhead : (props.putAll es).entries.filter (fun e => keep e.1) = [] := by
        rw [Overlays.filter_eq keep (.cons hw .nil) fun j d other hj hother => ?_, hp]
        cases j with
        | zero => exact honly 0 d other (Nat.succ_ne_zero i).symm hj hother
        | succ j => cases hj
      refine ih hhead hi (by rwa [List.append_assoc]) fun j b other hij hj hother => ?_
      exact honly (j + 1) b other (fun he => hij (Nat.succ.inj he)) hj
        (by rwa [List.append_assoc] at hother)

end Overlays

end Build

/-! ### Modifiers -/

/-- A modifier whose calls put what they store by themselves, in its region or because its guard asks for
it. -/
structure Modifier.Steady (m : Modifier) : Prop where
  method_ne : m.method ≠ childrenMethod
  each_of_flag : m.flag = true → m.each = none
  puts : ∀ {c : Invocation Operand} {d after : Draft}, applyModifier m c d = .ok after →
    ∃ es, storedAlone m (d.count m.method) c = .ok (.putAll .empty es) ∧
      after.props = d.props.putAll es
  places : ∀ {i : Nat} {c : Invocation Operand} {own : Properties}, storedAlone m i c = .ok own →
    ∀ e ∈ own.entries, (inRegion m.region e.1 = true ∧ ∃ tail, e.1 = lead m i ++ tail) ∨
      e ∈ m.guard.elim [] Guard.demand

theorem Param.store_of_isPlaced {p : Param} (hp : p.isPlaced = true) {v : Option Value}
    {props after : Properties} {lead : String} (h : p.store v props lead = .ok after)
    (other : Properties) : p.store v other lead = .ok (other.putAll (p.entries v lead)) := by
  obtain ⟨a, ha⟩ : ∃ a, p.store v other lead = .ok a := by
    unfold store at h ⊢
    split at h
    · split at h
      · exact ⟨_, rfl⟩
      · exact ⟨_, rfl⟩
      · split_ifs at h with ht
        exact ⟨other, if_neg ht⟩
    · next hk => simp [isPlaced, hk] at hp
    · exact ⟨_, rfl⟩
  rw [ha, store_eq_ok hp ha]

namespace Build

theorem storeAll_of_isPlaced {lead : String} {values : List (Param × Option Value)}
    (hp : ∀ x ∈ values, x.1.isPlaced = true) {props after : Properties}
    (h : storeAll lead values props = .ok after) (other : Properties) :
    storeAll lead values other = .ok (other.putAll (values.flatMap fun x => x.1.entries x.2 lead)) := by
  induction values generalizing props other with
  | nil => rfl
  | cons x values ih =>
    obtain ⟨mid, hmid, h⟩ := exists_of_bind_eq_ok h
    rw [storeAll, Param.store_of_isPlaced (hp x List.mem_cons_self) hmid, ok_bind,
      ih (fun y hy => hp y (List.mem_cons_of_mem x hy)) h, List.flatMap_cons,
      Properties.putAll_append]

end Build

namespace Modifier.Restorable

variable {m : Modifier} (hr : m.Restorable)

include hr

theorem exists_eq_append {p : Param} (hp : p ∈ m.params) {i : Nat} {key : String}
    (h : inRegion (p.region (lead m i)) key = true) : ∃ tail, key = lead m i ++ tail := by
  cases he : m.each with
  | none => exact ⟨key, by simp [lead, he]⟩
  | some each =>
    rw [hr.region_of_each he hp] at h
    exact ⟨p.propText, by simpa [inRegion, KeyPattern.covers] using h⟩

/-- What a call stores by itself are the entries of its values, and what the guard asks for. -/
theorem exists_of_storedAlone {i : Nat} {c : Invocation Operand} {own : Properties}
    (h : storedAlone m i c = .ok own) : ∃ values, bound m c = .ok values ∧
      own = .putAll .empty ((values.flatMap fun x => x.1.entries x.2 (lead m i)) ++
        m.guard.elim [] Guard.demand) := by
  obtain ⟨values, hvalues, h⟩ := exists_of_bind_eq_ok h
  obtain ⟨props, hprops, h⟩ := exists_of_bind_eq_ok h
  cases h
  refine ⟨values, hvalues, ?_⟩
  rw [hr.apply_guard, Properties.putAll_append,
    storeAll_eq_ok (fun x hx => hr.placed x.1 (fst_mem_of_bound hvalues x hx)) hprops]

theorem steady : m.Steady where
  method_ne := hr.method_ne
  each_of_flag := hr.each_of_flag
  puts {c d after} h := by
    obtain ⟨values, props, hb, hstore, hguard, -, -⟩ := applyModifier_eq_ok hr.each_of_flag h
    have hplaced : ∀ x ∈ values, x.1.isPlaced = true :=
      fun x hx => hr.placed x.1 (fst_mem_of_bound hb x hx)
    refine ⟨(values.flatMap fun x => x.1.entries x.2 (lead m (d.count m.method))) ++
      m.guard.elim [] Guard.demand, ?_, ?_⟩
    · rw [storedAlone, hb, ok_bind, storeAll_of_isPlaced hplaced hstore, ok_bind, hr.apply_guard,
        Properties.putAll_append]
      rfl
    · rw [hguard, hr.apply_guard, storeAll_eq_ok hplaced hstore, Properties.putAll_append]
  places h e he := by
    obtain ⟨values, hb, rfl⟩ := hr.exists_of_storedAlone h
    rcases List.mem_append.mp
      (Properties.exists_mem_of_get?_putAll (Properties.get?_eq_some_iff.mpr he)) with he | he
    · obtain ⟨x, hx, he⟩ := List.mem_flatMap.mp he
      have hp := fst_mem_of_bound hb x hx
      have hin := Param.inRegion_of_mem_entries (hr.placed x.1 hp) he
      exact .inl ⟨hr.inRegion_of_lead hp hin, hr.exists_eq_append hp hin⟩
    · exact .inr he

end Modifier.Restorable

/-! ### Chains -/

namespace Build

/-- Whether a draft has counted the calls of each modifier with a collection. -/
def Counts (s : Signature) (before : List (Invocation Operand)) (d : Draft) : Prop :=
  ∀ m ∈ s.modifiers, m.each ≠ none →
    d.count m.method = before.countP fun b => b.name = m.method

theorem counts_nil (s : Signature) (props : Properties) : Counts s [] ⟨props, []⟩ :=
  fun _ _ _ => rfl

section

variable {s : Signature} (hs : ∀ m ∈ s.modifiers, m.Steady)
  {before : List (Invocation Operand)} {c : Invocation Operand} {d : Draft}

include hs

theorem Counts.snoc_children (h : Counts s before d) (hc : c.name = childrenMethod) :
    Counts s (before ++ [c]) d := by
  intro m hm he
  have hne : c.name ≠ m.method := fun h => (hs m hm).method_ne (h.symm.trans hc)
  rw [h m hm he, List.countP_append, List.countP_singleton, if_neg (by simpa using hne)]
  rfl

theorem Counts.snoc (hn : (s.modifiers.map (·.method)).Nodup) (h : Counts s before d)
    {m : Modifier} (hm : m ∈ s.modifiers) (hc : m.method = c.name) {after : Draft}
    (ha : applyModifier m c d = .ok after) : Counts s (before ++ [c]) after := by
  obtain ⟨-, -, -, -, -, hother, hown⟩ := applyModifier_eq_ok (hs m hm).each_of_flag ha
  intro n hmem he
  rw [List.countP_append, List.countP_singleton]
  by_cases hname : n.method = m.method
  · obtain rfl : n = m := List.inj_on_of_nodup_map hn hmem hm hname
    rw [hown he, h n hmem he, if_pos (by simpa using hc.symm)]
  · rw [hother n.method hname, h n hmem he, if_neg (by simpa [← hc] using Ne.symm hname)]
    rfl

/-- Applying chained calls puts what each of them writes. -/
theorem overlays_applyChain (hn : (s.modifiers.map (·.method)).Nodup)
    {cs : List (Invocation Operand)} {r : Draft × List Element} (hd : Counts s before d)
    (h : (applyChain s cs d).outcome = .ok r) : Overlays s before d.props cs r.1.props := by
  induction cs generalizing before d r with
  | nil =>
    cases h
    exact .nil
  | cons c cs ih =>
    unfold applyChain at h
    split_ifs at h with hc
    · rw [Logged.outcome_bind] at h
      obtain ⟨es, -, h⟩ := exists_of_bind_eq_ok h
      rw [Logged.outcome_bind] at h
      obtain ⟨r', hr, h⟩ := exists_of_bind_eq_ok h
      cases h
      have hnone : writes s before c = .ok (.putAll .empty []) := if_pos hc
      have hrest := ih (hd.snoc_children hs hc) hr
      exact .cons hnone hrest
    · simp only [Logged.outcome_bind, Logged.outcome_ofExcept] at h
      obtain ⟨m, hm, h⟩ := exists_of_bind_eq_ok h
      obtain ⟨mid, hmid, h⟩ := exists_of_bind_eq_ok h
      obtain ⟨hmem, hname⟩ := mem_of_findModifier hm
      obtain ⟨es, halone, hprops⟩ := (hs m hmem).puts hmid
      have hindex : storedAlone m (before.countP fun b => b.name = c.name) c =
          storedAlone m (d.count m.method) c := by
        by_cases he : m.each = none
        · exact storedAlone_of_no_each he _ _ c
        · rw [hd m hmem he, hname]
      have hown : writes s before c = .ok (.putAll .empty es) := by
        rw [writes, if_neg hc, hm, ok_bind, hindex, halone]
      exact .cons hown (hprops ▸ ih (hd.snoc hs hn hmem hname hmid) h)

end

end Build

end FluentPlan
