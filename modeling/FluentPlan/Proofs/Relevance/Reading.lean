import FluentPlan.Proofs.Assembly.Outcome
import FluentPlan.Proofs.Rebuilding.Reading

/-!
The keys that signatures mention. A parameter, a guard or a modifier reads the properties of an
element at the keys that it mentions and nowhere else, so properties that agree there read the same,
whatever else they hold and in whatever order.
-/

namespace FluentPlan

/-! ### Mentioned keys -/

namespace Guard

mutual

/-- The keys that a guard asks about. -/
def keys : Guard → List String
  | equals k _ => [k]
  | isIn k _ => [k]
  | not g => g.keys
  | all gs => keysAll gs

def keysAll : List Guard → List String
  | [] => []
  | g :: gs => g.keys ++ keysAll gs

end

/-- The keys that a guard asks about, and the one that it reports. -/
def mentions (g : Guard) : List KeyPattern := (g.key :: g.keys).map .exact

end Guard

/-- The keys of a parameter behind a lead: its property, what stands below the property of a
collection, the address of a host, and the offset of a duration. -/
def Param.mentions (p : Param) (lead : String) : List KeyPattern :=
  p.prop.toList.map (fun key => .exact (lead ++ key)) ++
    match p.kind with
    | .textList => [.below (lead ++ p.propText ++ "/")]
    | .url => [lead ++ p.propText, lead ++ domainKey, lead ++ protocolKey, lead ++ portKey].map .exact
    | .holdDuration _ offset => [.exact (lead ++ offset)]
    | _ => []

theorem KeyPattern.exists_eq_append {lead key : String} (h : (below lead).covers key = true) :
    ∃ tail, key = lead ++ tail := by
  rw [covers, Param.behind?] at h
  split at h
  · next hp =>
    obtain ⟨tail, ht⟩ := List.isPrefixOf_iff_prefix.mp hp
    exact ⟨String.ofList tail, String.toList_inj.mp (by simp [ht])⟩
  · cases h

/-- What a parameter mentions behind a lead has the lead in front. -/
theorem Param.exists_eq_append {p : Param} {lead key : String}
    (h : inRegion (p.mentions lead) key = true) : ∃ tail, key = lead ++ tail := by
  have hexact {k : String} (hk : (KeyPattern.exact (lead ++ k)).covers key = true) :
      ∃ tail, key = lead ++ tail := ⟨k, of_decide_eq_true hk⟩
  obtain ⟨a, ha, hc⟩ := List.any_eq_true.mp h
  rcases List.mem_append.mp ha with ha | ha
  · obtain ⟨k, -, rfl⟩ := List.mem_map.mp ha
    exact hexact hc
  · split at ha
    · rw [List.mem_singleton.mp ha] at hc
      obtain ⟨tail, rfl⟩ := KeyPattern.exists_eq_append hc
      exact ⟨p.propText ++ "/" ++ tail, by simp only [String.append_assoc]⟩
    · obtain ⟨k, hk, rfl⟩ := List.mem_map.mp ha
      simp only [List.mem_cons, List.not_mem_nil, or_false] at hk
      rcases hk with rfl | rfl | rfl | rfl <;> exact hexact hc
    · rw [List.mem_singleton.mp ha] at hc
      exact hexact hc
    · cases ha

/-- The keys of a modifier: those of its guard and of its parameters, and all that stands below its
collection. -/
def Modifier.mentions (m : Modifier) : List KeyPattern :=
  m.guard.toList.flatMap Guard.mentions ++ m.params.flatMap (·.mentions "") ++
    m.each.toList.map fun each => .below (each ++ "/")

/-- The keys of a signature: those of its guard, its parameters and its modifiers. -/
def Signature.mentions (s : Signature) : List KeyPattern :=
  s.guard.toList.flatMap Guard.mentions ++ s.params.flatMap (·.mentions "") ++
    s.modifiers.flatMap Modifier.mentions

/-- Whether a signature for a kind of element mentions a key. -/
def Registry.mentions (r : Registry) (kind key : String) : Bool :=
  (r.forKind kind).any fun s => inRegion s.mentions key

/-! ### Agreement -/

/-- Whether properties are the same at the keys of some patterns. -/
def Properties.AgreeOn (ps : List KeyPattern) (p q : Properties) : Prop :=
  ∀ key, inRegion ps key = true → p.get? key = q.get? key

namespace Properties.AgreeOn

variable {ps qs : List KeyPattern} {p q : Properties}

theorem mono (h : AgreeOn ps p q) (hs : ∀ key, inRegion qs key = true → inRegion ps key = true) :
    AgreeOn qs p q :=
  fun key hk => h key (hs key hk)

theorem of_subset (h : AgreeOn ps p q) (hs : qs ⊆ ps) : AgreeOn qs p q := by
  refine h.mono fun key hk => ?_
  obtain ⟨a, ha, hc⟩ := List.any_eq_true.mp hk
  exact List.any_eq_true.mpr ⟨a, hs ha, hc⟩

theorem get? (h : AgreeOn ps p q) (key : String) (hk : .exact key ∈ ps) :
    p.get? key = q.get? key :=
  h key (List.any_eq_true.mpr ⟨_, hk, decide_eq_true rfl⟩)

/-- The entries at the keys are the same, but for their order. -/
theorem filter_perm (h : AgreeOn ps p q) :
    (p.entries.filter fun e => inRegion ps e.1).Perm (q.entries.filter fun e => inRegion ps e.1) := by
  have hnodup (p : Properties) : (p.entries.filter fun e => inRegion ps e.1).Nodup :=
    (List.Nodup.of_map _ p.nodup).filter _
  refine (List.perm_ext_iff_of_nodup (hnodup p) (hnodup q)).mpr fun ⟨key, value⟩ => ?_
  rw [List.mem_filter, List.mem_filter]
  refine and_congr_left fun hk => ?_
  rw [← get?_eq_some_iff, ← get?_eq_some_iff, h key hk]

end Properties.AgreeOn

/-! ### Collections -/

/-- Outcomes that are the same items in some order each, or the same failure. -/
inductive SameItems {α : Type} : Except Failure (List α) → Except Failure (List α) → Prop
  | ok {xs ys : List α} (h : xs.Perm ys) : SameItems (.ok xs) (.ok ys)
  | error (f : Failure) : SameItems (.error f) (.error f)

/-- What is found in a list by a reading that finds something in some of its items. -/
def findings {α β : Type} (f : α → Except Failure (Option β)) (xs : List α) :
    Except Failure (List β) :=
  (xs.mapM f).map (·.filterMap id)

theorem findings_cons {α β : Type} (f : α → Except Failure (Option β)) (a : α) (xs : List α) :
    findings f (a :: xs) = f a >>= fun b => (findings f xs).map (b.toList ++ ·) := by
  rw [findings, findings, List.mapM_cons]
  cases f a with
  | error x => rfl
  | ok b =>
    cases xs.mapM f with
    | error x => rfl
    | ok bs => cases b <;> rfl

/-- A reading that can fail in one way only finds the same in whatever order. -/
theorem findings_perm {α β : Type} {f : α → Except Failure (Option β)} {err : Failure}
    (hf : ∀ a x, f a = .error x → x = err) {xs ys : List α} (h : xs.Perm ys) :
    SameItems (findings f xs) (findings f ys) := by
  have hok {zs : List α} (hz : ∀ a ∈ zs, ∀ x, f a ≠ .error x) :
      zs.mapM f = .ok (zs.map fun a => (f a).toOption.join) := by
    refine (mapM_eq_ok_iff _ _ _).mpr (List.forall₂_map_right_iff.mpr ?_)
    refine List.forall₂_same.mpr fun a ha => ?_
    cases hfa : f a with
    | error x => exact absurd hfa (hz a ha x)
    | ok b => rfl
  have herror {zs : List α} {a : α} (ha : a ∈ zs) {x : Failure} (hx : f a = .error x) :
      zs.mapM f = .error err := by
    induction zs with
    | nil => cases ha
    | cons z zs ih =>
      rw [List.mapM_cons]
      cases hfz : f z with
      | error y =>
        rw [hf z y hfz]
        rfl
      | ok b =>
        rcases List.mem_cons.mp ha with rfl | ha
        · rw [hx] at hfz
          cases hfz
        · rw [ih ha]
          rfl
  by_cases hall : ∀ a ∈ xs, ∀ x, f a ≠ .error x
  · rw [findings, findings, hok hall, hok fun a ha => hall a (h.mem_iff.mpr ha)]
    exact .ok ((h.map _).filterMap id)
  · push Not at hall
    obtain ⟨a, ha, x, hx⟩ := hall
    rw [findings, findings, herror ha hx, herror (h.mem_iff.mp ha) hx]
    exact .error err

/-- Items in which a reading finds nothing may be left out. -/
theorem findings_filter {α β : Type} {f : α → Except Failure (Option β)} {keep : α → Bool}
    (hk : ∀ a, keep a = false → f a = .ok none) (xs : List α) :
    findings f (xs.filter keep) = findings f xs := by
  induction xs with
  | nil => rfl
  | cons a xs ih =>
    cases h : keep a with
    | true => rw [List.filter_cons_of_pos h, findings_cons, findings_cons, ih]
    | false =>
      rw [List.filter_cons_of_neg (by simp [h]), ih, findings_cons, hk a h, ok_bind]
      cases findings f xs <;> rfl

theorem mergeSort_eq_of_perm {α : Type} {le : α → α → Bool}
    (htrans : ∀ a b c, le a b = true → le b c = true → le a c = true)
    (htotal : ∀ a b, (le a b || le b a) = true)
    (hanti : ∀ a b, le a b = true → le b a = true → a = b) {xs ys : List α} (h : xs.Perm ys) :
    xs.mergeSort le = ys.mergeSort le :=
  ((List.mergeSort_perm xs le).trans (h.trans (List.mergeSort_perm ys le).symm)).eq_of_pairwise
    (fun a b _ _ => hanti a b) (List.pairwise_mergeSort htrans htotal xs)
    (List.pairwise_mergeSort htrans htotal ys)

namespace Param

/-- The index and the text of an entry stored directly under `base`. -/
def entryUnder? (base : String) (e : String × String) : Except Failure (Option (Nat × String)) :=
  match behind? base e.1 with
  | none => .ok none
  | some tail =>
    if Number.isDigits tail then (indexValue tail).map fun n => some (n, e.2) else .ok none

theorem eq_of_indexValue_eq_error {digits : List Char} {x : Failure}
    (h : indexValue digits = .error x) : x = .fault .indexWithoutValue := by
  unfold indexValue at h
  split at h
  · cases h
  · cases h
    rfl

theorem indexed_eq_findings (base : String) (es : List (String × String)) :
    indexed base es = findings (entryUnder? base) es := by
  induction es with
  | nil => rfl
  | cons e es ih =>
    obtain ⟨key, value⟩ := e
    rw [findings_cons, ← ih, indexed, entryUnder?]
    generalize indexed base es = more
    cases behind? base key with
    | none => cases more <;> rfl
    | some tail =>
      dsimp only
      split
      · cases indexValue tail with
        | error x => rfl
        | ok n => cases more <;> rfl
      · cases more <;> rfl

theorem eq_of_entryUnder?_eq_error {base : String} {e : String × String} {x : Failure}
    (h : entryUnder? base e = .error x) : x = .fault .indexWithoutValue := by
  unfold entryUnder? at h
  split at h
  · cases h
  · split at h
    · cases hi : indexValue _ <;> rw [hi] at h <;> cases h
      exact eq_of_indexValue_eq_error hi
    · cases h

/-- The entries under `base` are found whatever stands elsewhere. -/
theorem indexed_congr (base : String) {p q : Properties}
    (h : Properties.AgreeOn [.below base] p q) :
    SameItems (indexed base p.entries) (indexed base q.entries) := by
  have hsame := findings_perm (f := entryUnder? base)
    (fun _ _ => eq_of_entryUnder?_eq_error) h.filter_perm
  rwa [← indexed_eq_findings, ← indexed_eq_findings, indexed_filter, indexed_filter] at hsame

theorem indexedLe_iff {a b : Nat × String} :
    indexedLe a b = true ↔ a.1 < b.1 ∨ (a.1 = b.1 ∧ a.2 ≤ b.2) := by
  simp [indexedLe]

/-- A collection comes out the same from entries in another order. -/
theorem mergeSort_indexedLe_of_perm {xs ys : List (Nat × String)} (h : xs.Perm ys) :
    xs.mergeSort indexedLe = ys.mergeSort indexedLe := by
  refine mergeSort_eq_of_perm (fun a b c hab hbc => ?_) (fun a b => ?_) (fun a b hab hba => ?_) h
  · rw [indexedLe_iff] at hab hbc ⊢
    rcases hab with hab | ⟨hab, hle⟩
    · rcases hbc with hbc | ⟨hbc, -⟩
      · exact .inl (Nat.lt_trans hab hbc)
      · exact .inl (hbc ▸ hab)
    · rcases hbc with hbc | ⟨hbc, hle'⟩
      · exact .inl (hab ▸ hbc)
      · exact .inr ⟨hab.trans hbc, String.le_trans hle hle'⟩
  · rw [Bool.or_eq_true, indexedLe_iff, indexedLe_iff]
    rcases Nat.lt_trichotomy a.1 b.1 with hlt | heq | hgt
    · exact .inl (.inl hlt)
    · exact (String.le_total a.2 b.2).imp (fun hle => .inr ⟨heq, hle⟩)
        fun hle => .inr ⟨heq.symm, hle⟩
    · exact .inr (.inl hgt)
  · rw [indexedLe_iff] at hab hba
    have heq : a.1 = b.1 := by omega
    refine Prod.ext heq (String.le_antisymm ?_ ?_)
    · exact (hab.resolve_left (by omega)).2
    · exact (hba.resolve_left (by omega)).2

/-- A parameter reads at the keys that it mentions. -/
theorem valueOf_congr {p : Param} {lead : String} {e e' : Element} (hn : e.name = e'.name)
    (h : Properties.AgreeOn (p.mentions lead) e.properties e'.properties) :
    p.valueOf e lead = p.valueOf e' lead := by
  obtain ⟨kind, prop, default, required, mandatory⟩ := p
  have hprop : (prop.bind fun key => e.properties.get? (lead ++ key)) =
      prop.bind fun key => e'.properties.get? (lead ++ key) := by
    cases prop with
    | none => rfl
    | some key => exact h.get? _ (by simp [mentions])
  cases kind with
  | displayName => simp only [valueOf, extract, hn]
  | textList =>
    have hsame := indexed_congr (lead ++ prop.getD "None" ++ "/")
      (h.of_subset (by simp [mentions, propText]))
    simp only [valueOf, propText]
    revert hsame
    generalize indexed _ e.properties.entries = x
    generalize indexed _ e'.properties.entries = y
    rintro (⟨hp⟩ | f)
    · rw [ok_bind, ok_bind, mergeSort_indexedLe_of_perm hp]
    · rfl
  | url =>
    have hpath := h.get? (lead ++ prop.getD "None") (by simp [mentions, propText])
    have hdomain := h.get? (lead ++ domainKey) (by simp [mentions])
    have hprotocol := h.get? (lead ++ protocolKey) (by simp [mentions])
    have hport := h.get? (lead ++ portKey) (by simp [mentions])
    simp only [valueOf, extract, propText, hpath, hdomain, hprotocol, hport]
  | holdDuration unit offset =>
    have hoffset := h.get? (lead ++ offset) (by simp [mentions])
    simp only [valueOf, extract, offset?, hprop, hoffset]
  | _ => simp only [valueOf, extract, hprop]

end Param

end FluentPlan
