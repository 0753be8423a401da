import FluentPlan.Proofs.Assembly.Outcome

/-!
Values that cannot be read. An element's own call fails with a problem only if some raw text that its
signature reads is no value of the parameter that it stands for; then no call is made of the element.
Whether a value is the default, and which entries a collection has, is never a problem.
-/

namespace FluentPlan

/-! ### Problems of composed computations -/

/-- A computation that never fails with a problem. -/
def Unreported {α : Type} (x : Except Failure α) : Prop := ∀ p path, x ≠ .error (.problem p path)

namespace Unreported

variable {α β : Type}

theorem ok (a : α) : Unreported (.ok a : Except Failure α) := nofun

theorem fault (f : Fault) : Unreported (.error (.fault f) : Except Failure α) := nofun

theorem bind {x : Except Failure α} {f : α → Except Failure β} (hx : Unreported x)
    (hf : ∀ a, x = .ok a → Unreported (f a)) : Unreported (x >>= f) := by
  cases x with
  | error e =>
    intro p path h
    cases h
    exact hx p path rfl
  | ok a => exact hf a rfl

theorem map {x : Except Failure α} (hx : Unreported x) (f : α → β) : Unreported (x.map f) := by
  cases x with
  | error e =>
    intro p path h
    cases h
    exact hx p path rfl
  | ok a => exact ok (f a)

theorem mapM {f : α → Except Failure β} {xs : List α} (h : ∀ x ∈ xs, Unreported (f x)) :
    Unreported (xs.mapM f) := by
  induction xs with
  | nil => exact ok _
  | cons x xs ih =>
    rw [List.mapM_cons]
    refine bind (h x List.mem_cons_self) fun y _ => ?_
    exact bind (ih fun z hz => h z (List.mem_cons_of_mem x hz)) fun _ _ => ok _

theorem forM {f : α → Except Failure Unit} {xs : List α} (h : ∀ x ∈ xs, Unreported (f x)) :
    Unreported (xs.forM f) := by
  induction xs with
  | nil => exact ok ()
  | cons x xs ih =>
    change Unreported (f x >>= fun _ => xs.forM f)
    exact bind (h x List.mem_cons_self) fun _ _ => ih fun z hz => h z (List.mem_cons_of_mem x hz)

end Unreported

theorem error_of_bind_eq_error {α β : Type} {x : Except Failure α} {f : α → Except Failure β}
    {e : Failure} (h : x >>= f = .error e) : x = .error e ∨ ∃ a, x = .ok a ∧ f a = .error e := by
  cases x with
  | error e' =>
    cases h
    exact .inl rfl
  | ok a => exact .inr ⟨a, rfl, h⟩

theorem exists_of_mapM_eq_error {α β : Type} {f : α → Except Failure β} {xs : List α} {e : Failure}
    (h : xs.mapM f = .error e) : ∃ x ∈ xs, f x = .error e := by
  induction xs with
  | nil => cases h
  | cons x xs ih =>
    rw [List.mapM_cons] at h
    rcases error_of_bind_eq_error h with h | ⟨y, -, h⟩
    · exact ⟨x, List.mem_cons_self, h⟩
    · rcases error_of_bind_eq_error h with h | ⟨ys, -, h⟩
      · obtain ⟨z, hz, hf⟩ := ih h
        exact ⟨z, List.mem_cons_of_mem x hz, hf⟩
      · cases h

/-! ### Parameters -/

namespace Param

/-- The raw text of a parameter is no value of its kind. -/
def Refuses (p : Param) (e : Element) (lead : String) : Prop :=
  ∃ raw why, p.extract e lead = some raw ∧
    p.parse (some raw) = .error (.report (.value raw p.prop why))

theorem refuses_of_parse {p : Param} {e : Element} {lead : String} {q : Problem}
    {path : Option String} (h : p.parse (p.extract e lead) = .error (.problem q path)) :
    path = none ∧ p.Refuses e lead := by
  cases hx : p.extract e lead with
  | none =>
    rw [hx] at h
    cases h
  | some raw =>
    rw [hx] at h
    have hparse := h
    simp only [parse] at h
    split_ifs at h
    split at h
    · cases h
    · next m hm =>
      cases m with
      | fault f => cases h
      | problem why =>
        cases h
        exact ⟨rfl, raw, why, hx, hparse⟩

theorem unreported_indexed (base : String) (es : List (String × String)) :
    Unreported (indexed base es) := by
  have hvalue (digits : List Char) : Unreported (indexValue digits) := by
    unfold indexValue
    split
    · exact .ok _
    · exact .fault _
  induction es with
  | nil => exact .ok _
  | cons e es ih =>
    obtain ⟨key, value⟩ := e
    unfold indexed
    split
    · split_ifs
      · exact (hvalue _).bind fun n _ => ih.bind fun more _ => .ok _
      · exact ih
    · exact ih

theorem unreported_offset? (unit : TimeUnit) (key : String) (props : Properties) (lead : String) :
    Unreported (offset? unit key props lead) := by
  simp only [offset?]
  split
  · exact .ok _
  · split
    · exact .ok _
    · exact .fault _

theorem unreported_moveBy (v : Option Value) (d : Option Int) : Unreported (moveBy v d) := by
  unfold moveBy
  split
  · split_ifs
    · exact .ok _
    · exact .fault _
  · exact .ok _

/-- A value of an element is a problem only for its raw text. -/
theorem refuses_of_valueOf {p : Param} {e : Element} {lead : String} {q : Problem}
    {path : Option String} (h : p.valueOf e lead = .error (.problem q path)) :
    path = none ∧ p.Refuses e lead := by
  unfold valueOf at h
  split at h
  · have hun := (unreported_indexed (lead ++ p.propText ++ "/") e.properties.entries).bind
      fun entries _ => .ok (some (Value.texts ((entries.mergeSort indexedLe).map Prod.snd)))
    exact absurd h (hun q path)
  · next unit key hk =>
    rcases error_of_bind_eq_error h with h | ⟨v, -, h⟩
    · exact refuses_of_parse h
    · have hun := (unreported_offset? unit key e.properties lead).bind
        fun d _ => unreported_moveBy v (d.map fun x => -x)
      exact absurd h (hun q path)
  · exact refuses_of_parse h

/-- There is no value where the raw text is none. -/
theorem not_refuses_of_valueOf {p : Param} {e : Element} {lead : String} {v : Option Value}
    (h : p.valueOf e lead = .ok v) : ¬ p.Refuses e lead := by
  rintro ⟨raw, why, hx, hparse⟩
  unfold valueOf at h
  split at h
  · next hk =>
    rw [extract, hk] at hx
    cases hx
  · rw [hx, hparse] at h
    cases h
  · rw [hx, hparse] at h
    cases h

theorem unreported_isDefault? (p : Param) (v : Option Value) : Unreported (p.isDefault? v) := by
  unfold isDefault?
  split
  · exact .ok _
  · exact .ok _
  · split
    · split
      · exact .ok _
      · split
        · exact .ok _
        · exact .fault _
    · split_ifs
      · exact .ok _
      · split
        · exact .ok _
        · exact .fault _
    · split_ifs
      · exact .ok _
      · split
        · exact .ok _
        · exact .fault _
    · exact .ok _
    · split <;> exact .ok _
    · split <;> exact .ok _
    · split <;> exact .ok _

end Param

/-! ### Signatures -/

namespace Signature

/-- An element without effect: the signature has no call for it if its values are all defaults, and they
are. -/
def IsIdle (s : Signature) (e : Element) : Prop :=
  s.emptyWhenDefault = true ∧
    ∃ values, Element.scalarValues s e = .ok values ∧ Element.allDefault values = .ok true

/-- What a signature reads of an element: its own parameters and, unless the element has no effect, those
of the modifiers whose guards accept it, once or for every entry of the modifier's collection. -/
inductive Reads (s : Signature) (e : Element) : Param → String → Prop
  | scalar {p : Param} (hp : p ∈ s.scalarParams) : Reads s e p ""
  | single {m : Modifier} {p : Param} (hi : ¬ s.IsIdle e) (hm : m ∈ s.modifiers)
    (hg : m.guard.any (fun g => !g.accepts e.properties) = false) (he : m.each = none)
    (hp : p ∈ m.params) : Reads s e p ""
  | entry {m : Modifier} {p : Param} {each : String} {found : List Nat} {i : Nat}
    (hi : ¬ s.IsIdle e) (hm : m ∈ s.modifiers)
    (hg : m.guard.any (fun g => !g.accepts e.properties) = false) (he : m.each = some each)
    (hf : Element.indices e.properties each "" = .ok found) (hx : i ∈ found) (hp : p ∈ m.params) :
    Reads s e p (Element.entryLead each i)

end Signature

namespace Element

theorem refuses_of_valuesOf {e : Element} {lead : String} {ps : List Param} {q : Problem}
    {path : Option String} (h : valuesOf e lead ps = .error (.problem q path)) :
    path = none ∧ ∃ p ∈ ps, p.Refuses e lead := by
  obtain ⟨p, hp, h⟩ := exists_of_mapM_eq_error h
  rcases error_of_bind_eq_error h with h | ⟨v, -, h⟩
  · obtain ⟨hpath, hr⟩ := Param.refuses_of_valueOf h
    exact ⟨hpath, p, hp, hr⟩
  · cases h

theorem not_refuses_of_valuesOf {e : Element} {lead : String} {ps : List Param}
    {values : List (Param × Option Value)} (h : valuesOf e lead ps = .ok values) {p : Param}
    (hp : p ∈ ps) : ¬ p.Refuses e lead := by
  obtain ⟨x, -, -, hv⟩ := exists_of_forall₂ (valuesOf_eq_ok h).flip hp
  exact Param.not_refuses_of_valueOf hv

theorem unreported_allDefault (values : List (Param × Option Value)) :
    Unreported (allDefault values) := by
  induction values with
  | nil => exact .ok true
  | cons x values ih =>
    unfold allDefault
    refine (Param.unreported_isDefault? x.1 x.2).bind fun b _ => ?_
    split
    · exact ih
    · exact .ok false

theorem unreported_indices (props : Properties) (each lead : String) :
    Unreported (indices props each lead) := by
  refine Unreported.bind (Unreported.mapM fun key _ => ?_) fun _ _ => .ok _
  unfold indexIn?
  split
  · exact .ok _
  · simp only
    split
    · refine Unreported.map ?_ _
      unfold Param.indexValue
      split
      · exact .ok _
      · exact .fault _
    · exact .ok _

/-- The calls of a modifier are a problem only for a raw text that it reads. -/
theorem refuses_of_modifierCalls {s : Signature} {e : Element} (hi : ¬ s.IsIdle e) {m : Modifier}
    (hm : m ∈ s.modifiers) {q : Problem} {path : Option String}
    (h : modifierCalls e m = .error (.problem q path)) :
    path = none ∧ ∃ p lead, s.Reads e p lead ∧ p.Refuses e lead := by
  unfold modifierCalls at h
  split at h
  · cases h
  · next hg =>
    have hg := Bool.eq_false_iff.mpr hg
    split at h
    · next each he =>
      rcases error_of_bind_eq_error h with h | ⟨found, hf, h⟩
      · exact absurd h (unreported_indices _ _ _ q path)
      · obtain ⟨i, hx, h⟩ := exists_of_mapM_eq_error h
        rcases error_of_bind_eq_error h with h | ⟨values, -, h⟩
        · obtain ⟨hpath, p, hp, hr⟩ := refuses_of_valuesOf h
          exact ⟨hpath, p, _, .entry hi hm hg he hf hx hp, hr⟩
        · cases h
    · next he =>
      rcases error_of_bind_eq_error h with h | ⟨values, -, h⟩
      · obtain ⟨hpath, p, hp, hr⟩ := refuses_of_valuesOf h
        exact ⟨hpath, p, _, .single hi hm hg he hp, hr⟩
      · rcases error_of_bind_eq_error h with h | ⟨b, -, h⟩
        · exact absurd h (unreported_allDefault values q path)
        · cases b
          · simp only [Bool.false_eq_true, if_false] at h
            split at h <;> cases h
          · cases h

/-- An element's own call is a problem only for a raw text that the signature reads. -/
theorem refuses_of_ownCall {o : Options} {s : Signature} {e : Element} {q : Problem}
    {path : Option String} (h : ownCall o s e = .error (.problem q path)) :
    path = none ∧ ∃ p lead, s.Reads e p lead ∧ p.Refuses e lead := by
  unfold ownCall at h
  rcases error_of_bind_eq_error h with h | ⟨values, hv, h⟩
  · obtain ⟨hpath, p, hp, hr⟩ := refuses_of_valuesOf h
    exact ⟨hpath, p, "", .scalar hp, hr⟩
  have hchain (hi : ¬ s.IsIdle e) {k : List (List Call) → Option (CallHead × List Call)}
      (h : (s.modifiers.mapM (modifierCalls e) >>= fun chain => .ok (k chain)) =
        Except.error (Failure.problem q path)) :
      path = none ∧ ∃ p lead, s.Reads e p lead ∧ p.Refuses e lead := by
    rcases error_of_bind_eq_error h with h | ⟨chain, -, h⟩
    · obtain ⟨m, hm, h⟩ := exists_of_mapM_eq_error h
      exact refuses_of_modifierCalls hi hm h
    · cases h
  split at h
  · rcases error_of_bind_eq_error h with h | ⟨b, hb, h⟩
    · exact absurd h (unreported_allDefault values q path)
    · split at h
      · cases h
      · next hnot =>
        refine hchain ?_ h
        rintro ⟨-, values', hv', hd⟩
        cases hv.symm.trans hv'
        cases hb.symm.trans hd
        exact hnot rfl
  · next hd => exact hchain (fun hi => hd hi.1) h

/-- No call is made of an element whose signature reads a text that is no value. -/
theorem not_refuses_of_ownCall {o : Options} {s : Signature} {e : Element}
    {own : Option (CallHead × List Call)} (h : ownCall o s e = .ok own) {p : Param} {lead : String}
    (hr : s.Reads e p lead) : ¬ p.Refuses e lead := by
  obtain ⟨values, hv, hown⟩ := ownCall_eq_ok h
  have hmodifier {m : Modifier} (hi : ¬ s.IsIdle e) (hm : m ∈ s.modifiers) :
      ∃ cs, modifierCalls e m = .ok cs := by
    rcases hown with ⟨he, hd, -⟩ | ⟨-, calls, hcalls, -⟩
    · exact absurd ⟨he, values, hv, hd⟩ hi
    · obtain ⟨cs, -, hcs⟩ := exists_of_forall₂ hcalls.flip hm
      exact ⟨cs, hcs⟩
  cases hr with
  | scalar hp => exact not_refuses_of_valuesOf hv hp
  | single hi hm hg he hp =>
    obtain ⟨cs, hcs⟩ := hmodifier hi hm
    rcases modifierCalls_single he hcs with ⟨hno, -⟩ | ⟨-, found, hvalues, -⟩
    · rw [hg] at hno
      cases hno
    · exact not_refuses_of_valuesOf hvalues hp
  | entry hi hm hg he hf hx hp =>
    obtain ⟨cs, hcs⟩ := hmodifier hi hm
    rcases modifierCalls_each he hcs with ⟨hno, -⟩ | ⟨-, found, hf', hvalues⟩
    · rw [hg] at hno
      cases hno
    · cases hf.symm.trans hf'
      obtain ⟨c, -, values, hv, -⟩ := exists_of_forall₂ hvalues.flip hx
      exact not_refuses_of_valuesOf hv hp

theorem isIdle_of_ownCall {o : Options} {s : Signature} {e : Element}
    (h : ownCall o s e = .ok none) : s.IsIdle e := by
  obtain ⟨values, hv, ⟨he, hd, -⟩ | ⟨-, calls, -, hsome⟩⟩ := ownCall_eq_ok h
  · exact ⟨he, values, hv, hd⟩
  · cases hsome

theorem not_isIdle_of_ownCall {o : Options} {s : Signature} {e : Element}
    {own : CallHead × List Call} (h : ownCall o s e = .ok (some own)) : ¬ s.IsIdle e := by
  rintro ⟨he, values, hv, hd⟩
  obtain ⟨values', hv', ⟨-, -, hnone⟩ | ⟨hnot, -⟩⟩ := ownCall_eq_ok h
  · cases hnone
  · cases hv.symm.trans hv'
    cases hd.symm.trans (hnot he)

end Element

end FluentPlan
