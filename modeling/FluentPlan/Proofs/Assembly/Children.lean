import FluentPlan.Proofs.Assembly.Outcome

/-!
Plans and their children. What is made of an element is made of the element itself and of its
children that are not left out, each taken by itself.
-/

namespace FluentPlan

/-- The elements that are not left out. -/
def Options.kept (o : Options) (es : List Element) : List Element := es.filter fun e => !o.drops e

theorem Options.kept_cons_of_drops {o : Options} {e : Element} (hd : o.drops e = true)
    (es : List Element) : o.kept (e :: es) = o.kept es :=
  List.filter_cons_of_neg (by simp [hd])

theorem Options.kept_cons {o : Options} {e : Element} (hd : o.drops e = false)
    (es : List Element) : o.kept (e :: es) = e :: o.kept es :=
  List.filter_cons_of_pos (by simp [hd])

theorem Options.kept_filter (o : Options) (p : Element → Bool) (es : List Element) :
    o.kept (es.filter p) = (o.kept es).filter p := List.filter_comm _ _ _

namespace Element

variable {r : Registry} {o : Options} {path : String}

theorem resolveAll_cons_eq_ok_iff {e : Element} (hd : o.drops e = false) {es : List Element} :
    (resolveAll r o path (e :: es)).outcome = .ok () ↔
      (resolve r o (childPath path e) e).outcome = .ok () ∧
        (resolveAll r o path es).outcome = .ok () := by
  constructor
  · intro h
    obtain ⟨he, hes⟩ := resolveAll_cons_eq_ok h
    exact ⟨he hd, hes⟩
  · rintro ⟨he, hes⟩
    exact resolveAll_cons_of_resolve hd he hes

theorem resolveAll_eq_ok_iff {es : List Element} :
    (resolveAll r o path es).outcome = .ok () ↔
      ∀ e ∈ o.kept es, (resolve r o (childPath path e) e).outcome = .ok () := by
  induction es with
  | nil => exact ⟨fun _ => nofun, fun _ => rfl⟩
  | cons e es ih =>
    cases hd : o.drops e with
    | true => rw [resolveAll_cons_of_drops hd, Options.kept_cons_of_drops hd, ih]
    | false =>
      rw [Options.kept_cons hd, List.forall_mem_cons, resolveAll_cons_eq_ok_iff hd, ih]

theorem resolve_eq_ok_iff {e : Element} :
    (resolve r o path e).outcome = .ok () ↔
      (∃ s, r.resolve? e = .ok s) ∧ (resolveAll r o path e.children).outcome = .ok () := by
  cases e
  constructor
  · intro h
    obtain ⟨s, hs, hc⟩ := resolve_eq_ok h
    exact ⟨⟨s, hs⟩, hc⟩
  · rintro ⟨⟨s, hs⟩, hc⟩
    exact resolve_of_resolve? hs hc

theorem assembleAll_cons_eq_ok_iff {s : Signature} {e : Element} (hd : o.drops e = false)
    {es : List Element} {calls : List Call} :
    (assembleAll r o s path (e :: es)).outcome = .ok calls ↔
      s.acceptsChildren = true ∧ ∃ c cs, (assemble r o (childPath path e) e).outcome = .ok c ∧
        (assembleAll r o s path es).outcome = .ok cs ∧ calls = c :: cs := by
  constructor
  · intro h
    rcases assembleAll_cons_eq_ok h with ⟨hd', -⟩ | ⟨-, ha, hcalls⟩
    · rw [hd] at hd'
      cases hd'
    · exact ⟨ha, hcalls⟩
  · rintro ⟨ha, c, cs, hc, hcs, rfl⟩
    exact assembleAll_cons_of_assemble hd ha hc hcs

/-- The calls of children are one for each that is not left out, if there may be any. -/
theorem assembleAll_eq_ok_iff {s : Signature} {es : List Element} {calls : List Call} :
    (assembleAll r o s path es).outcome = .ok calls ↔
      (o.kept es = [] ∨ s.acceptsChildren = true) ∧
        List.Forall₂ (fun e c => (assemble r o (childPath path e) e).outcome = .ok c) (o.kept es)
          calls := by
  induction es generalizing calls with
  | nil =>
    constructor
    · intro h
      cases h
      exact ⟨.inl rfl, .nil⟩
    · rintro ⟨-, h⟩
      cases h
      rfl
  | cons e es ih =>
    cases hd : o.drops e with
    | true => rw [assembleAll_cons_of_drops hd, Options.kept_cons_of_drops hd, ih]
    | false =>
      rw [Options.kept_cons hd, assembleAll_cons_eq_ok_iff hd]
      constructor
      · rintro ⟨ha, c, cs, hc, hcs, rfl⟩
        exact ⟨.inr ha, .cons hc (ih.mp hcs).2⟩
      · rintro ⟨hno | ha, h⟩
        · cases hno
        · obtain ⟨c, cs, hc, hcs, rfl⟩ := List.forall₂_cons_left_iff.mp h
          exact ⟨ha, c, cs, hc, ih.mpr ⟨.inr ha, hcs⟩, rfl⟩

theorem assemble_eq_ok_iff {e : Element} {c : Call} :
    (assemble r o path e).outcome = .ok c ↔ ∃ s, r.resolve? e = .ok s ∧
      ((ownCall o s e = .ok none ∧ c = .empty s.category) ∨
        ∃ head chain calls, ownCall o s e = .ok (some (head, chain)) ∧
          (assembleAll r o s path e.children).outcome = .ok calls ∧
          c = withChildren o s head chain calls) := by
  cases e
  constructor
  · intro h
    exact assemble_eq_ok h
  · rintro ⟨s, hs, ⟨ho, rfl⟩ | ⟨head, chain, calls, ho, hc, rfl⟩⟩
    · exact assemble_of_ownCall_none hs ho
    · exact assemble_of_ownCall hs ho hc

/-- The category of an element is that of its signature. -/
def category? (r : Registry) (e : Element) : Option String :=
  (r.resolve? e).toOption.map (·.category)

theorem category?_of_resolve? {e : Element} {s : Signature} (hs : r.resolve? e = .ok s) :
    e.category? r = some s.category := by
  rw [category?, hs]
  rfl

theorem category?_of_assemble {e : Element} {c : Call}
    (h : (assemble r o path e).outcome = .ok c) : e.category? r = some c.head.category := by
  obtain ⟨s, hs, ⟨-, rfl⟩ | ⟨head, chain, calls, ho, -, rfl⟩⟩ := assemble_eq_ok_iff.mp h
  · exact category?_of_resolve? hs
  · obtain ⟨values, -, ⟨-, -, hnone⟩ | ⟨-, calls, -, hsome⟩⟩ := ownCall_eq_ok ho
    · cases hnone
    · cases hsome
      rw [category?_of_resolve? hs, head_withChildren]
      rfl

end Element

end FluentPlan
