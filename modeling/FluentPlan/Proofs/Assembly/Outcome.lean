import Mathlib.Data.List.Forall2
import Mathlib.Tactic.Common
import FluentPlan.Call.Assemble

/-!
What a successful assembly consists of. One lemma for each step of it says which results of smaller
steps its result is made of; nothing else has to look inside.
-/

namespace FluentPlan

theorem exists_of_bind_eq_ok {α β : Type} {x : Except Failure α} {f : α → Except Failure β} {b : β}
    (h : x >>= f = .ok b) : ∃ a, x = .ok a ∧ f a = .ok b := by
  cases x with
  | error e => cases h
  | ok a => exact ⟨a, rfl, h⟩

theorem ok_bind {α β : Type} (a : α) (f : α → Except Failure β) :
    (Except.ok a >>= f : Except Failure β) = f a := rfl

theorem error_bind {α β : Type} (e : Failure) (f : α → Except Failure β) :
    (Except.error e >>= f : Except Failure β) = .error e := rfl

theorem mapM_eq_ok_iff {α β : Type} (f : α → Except Failure β) (xs : List α) (ys : List β) :
    xs.mapM f = .ok ys ↔ List.Forall₂ (fun x y => f x = .ok y) xs ys := by
  induction xs generalizing ys with
  | nil =>
    constructor
    · intro h
      cases h
      exact .nil
    · intro h
      cases h
      rfl
  | cons x xs ih =>
    rw [List.mapM_cons]
    constructor
    · intro h
      obtain ⟨y, hy, h⟩ := exists_of_bind_eq_ok h
      obtain ⟨zs, hzs, h⟩ := exists_of_bind_eq_ok h
      cases h
      exact .cons hy ((ih zs).mp hzs)
    · intro h
      obtain ⟨y, zs, hy, hzs, rfl⟩ := List.forall₂_cons_left_iff.mp h
      rw [hy, (ih zs).mpr hzs]
      rfl

theorem exists_of_forall₂ {α β : Type} {R : α → β → Prop} {xs : List α} {ys : List β}
    (h : List.Forall₂ R xs ys) {y : β} (hy : y ∈ ys) : ∃ x ∈ xs, R x y := by
  induction h with
  | nil => cases hy
  | cons hr _ ih =>
    rcases List.mem_cons.mp hy with rfl | hy
    · exact ⟨_, List.mem_cons_self, hr⟩
    · obtain ⟨x, hx, hr⟩ := ih hy
      exact ⟨x, List.mem_cons_of_mem _ hx, hr⟩

theorem exists_forall₂ {α β : Type} {R : α → β → Prop} {xs : List α} (h : ∀ x ∈ xs, ∃ y, R x y) :
    ∃ ys, List.Forall₂ R xs ys := by
  induction xs with
  | nil => exact ⟨[], .nil⟩
  | cons x xs ih =>
    obtain ⟨y, hy⟩ := h x List.mem_cons_self
    obtain ⟨ys, hys⟩ := ih fun z hz => h z (List.mem_cons_of_mem x hz)
    exact ⟨y :: ys, .cons hy hys⟩

/-! ### Resolution -/

/-- Whether the required properties are there. -/
def Signature.hasRequired (s : Signature) (props : Properties) : Bool :=
  s.allParams.all fun p => !p.required || p.prop.all fun k => k.isEmpty || props.contains k

/-- An element meets a signature if it has the required properties and the guard accepts it. -/
theorem Signature.unmet?_eq_none_iff (s : Signature) (props : Properties) :
    s.unmet? props = none ↔
      s.hasRequired props = true ∧ s.guard.all (·.accepts props) = true := by
  have hkeys : s.requiredKeys.find? (fun k => !props.contains k) = none ↔
      s.hasRequired props = true := by
    rw [List.find?_eq_none, hasRequired, List.all_eq_true]
    simp only [requiredKeys, Text.mem_sortedDistinct, List.mem_filterMap]
    constructor
    · intro h p hp
      cases hr : p.required with
      | false => rfl
      | true =>
        cases hk : p.prop with
        | none => rfl
        | some k =>
          cases hne : k.isEmpty with
          | true => simp [hne]
          | false =>
            have := h k ⟨p, hp, by simp [hr, hk, hne]⟩
            simpa [hne] using this
    · rintro h k ⟨p, hp, hk⟩
      split_ifs at hk with hr
      obtain ⟨hk, hne⟩ := Option.filter_eq_some_iff.mp hk
      have := h p hp
      simp_all
  unfold unmet?
  cases hf : s.requiredKeys.find? fun k => !props.contains k with
  | some k =>
    have hnot := mt hkeys.mpr (by rw [hf]; exact Option.some_ne_none k)
    simp only [reduceCtorEq, false_iff]
    exact fun h => hnot h.1
  | none =>
    have hall := hkeys.mp hf
    cases hg : s.guard with
    | none => simpa using hall
    | some g =>
      cases ha : g.accepts props with
      | true => simpa [ha] using hall
      | false => simp [ha]

namespace Registry

theorem choose_eq_ok {props : Properties} {reason : Option String} {ss : List Signature}
    {s : Signature} (h : choose props reason ss = .ok s) :
    s ∈ ss ∧ s.unmet? props = none := by
  induction ss generalizing reason with
  | nil => cases h
  | cons t ss ih =>
    unfold choose at h
    cases ht : t.unmet? props with
    | none =>
      rw [ht] at h
      cases h
      exact ⟨List.mem_cons_self, ht⟩
    | some key =>
      rw [ht] at h
      obtain ⟨hm, hu⟩ := ih h
      exact ⟨List.mem_cons_of_mem t hm, hu⟩

/-- Of the signatures for a kind the first one that an element meets is chosen. -/
theorem choose_append {props : Properties} {reason : Option String} {before behind : List Signature}
    {s : Signature} (hb : ∀ t ∈ before, t.unmet? props ≠ none) (hs : s.unmet? props = none) :
    choose props reason (before ++ s :: behind) = .ok s := by
  induction before generalizing reason with
  | nil => simp [choose, hs]
  | cons t before ih =>
    obtain ⟨key, hk⟩ := Option.ne_none_iff_exists'.mp (hb t List.mem_cons_self)
    simp only [List.cons_append, choose, hk]
    exact ih fun u hu => hb u (List.mem_cons_of_mem t hu)

theorem resolve?_of_forKind {r : Registry} {e : Element} {before behind : List Signature}
    {s : Signature} (hk : r.forKind e.kind = before ++ s :: behind)
    (hb : ∀ t ∈ before, t.unmet? e.properties ≠ none) (hs : s.unmet? e.properties = none) :
    r.resolve? e = .ok s := by
  unfold resolve?
  rw [hk]
  split
  · next h => simp at h
  · rw [choose_append hb hs]

/-- The first signature for a kind is chosen for the elements that meet it. -/
theorem resolve?_of_first {r : Registry} {e : Element} {s : Signature} {behind : List Signature}
    (hk : r.forKind e.kind = s :: behind) (hr : s.hasRequired e.properties = true)
    (hg : s.guard.all (·.accepts e.properties) = true) : r.resolve? e = .ok s :=
  resolve?_of_forKind (hk.trans (List.nil_append _).symm) (fun _ ht => absurd ht List.not_mem_nil)
    ((s.unmet?_eq_none_iff e.properties).mpr ⟨hr, hg⟩)

/-- The signature of an element is one for its kind, and the element meets it. -/
theorem resolve?_eq_ok {r : Registry} {e : Element} {s : Signature} (h : r.resolve? e = .ok s) :
    s ∈ r.signatures ∧ s.kind = e.kind ∧ s.unmet? e.properties = none := by
  unfold resolve? at h
  split at h
  · cases h
  · next ss hne =>
    split at h
    · next t ht =>
      cases h
      obtain ⟨hm, hu⟩ := choose_eq_ok ht
      obtain ⟨hm, hk⟩ := mem_forKind.mp hm
      exact ⟨hm, hk, hu⟩
    · cases h
    · split at h <;> cases h

end Registry

namespace Element

/-! ### Values -/

theorem valuesOf_eq_ok {e : Element} {lead : String} {ps : List Param}
    {values : List (Param × Option Value)} (h : valuesOf e lead ps = .ok values) :
    List.Forall₂ (fun p x => x.1 = p ∧ p.valueOf e lead = .ok x.2) ps values := by
  refine ((mapM_eq_ok_iff _ _ _).mp h).imp fun p x hx => ?_
  obtain ⟨v, hv, hx⟩ := exists_of_bind_eq_ok hx
  cases hx
  exact ⟨rfl, hv⟩

theorem mem_of_valuesOf {e : Element} {lead : String} {ps : List Param}
    {values : List (Param × Option Value)} (h : valuesOf e lead ps = .ok values)
    {x : Param × Option Value} (hx : x ∈ values) : x.1 ∈ ps ∧ x.1.valueOf e lead = .ok x.2 := by
  obtain ⟨p, hp, rfl, hv⟩ := exists_of_forall₂ (valuesOf_eq_ok h) hx
  exact ⟨hp, hv⟩

/-! ### Modifiers -/

/-- The calls of a modifier with a collection: one for each of its entries. -/
theorem modifierCalls_each {e : Element} {m : Modifier} {each : String} (hm : m.each = some each)
    {cs : List Call} (h : modifierCalls e m = .ok cs) :
    (m.guard.any (fun g => !g.accepts e.properties) = true ∧ cs = []) ∨
      (m.guard.any (fun g => !g.accepts e.properties) = false ∧
        ∃ found, indices e.properties each "" = .ok found ∧
          List.Forall₂ (fun i c => ∃ values, valuesOf e (entryLead each i) m.params = .ok values ∧
            c = .chained m.method (argsOf values)) found cs) := by
  unfold modifierCalls at h
  split at h
  · next hg =>
    cases h
    exact .inl ⟨hg, rfl⟩
  · next hg =>
    rw [hm] at h
    obtain ⟨found, hf, h⟩ := exists_of_bind_eq_ok h
    refine .inr ⟨by simpa using hg, found, hf, ((mapM_eq_ok_iff _ _ _).mp h).imp fun i c hc => ?_⟩
    obtain ⟨values, hv, hc⟩ := exists_of_bind_eq_ok hc
    cases hc
    exact ⟨values, hv, rfl⟩

/-- The call of a modifier without a collection: none if its values are all defaults. -/
theorem modifierCalls_single {e : Element} {m : Modifier} (hm : m.each = none)
    {cs : List Call} (h : modifierCalls e m = .ok cs) :
    (m.guard.any (fun g => !g.accepts e.properties) = true ∧ cs = []) ∨
      (m.guard.any (fun g => !g.accepts e.properties) = false ∧
        ∃ values, valuesOf e "" m.params = .ok values ∧
          ((allDefault values = .ok true ∧ cs = []) ∨
            (allDefault values = .ok false ∧
              cs = [.chained m.method
                (if m.flag && !(argsOf values).any Arg.isDynamic then [] else argsOf values)]))) := by
  unfold modifierCalls at h
  split at h
  · next hg =>
    cases h
    exact .inl ⟨hg, rfl⟩
  · next hg =>
    rw [hm] at h
    obtain ⟨values, hv, h⟩ := exists_of_bind_eq_ok h
    obtain ⟨b, hb, h⟩ := exists_of_bind_eq_ok h
    refine .inr ⟨by simpa using hg, values, hv, ?_⟩
    cases b with
    | true =>
      cases h
      exact .inl ⟨hb, rfl⟩
    | false =>
      refine .inr ⟨hb, ?_⟩
      simp only [Bool.false_eq_true, if_false] at h
      split at h
      · next hf =>
        cases h
        rw [if_pos hf]
      · next hf =>
        cases h
        rw [if_neg hf]

/-! ### Calls -/

/-- The call of an element: nothing if it has no effect, else a head and the calls chained to it. -/
theorem ownCall_eq_ok {o : Options} {s : Signature} {e : Element}
    {r : Option (CallHead × List Call)} (h : ownCall o s e = .ok r) :
    ∃ values, scalarValues s e = .ok values ∧
      ((s.emptyWhenDefault = true ∧ allDefault values = .ok true ∧ r = none) ∨
        ((s.emptyWhenDefault = true → allDefault values = .ok false) ∧
          ∃ calls, List.Forall₂ (fun m cs => modifierCalls e m = .ok cs) s.modifiers calls ∧
            r = some (ownHead o s e (placeArgs s.params values), calls.flatten))) := by
  unfold ownCall at h
  obtain ⟨values, hv, h⟩ := exists_of_bind_eq_ok h
  refine ⟨values, hv, ?_⟩
  cases hd : s.emptyWhenDefault with
  | false =>
    rw [hd] at h
    obtain ⟨calls, hc, h⟩ := exists_of_bind_eq_ok h
    cases h
    exact .inr ⟨nofun, calls, (mapM_eq_ok_iff _ _ _).mp hc, rfl⟩
  | true =>
    rw [hd] at h
    simp only [if_true] at h
    obtain ⟨b, hb, h⟩ := exists_of_bind_eq_ok h
    cases b with
    | true =>
      cases h
      exact .inl ⟨rfl, hb, rfl⟩
    | false =>
      obtain ⟨calls, hc, h⟩ := exists_of_bind_eq_ok h
      cases h
      exact .inr ⟨fun _ => hb, calls, (mapM_eq_ok_iff _ _ _).mp hc, rfl⟩

/-- A call with the calls of the children that it has. -/
def withChildren (o : Options) (s : Signature) (head : CallHead) (chain calls : List Call) : Call :=
  if calls.isEmpty then ⟨head, [], chain⟩ else attach s head chain (Call.order o.categories calls)

/-- The calls of children stand in a chained call, or as children of the call itself. -/
theorem withChildren_cases (o : Options) (s : Signature) (head : CallHead)
    (chain calls : List Call) :
    (calls = [] ∧ withChildren o s head chain calls = ⟨head, [], chain⟩) ∨
      (calls ≠ [] ∧ withChildren o s head chain calls =
        ⟨head, [], chain ++ [.chainedChildren (Call.order o.categories calls)]⟩) ∨
      (calls ≠ [] ∧ .children ∈ head.args ∧
        withChildren o s head chain calls = ⟨head, Call.order o.categories calls, chain⟩) := by
  cases calls with
  | nil => exact .inl ⟨rfl, rfl⟩
  | cons c cs =>
    simp only [withChildren, List.isEmpty_cons, Bool.false_eq_true, if_false, attach]
    split_ifs with h
    · exact .inr (.inl ⟨by simp, rfl⟩)
    · refine .inr (.inr ⟨by simp, ?_, rfl⟩)
      simp only [Bool.or_eq_true, not_or] at h
      simpa using h.2

@[simp] theorem head_withChildren (o : Options) (s : Signature) (head : CallHead)
    (chain calls : List Call) : (withChildren o s head chain calls).head = head := by
  rcases withChildren_cases o s head chain calls with ⟨-, he⟩ | ⟨-, he⟩ | ⟨-, -, he⟩ <;> rw [he]

theorem mapError_eq_ok {α : Type} {f : Failure → Failure} {x : Except Failure α} {a : α}
    (h : x.mapError f = .ok a) : x = .ok a := by
  cases x with
  | error e => cases h
  | ok b => exact h

/-- The call that reconstructs an element is empty, or made of its own call and of those of its
children. -/
theorem assemble_eq_ok {r : Registry} {o : Options} {path : String} {kind : String}
    {name : Option String} {enabled : Bool} {properties : Properties} {children : List Element}
    {c : Call} (h : (assemble r o path ⟨kind, name, enabled, properties, children⟩).outcome = .ok c) :
    ∃ s, r.resolve? ⟨kind, name, enabled, properties, children⟩ = .ok s ∧
      ((ownCall o s ⟨kind, name, enabled, properties, children⟩ = .ok none ∧
          c = .empty s.category) ∨
        ∃ head chain calls,
          ownCall o s ⟨kind, name, enabled, properties, children⟩ = .ok (some (head, chain)) ∧
          (assembleAll r o s path children).outcome = .ok calls ∧
          c = withChildren o s head chain calls) := by
  unfold assemble at h
  rw [Logged.outcome_mapFailure] at h
  have h := mapError_eq_ok h
  rw [Logged.outcome_bind] at h
  obtain ⟨s, hs, h⟩ := exists_of_bind_eq_ok h
  refine ⟨s, hs, ?_⟩
  rw [Logged.outcome_bind] at h
  obtain ⟨own, ho, h⟩ := exists_of_bind_eq_ok h
  cases own with
  | none =>
    simp only [Logged.outcome_bind] at h
    cases h
    exact .inl ⟨ho, rfl⟩
  | some own =>
    obtain ⟨head, chain⟩ := own
    simp only [Logged.outcome_bind] at h
    obtain ⟨calls, hc, h⟩ := exists_of_bind_eq_ok h
    refine .inr ⟨head, chain, calls, ho, hc, ?_⟩
    unfold withChildren
    split at h
    · next he =>
      cases h
      rw [if_pos he]
    · next he =>
      simp only [Logged.outcome_bind] at h
      cases h
      rw [if_neg he]

theorem assemble_of_ownCall {r : Registry} {o : Options} {path : String} {e : Element}
    {s : Signature} (hs : r.resolve? e = .ok s) {head : CallHead} {chain : List Call}
    (ho : ownCall o s e = .ok (some (head, chain))) {calls : List Call}
    (hc : (assembleAll r o s path e.children).outcome = .ok calls) :
    (assemble r o path e).outcome = .ok (withChildren o s head chain calls) := by
  cases e
  unfold assemble
  simp only [Logged.outcome_mapFailure, Logged.outcome_bind, Logged.outcome_ofExcept, hs, ok_bind, ho,
    hc, withChildren]
  split_ifs <;> rfl

theorem assemble_of_ownCall_none {r : Registry} {o : Options} {path : String} {e : Element}
    {s : Signature} (hs : r.resolve? e = .ok s) (ho : ownCall o s e = .ok none) :
    (assemble r o path e).outcome = .ok (.empty s.category) := by
  cases e
  unfold assemble
  simp only [Logged.outcome_mapFailure, Logged.outcome_bind, Logged.outcome_ofExcept, hs, ok_bind, ho]
  rfl

theorem assembleAll_cons_eq_ok {r : Registry} {o : Options} {s : Signature} {path : String}
    {e : Element} {es : List Element} {calls : List Call}
    (h : (assembleAll r o s path (e :: es)).outcome = .ok calls) :
    (o.drops e = true ∧ (assembleAll r o s path es).outcome = .ok calls) ∨
      (o.drops e = false ∧ s.acceptsChildren = true ∧ ∃ c cs,
        (assemble r o (childPath path e) e).outcome = .ok c ∧
        (assembleAll r o s path es).outcome = .ok cs ∧ calls = c :: cs) := by
  unfold assembleAll at h
  split at h
  · next hd =>
    rw [Logged.outcome_bind] at h
    exact .inl ⟨hd, h⟩
  · next hd =>
    split at h
    · cases h
    · next ha =>
      simp only [Logged.outcome_bind] at h
      obtain ⟨c, hc, h⟩ := exists_of_bind_eq_ok h
      obtain ⟨cs, hcs, h⟩ := exists_of_bind_eq_ok h
      cases h
      exact .inr ⟨by simpa using hd, by simpa using ha, c, cs, hc, hcs, rfl⟩

theorem assembleAll_cons_of_drops {r : Registry} {o : Options} {s : Signature} {path : String}
    {e : Element} {es : List Element} (hd : o.drops e = true) :
    (assembleAll r o s path (e :: es)).outcome = (assembleAll r o s path es).outcome := by
  rw [assembleAll, if_pos hd, Logged.outcome_bind]
  rfl

theorem assembleAll_cons_of_assemble {r : Registry} {o : Options} {s : Signature} {path : String}
    {e : Element} {es : List Element} (hd : o.drops e = false) (ha : s.acceptsChildren = true)
    {c : Call} (hc : (assemble r o (childPath path e) e).outcome = .ok c) {cs : List Call}
    (hcs : (assembleAll r o s path es).outcome = .ok cs) :
    (assembleAll r o s path (e :: es)).outcome = .ok (c :: cs) := by
  unfold assembleAll
  rw [if_neg (by simp [hd]), if_neg (by simp [ha])]
  simp only [Logged.outcome_bind, hc, hcs, ok_bind]
  rfl

/-! ### Resolution of a whole plan -/

theorem resolve_of_resolve? {r : Registry} {o : Options} {path : String} {e : Element}
    {s : Signature} (hs : r.resolve? e = .ok s)
    (hc : (resolveAll r o path e.children).outcome = .ok ()) :
    (resolve r o path e).outcome = .ok () := by
  cases e
  unfold resolve
  simp only [Logged.outcome_bind, Logged.outcome_mapFailure, Registry.outcome_resolve, hs]
  exact hc

theorem resolve_eq_ok {r : Registry} {o : Options} {path : String} {kind : String}
    {name : Option String} {enabled : Bool} {properties : Properties} {children : List Element}
    (h : (resolve r o path ⟨kind, name, enabled, properties, children⟩).outcome = .ok ()) :
    ∃ s, r.resolve? ⟨kind, name, enabled, properties, children⟩ = .ok s ∧
      (resolveAll r o path children).outcome = .ok () := by
  unfold resolve at h
  simp only [Logged.outcome_bind, Logged.outcome_mapFailure, Registry.outcome_resolve] at h
  obtain ⟨s, hs, h⟩ := exists_of_bind_eq_ok h
  exact ⟨s, mapError_eq_ok hs, h⟩

theorem resolveAll_cons_eq_ok {r : Registry} {o : Options} {path : String} {e : Element}
    {es : List Element} (h : (resolveAll r o path (e :: es)).outcome = .ok ()) :
    (o.drops e = false → (resolve r o (childPath path e) e).outcome = .ok ()) ∧
      (resolveAll r o path es).outcome = .ok () := by
  unfold resolveAll at h
  split at h
  · next hd => exact ⟨fun hn => absurd hd (by simp [hn]), h⟩
  · simp only [Logged.outcome_bind] at h
    obtain ⟨u, he, h⟩ := exists_of_bind_eq_ok h
    exact ⟨fun _ => he, h⟩

theorem resolveAll_cons_of_drops {r : Registry} {o : Options} {path : String} {e : Element}
    {es : List Element} (hd : o.drops e = true) :
    (resolveAll r o path (e :: es)).outcome = (resolveAll r o path es).outcome := by
  rw [resolveAll]
  simp only [hd, if_true]

theorem resolveAll_cons_of_resolve {r : Registry} {o : Options} {path : String} {e : Element}
    {es : List Element} (hd : o.drops e = false)
    (he : (resolve r o (childPath path e) e).outcome = .ok ())
    (hes : (resolveAll r o path es).outcome = .ok ()) :
    (resolveAll r o path (e :: es)).outcome = .ok () := by
  unfold resolveAll
  rw [if_neg (by simp [hd])]
  simp only [Logged.outcome_bind, he, hes, ok_bind]

end Element

end FluentPlan
