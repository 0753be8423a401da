import FluentPlan.Proofs.Assembly.Children
import FluentPlan.Proofs.Registration.Catalog

/-!
Assembly from what was looked up. Resolution keeps the signature of each element under the place of the
element; assembly finds signatures there, and the ranks of categories in the options, or it misses them.
It misses nothing: it comes to the same as assembly that asks the registry again and has a rank for
every category.
-/

namespace FluentPlan

/-- The way down to an element: positions among children. -/
abbrev Address := List Nat

/-- The signatures that resolution chose, by the places of the elements. -/
abbrev Choices := List (Address × Signature)

/-- What is looked up and not there. -/
inductive Miss where
  | signature (place : Address)
  | rank (category : String)

/-! ### With look-ups -/

namespace Element

mutual

/-- Resolution that keeps what was chosen. -/
def choose (r : Registry) (o : Options) (path : String) (place : Address) :
    Element → Logged Choices
  | ⟨kind, name, enabled, properties, children⟩ => do
    let s ← (r.resolve ⟨kind, name, enabled, properties, children⟩).mapFailure (·.withPath path)
    let below ← chooseAll r o path place 0 children
    return (place, s) :: below

def chooseAll (r : Registry) (o : Options) (path : String) (place : Address) (index : Nat) :
    List Element → Logged Choices
  | [] => pure []
  | e :: es => do
    let here ← if o.drops e then pure [] else choose r o (childPath path e) (place ++ [index]) e
    let rest ← chooseAll r o path place (index + 1) es
    return here ++ rest

end

/-- The signature that was chosen for the element at a place. -/
def signatureAt (choices : Choices) (place : Address) : ExceptT Miss Logged Signature :=
  match choices.lookup place with
  | some s => pure s
  | none => throw (.signature place)

/-- The rank of a category in a list, by its last position there. -/
def rank? (categories : List String) (category : String) : Option Nat :=
  (categories.reverse.idxOf? category).map fun i => categories.length - 1 - i

/-- Orders calls by ranks that are looked up first. -/
def orderRanked (categories : List String) (calls : List Call) : Except Miss (List Call) := do
  let ranked ← calls.mapM fun c =>
    match rank? categories c.head.category with
    | some n => .ok (n, c)
    | none => .error (.rank c.head.category)
  return (ranked.mergeSort fun a b => a.1 ≤ b.1).map Prod.snd

mutual

/-- Assembly that looks up signatures and ranks. A miss is no problem: no path is attached to it. -/
def assembleBy (choices : Choices) (o : Options) (path : String) (place : Address) :
    Element → ExceptT Miss Logged Call
  | ⟨kind, name, enabled, properties, children⟩ =>
    let e : Element := ⟨kind, name, enabled, properties, children⟩
    ExceptT.mk <| Logged.mapFailure (·.withPath path) <| ExceptT.run do
      let s ← signatureAt choices place
      match ← ExceptT.lift (Logged.ofExcept (ownCall o s e)) with
      | none =>
        ExceptT.lift (Logged.debug .assembler (path ++ " renders as an empty call"))
        return .empty s.category
      | some (head, chain) =>
        let calls ← assembleAllBy choices o s path place 0 children
        if calls.isEmpty then return ⟨head, [], chain⟩
        ExceptT.lift (Logged.debug .conversion ("assembling calls -> reordering children " ++ path))
        let ordered ← ExceptT.mk (pure (orderRanked o.categories calls))
        return attach s head chain ordered

def assembleAllBy (choices : Choices) (o : Options) (s : Signature) (path : String)
    (place : Address) (index : Nat) : List Element → ExceptT Miss Logged (List Call)
  | [] => pure []
  | e :: es =>
    if o.drops e then do
      ExceptT.lift (Logged.warn .assembler ("dropping disabled element " ++ childPath path e))
      assembleAllBy choices o s path place (index + 1) es
    else if !s.acceptsChildren then
      ExceptT.lift (Logged.fail
        (.problem (.unsupported e.kind (.childOf s.method)) (some (childPath path e))))
    else do
      let c ← assembleBy choices o (childPath path e) (place ++ [index]) e
      let cs ← assembleAllBy choices o s path place (index + 1) es
      return c :: cs

end

end Element

namespace Logged

/-- A computation whose value is not kept. -/
def forget {α : Type} (x : Logged α) : Logged Unit := ⟨x.outcome.map fun _ => (), x.log⟩

theorem forget_bind {α β : Type} {x : Logged α} {f : α → Logged β} {g : α → Logged Unit}
    (h : ∀ a, g a = (f a).forget) : x >>= g = (x >>= f).forget := by
  obtain ⟨outcome, log⟩ := x
  cases outcome with
  | error e => rfl
  | ok a =>
    change Logged.mk (g a).outcome (log ++ (g a).log) = _
    rw [h a]
    rfl

theorem forget_bind_forget {α β : Type} {x : Logged α} {f : α → Logged β} {y : Logged Unit}
    (h : ∀ a, y = (f a).forget) : (x.forget >>= fun _ => y) = (x >>= f).forget := by
  obtain ⟨outcome, log⟩ := x
  cases outcome with
  | error e => rfl
  | ok a =>
    change Logged.mk y.outcome (log ++ y.log) = _
    rw [h a]
    rfl

theorem forget_bind_pure {α β : Type} (x : Logged α) (f : α → β) :
    (x >>= fun a => Pure.pure (f a)).forget = x.forget := by
  obtain ⟨outcome, log⟩ := x
  cases outcome with
  | error e => rfl
  | ok a => exact congrArg (Logged.mk (Except.ok ())) (List.append_nil log)

end Logged

/-- A computation with look-ups that finds all that it looks up: it has the outcome and the log of one
without look-ups. -/
def Finds {α : Type} (y : ExceptT Miss Logged α) (x : Logged α) : Prop :=
  y.run = ⟨x.outcome.map Except.ok, x.log⟩

namespace Finds

variable {α β : Type}

theorem pure (a : α) : Finds (Pure.pure a) (Pure.pure a) := rfl

theorem lift (x : Logged α) : Finds (ExceptT.lift x) x := by
  obtain ⟨outcome, log⟩ := x
  cases outcome with
  | error f => rfl
  | ok a => exact congrArg (Logged.mk (Except.ok (Except.ok a))) (List.append_nil log)

theorem bind {y : ExceptT Miss Logged α} {x : Logged α} (h : Finds y x)
    {g : α → ExceptT Miss Logged β} {f : α → Logged β}
    (hf : ∀ a, x.outcome = .ok a → Finds (g a) (f a)) : Finds (y >>= g) (x >>= f) := by
  obtain ⟨outcome, log⟩ := x
  change (y.run >>= ExceptT.bindCont g) = _
  rw [h]
  cases outcome with
  | error e => rfl
  | ok a =>
    change Logged.mk (g a).run.outcome (log ++ (g a).run.log) = _
    rw [hf a rfl]
    rfl

theorem mapFailure {y : ExceptT Miss Logged α} {x : Logged α} (h : Finds y x)
    (f : Failure → Failure) : Finds (ExceptT.mk (y.run.mapFailure f)) (x.mapFailure f) := by
  obtain ⟨outcome, log⟩ := x
  change y.run.mapFailure f = _
  rw [h]
  cases outcome <;> rfl

end Finds

/-! ### What is there -/

theorem lookup_eq_some_of_mem {α β : Type} [BEq α] [LawfulBEq α] {l : List (α × β)} {a : α} {b : β}
    (hm : (a, b) ∈ l) (h : ∀ b', (a, b') ∈ l → b' = b) : l.lookup a = some b := by
  induction l with
  | nil => exact absurd hm List.not_mem_nil
  | cons e l ih =>
    obtain ⟨k, v⟩ := e
    by_cases hk : a = k
    · subst hk
      rw [List.lookup_cons_self, h v List.mem_cons_self]
    · have hl : (a, b) ∈ l := (List.mem_cons.mp hm).resolve_left fun he => hk (Prod.mk.inj he).1
      rw [List.lookup_cons, beq_eq_false_iff_ne.mpr hk]
      exact ih hl fun b' hb' => h b' (List.mem_cons_of_mem _ hb')

namespace Element

theorem rank?_eq_some {categories : List String} {category : String} (h : category ∈ categories) :
    rank? categories category = some (rankIn categories category) := by
  obtain ⟨i, hi⟩ : ∃ i, categories.reverse.idxOf? category = some i := by
    rw [← Option.ne_none_iff_exists', Ne, List.idxOf?_eq_none_iff, List.mem_reverse]
    exact not_not_intro h
  simp only [rank?, rankIn, hi, Option.map_some]

/-- Calls whose categories are all ranked are put in their order. -/
theorem orderRanked_eq_ok {categories : List String} {calls : List Call}
    (h : ∀ c ∈ calls, c.head.category ∈ categories) :
    orderRanked categories calls = .ok (Call.order categories calls) := by
  let ranked (c : Call) : Nat × Call := (rankIn categories c.head.category, c)
  have hranks : (calls.mapM fun c =>
      match rank? categories c.head.category with
      | some n => .ok (n, c)
      | none => .error (.rank c.head.category)) = (Except.ok (calls.map ranked) : Except Miss _) := by
    induction calls with
    | nil => rfl
    | cons c calls ih =>
      rw [List.mapM_cons, ih fun d hd => h d (List.mem_cons_of_mem c hd),
        rank?_eq_some (h c List.mem_cons_self)]
      rfl
  have hsort : ((calls.map ranked).mergeSort fun a b => a.1 ≤ b.1).map Prod.snd =
      Call.order categories calls := by
    rw [List.map_mergeSort (s := fun a b =>
      rankIn categories a.head.category ≤ rankIn categories b.head.category), List.map_map]
    · exact congrArg (orderBy _ categories) (List.map_id calls)
    · intro a ha b hb
      obtain ⟨c, -, rfl⟩ := List.mem_map.mp ha
      obtain ⟨d, -, rfl⟩ := List.mem_map.mp hb
      rfl
  unfold orderRanked
  rw [hranks]
  exact congrArg Except.ok hsort

/-- The element at a place below another, unless it is left out with something on the way. -/
def below? (o : Options) : Address → Element → Option Element
  | [], e => some e
  | i :: place, e =>
    e.children[i]?.bind fun c => if o.drops c then none else below? o place c

theorem below?_append (o : Options) (place rest : Address) (e : Element) :
    below? o (place ++ rest) e = (below? o place e).bind (below? o rest) := by
  induction place generalizing e with
  | nil => rfl
  | cons i place ih =>
    simp only [List.cons_append, below?, Option.bind_assoc]
    congr 1
    funext c
    split
    · rfl
    · exact ih c

variable {r : Registry} {o : Options}

/-- Choices for a plan: the signature of each element that is not left out, and nothing else. -/
def IsChosen (r : Registry) (o : Options) (root : Element) (choices : Choices) : Prop :=
  ∀ a s, (a, s) ∈ choices ↔ ∃ n, below? o a root = some n ∧ r.resolve? n = .ok s

theorem chooseAll_cons_eq_ok {path : String} {place : Address} {index : Nat} {e : Element}
    {es : List Element} {choices : Choices}
    (h : (chooseAll r o path place index (e :: es)).outcome = .ok choices) :
    ∃ here rest, (o.drops e = true ∧ here = [] ∨ o.drops e = false ∧
        (choose r o (childPath path e) (place ++ [index]) e).outcome = .ok here) ∧
      (chooseAll r o path place (index + 1) es).outcome = .ok rest ∧ choices = here ++ rest := by
  unfold chooseAll at h
  split at h
  · next hd =>
    simp only [Logged.outcome_bind, Logged.outcome_pure, ok_bind] at h
    obtain ⟨rest, hrest, h⟩ := exists_of_bind_eq_ok h
    cases h
    exact ⟨[], rest, .inl ⟨hd, rfl⟩, hrest, rfl⟩
  · next hd =>
    simp only [Logged.outcome_bind] at h
    obtain ⟨here, hhere, h⟩ := exists_of_bind_eq_ok h
    obtain ⟨rest, hrest, h⟩ := exists_of_bind_eq_ok h
    cases h
    exact ⟨here, rest, .inr ⟨by simpa using hd, hhere⟩, hrest, rfl⟩

mutual

/-- Resolution chooses a signature for each element that is not left out, and for no other place. -/
theorem mem_choose_iff : (e : Element) → ∀ {path : String} {place : Address} {choices : Choices},
    (choose r o path place e).outcome = .ok choices → ∀ {a : Address} {s : Signature},
    (a, s) ∈ choices ↔
      ∃ rest n, a = place ++ rest ∧ below? o rest e = some n ∧ r.resolve? n = .ok s
  | ⟨kind, name, enabled, properties, children⟩, path, place, choices, h, a, s => by
    unfold choose at h
    simp only [Logged.outcome_bind, Logged.outcome_mapFailure, Registry.outcome_resolve] at h
    obtain ⟨t, ht, h⟩ := exists_of_bind_eq_ok h
    obtain ⟨below, hbelow, h⟩ := exists_of_bind_eq_ok h
    cases h
    have ht := mapError_eq_ok ht
    rw [List.mem_cons, mem_chooseAll_iff children hbelow]
    constructor
    · rintro (he | ⟨j, rest, c, n, rfl, hc, hd, hn, hs⟩)
      · cases he
        exact ⟨[], _, (List.append_nil _).symm, rfl, ht⟩
      · refine ⟨j :: rest, n, by rw [Nat.zero_add], ?_, hs⟩
        simp only [below?, hc, Option.bind_some, hd, Bool.false_eq_true, if_false, hn]
    · rintro ⟨rest, n, rfl, hn, hs⟩
      cases rest with
      | nil =>
        cases hn
        cases ht.symm.trans hs
        exact .inl (by rw [List.append_nil])
      | cons j rest =>
        obtain ⟨c, hc, hn⟩ := Option.bind_eq_some_iff.mp hn
        split_ifs at hn with hd
        exact .inr ⟨j, rest, c, n, by rw [Nat.zero_add], hc, by simpa using hd, hn, hs⟩

theorem mem_chooseAll_iff : (es : List Element) → ∀ {path : String} {place : Address} {index : Nat}
    {choices : Choices}, (chooseAll r o path place index es).outcome = .ok choices →
    ∀ {a : Address} {s : Signature}, (a, s) ∈ choices ↔
      ∃ j rest c n, a = place ++ (index + j) :: rest ∧ es[j]? = some c ∧ o.drops c = false ∧
        below? o rest c = some n ∧ r.resolve? n = .ok s
  | [], path, place, index, choices, h, a, s => by
    cases h
    simp
  | e :: es, path, place, index, choices, h, a, s => by
    obtain ⟨here, rest, hhere, hrest, rfl⟩ := chooseAll_cons_eq_ok h
    have hfirst : (a, s) ∈ here ↔ ∃ rest n, a = place ++ index :: rest ∧ o.drops e = false ∧
        below? o rest e = some n ∧ r.resolve? n = .ok s := by
      rcases hhere with ⟨hd, rfl⟩ | ⟨hd, hhere⟩
      · simp [hd]
      · rw [mem_choose_iff e hhere]
        simp [hd]
    rw [List.mem_append, hfirst, mem_chooseAll_iff es hrest]
    constructor
    · rintro (⟨tail, n, rfl, hd, hn, hs⟩ | ⟨j, tail, c, n, rfl, hc, hd, hn, hs⟩)
      · exact ⟨0, tail, e, n, rfl, rfl, hd, hn, hs⟩
      · exact ⟨j + 1, tail, c, n, by rw [Nat.add_right_comm, Nat.add_assoc], hc, hd, hn, hs⟩
    · rintro ⟨j, tail, c, n, rfl, hc, hd, hn, hs⟩
      cases j with
      | zero =>
        cases hc
        exact .inl ⟨tail, n, rfl, hd, hn, hs⟩
      | succ j => exact .inr ⟨j, tail, c, n, by rw [Nat.add_right_comm, Nat.add_assoc], hc, hd, hn, hs⟩

end

mutual

/-- Keeping what was chosen changes nothing in resolution. -/
theorem resolve_eq_forget : (e : Element) → (path : String) → (place : Address) →
    resolve r o path e = (choose r o path place e).forget
  | ⟨kind, name, enabled, properties, children⟩, path, place => by
    unfold resolve choose
    refine Logged.forget_bind fun s => ?_
    rw [Logged.forget_bind_pure]
    exact resolveAll_eq_forget children path place 0

theorem resolveAll_eq_forget : (es : List Element) → (path : String) → (place : Address) →
    (index : Nat) → resolveAll r o path es = (chooseAll r o path place index es).forget
  | [], path, place, index => rfl
  | e :: es, path, place, index => by
    unfold resolveAll chooseAll
    have hes := resolveAll_eq_forget es path place (index + 1)
    split
    · exact hes.trans (Logged.forget_bind_pure _ _).symm
    · rw [resolve_eq_forget e (childPath path e) (place ++ [index])]
      exact Logged.forget_bind_forget fun here => hes.trans (Logged.forget_bind_pure _ _).symm

end

/-- The calls of children have the categories of signatures. -/
theorem category_mem_of_assembleAll {categories : List String}
    (hr : ∀ s ∈ r.signatures, s.category ∈ categories) {s : Signature} {path : String}
    {es : List Element} {calls : List Call}
    (h : (assembleAll r o s path es).outcome = .ok calls) :
    ∀ c ∈ calls, c.head.category ∈ categories := by
  intro c hc
  obtain ⟨e, -, he⟩ := exists_of_forall₂ (assembleAll_eq_ok_iff.mp h).2 hc
  obtain ⟨t, ht, -⟩ := assemble_eq_ok_iff.mp he
  have hcategory : some t.category = some c.head.category :=
    (category?_of_resolve? ht).symm.trans (category?_of_assemble he)
  exact Option.some.inj hcategory ▸ hr t (Registry.resolve?_eq_ok ht).1

variable {root : Element} {choices : Choices}

/-- At the place of an element that was resolved its signature is found. -/
theorem finds_signatureAt (hc : IsChosen r o root choices) {place : Address} {e : Element}
    (he : below? o place root = some e) {s : Signature} (hs : r.resolve? e = .ok s) :
    Finds (signatureAt choices place) (Logged.ofExcept (r.resolve? e)) := by
  have hlook : choices.lookup place = some s := by
    refine lookup_eq_some_of_mem ((hc place s).mpr ⟨e, he, hs⟩) fun t ht => ?_
    obtain ⟨n, hn, ht⟩ := (hc place t).mp ht
    cases he.symm.trans hn
    cases hs.symm.trans ht
    rfl
  rw [signatureAt, hlook, hs]
  exact .pure s

mutual

/-- Assembly finds all that it looks up in what resolution chose for the whole plan. -/
theorem finds_assembleBy (hc : IsChosen r o root choices)
    (hr : ∀ s ∈ r.signatures, s.category ∈ o.categories) : (e : Element) → ∀ {path : String} {place : Address},
    below? o place root = some e → (∃ p, (resolve r o p e).outcome = .ok ()) →
    Finds (assembleBy choices o path place e) (assemble r o path e)
  | ⟨kind, name, enabled, properties, children⟩, path, place, he, hres => by
    obtain ⟨p, hres⟩ := hres
    obtain ⟨s, hs, hchildren⟩ := resolve_eq_ok hres
    unfold assemble assembleBy
    refine .mapFailure (.bind (finds_signatureAt hc he hs) fun t ht => ?_) _
    cases hs.symm.trans ht
    refine .bind (.lift _) fun own _ => ?_
    cases own with
    | none => exact .bind (.lift _) fun _ _ => .pure _
    | some own =>
      obtain ⟨head, chain⟩ := own
      have hall : Finds (assembleAllBy choices o s path place 0 children)
          (assembleAll r o s path children) := by
        refine finds_assembleAllBy hc hr children (fun j c hj hd => ?_) ⟨p, hchildren⟩
        rw [below?_append, he, Nat.zero_add]
        simp only [Option.bind_some, below?, hj, hd, Bool.false_eq_true, if_false]
      refine .bind hall fun calls hcalls => ?_
      split
      · exact .pure _
      · refine .bind (.lift _) fun _ _ => ?_
        rw [orderRanked_eq_ok (category_mem_of_assembleAll hr hcalls)]
        exact .pure _

theorem finds_assembleAllBy (hc : IsChosen r o root choices)
    (hr : ∀ s ∈ r.signatures, s.category ∈ o.categories) : (es : List Element) → ∀ {s : Signature}
    {path : String} {place : Address} {index : Nat},
    (∀ j c, es[j]? = some c → o.drops c = false → below? o (place ++ [index + j]) root = some c) →
    (∃ p, (resolveAll r o p es).outcome = .ok ()) →
    Finds (assembleAllBy choices o s path place index es) (assembleAll r o s path es)
  | [], s, path, place, index, _, _ => by
    unfold assembleAllBy assembleAll
    exact .pure _
  | e :: es, s, path, place, index, hes, hres => by
    obtain ⟨p, hres⟩ := hres
    obtain ⟨hres, hrest⟩ := resolveAll_cons_eq_ok hres
    have htail : Finds (assembleAllBy choices o s path place (index + 1) es)
        (assembleAll r o s path es) := by
      refine finds_assembleAllBy hc hr es (fun j c hj hd => ?_) ⟨p, hrest⟩
      rw [Nat.add_right_comm, Nat.add_assoc]
      exact hes (j + 1) c hj hd
    unfold assembleAllBy assembleAll
    split
    · exact .bind (.lift _) fun _ _ => htail
    · next hd =>
      have hd : o.drops e = false := by simpa using hd
      split
      · exact .lift _
      · refine .bind (finds_assembleBy hc hr e (hes 0 e rfl hd) ⟨_, hres hd⟩) fun c _ => ?_
        exact .bind htail fun cs _ => .pure _

end

end Element

/-- A conversion ranks the categories of all signatures of its registry, whatever was done to it before. -/
theorem Conversion.ranks_of_ofRegistry {categories : List String} {L : List Signature}
    {r : Registry} (hr : Registry.Runs (.empty categories) L r) {o : Options} {c : Conversion}
    (hc : (ofRegistry r o).outcome = .ok c) :
    ∀ s ∈ c.registry.signatures, s.category ∈ c.options.categories := by
  unfold ofRegistry at hc
  split at hc
  · exact (ranks_catalog (.inl hc)).2
  · have hc : create r o = .ok c := hc
    obtain rfl := create_eq_ok hc
    exact fun s hs => mem_categories_of_create hc ((Registry.holds_of_runs hr).1.category_mem hs)

/-- Assembly misses nothing. Resolution that keeps what it chose is resolution, and assembly that looks up
signatures among the choices and ranks in the options does what assembly does, without a miss. -/
theorem finds_of_ofRegistry {categories : List String} {L : List Signature} {r : Registry}
    (hr : Registry.Runs (.empty categories) L r) {o : Options} {c : Conversion}
    (hc : (Conversion.ofRegistry r o).outcome = .ok c) (e : Element) :
    e.resolve c.registry c.options e.label = (e.choose c.registry c.options e.label []).forget ∧
      ∀ choices, (e.choose c.registry c.options e.label []).outcome = .ok choices →
        Finds (e.assembleBy choices c.options e.label [])
          (e.assemble c.registry c.options e.label) := by
  have hforget := Element.resolve_eq_forget (r := c.registry) (o := c.options) e e.label []
  refine ⟨hforget, fun choices hchoices => ?_⟩
  have hchosen : Element.IsChosen c.registry c.options e choices := by
    intro a s
    rw [Element.mem_choose_iff e hchoices]
    constructor
    · rintro ⟨rest, n, rfl, hn⟩
      exact ⟨n, hn⟩
    · rintro ⟨n, hn⟩
      exact ⟨a, n, rfl, hn⟩
  refine Element.finds_assembleBy hchosen (Conversion.ranks_of_ofRegistry hr hc) e rfl ⟨e.label, ?_⟩
  rw [hforget]
  exact congrArg (Except.map fun _ => ()) hchoices

open Catalog.Configuration (constantTimer)
open Catalog.Plan (testPlan)

/-- A registry with two signatures, options with an order of their own, and a plan whose first child is
left out: the choice for the second child stands at its place. -/
theorem finds_of_ofRegistry_timers :
    let r := ((Registry.empty ["timer", "executable"]).registerAll [testPlan, constantTimer]).1
    let o : Options := { categories := ["executable", "timer"], commentDisabled := false }
    let c : Conversion := ⟨r, o, .idle, none⟩
    let timer (enabled : Bool) : Element :=
      ⟨"ConstantTimer", none, enabled, .ofList [("ConstantTimer.delay", "5")], []⟩
    let e : Element := ⟨"TestPlan", none, true, .empty, [timer false, timer true]⟩
    let choices : Choices := [([], testPlan), ([1], constantTimer)]
    (Registry.Runs (.empty ["timer", "executable"]) [testPlan, constantTimer] r ∧
      (Conversion.ofRegistry r o).outcome = .ok c ∧
      (e.choose r o e.label []).outcome = .ok choices) ∧
      e.resolve r o e.label = (e.choose r o e.label []).forget ∧
      Finds (e.assembleBy choices o e.label []) (e.assemble r o e.label) := by
  intro r o c timer e choices
  have hr : Registry.Runs (.empty ["timer", "executable"]) [testPlan, constantTimer] r :=
    (Registry.Runs.refl _).registerAll [testPlan, constantTimer]
  have hc : (Conversion.ofRegistry r o).outcome = .ok c := rfl
  have he : r.resolve? e = .ok testPlan := Registry.resolve?_of_first rfl rfl rfl
  have ht : r.resolve? (timer true) = .ok constantTimer := Registry.resolve?_of_first rfl rfl rfl
  have htimer (path : String) (place : Address) :
      ((timer true).choose r o path place).outcome = .ok [(place, constantTimer)] := by
    simp only [timer, Element.choose, Element.chooseAll, Logged.outcome_bind,
      Logged.outcome_mapFailure, Registry.outcome_resolve, ht]
    rfl
  have hchoices : (e.choose r o e.label []).outcome = .ok choices := by
    simp only [e, Element.choose, Element.chooseAll, Logged.outcome_bind,
      Logged.outcome_mapFailure, Registry.outcome_resolve, he]
    have hfirst : o.drops (timer false) = true := rfl
    have hsecond : o.drops (timer true) = false := rfl
    simp only [hfirst, hsecond, if_true, Bool.false_eq_true, if_false, Logged.outcome_bind, htimer]
    rfl
  have hfinds := finds_of_ofRegistry hr hc e
  exact ⟨⟨hr, hc, hchoices⟩, hfinds.1, hfinds.2 choices hchoices⟩

end FluentPlan
