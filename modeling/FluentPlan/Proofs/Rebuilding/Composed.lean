import FluentPlan.Proofs.Hoisting.Replace
import FluentPlan.Proofs.Rebuilding.Accepted

/-!
Calls that are put together from calls of elements. Assembled calls are, and they still are when child
calls are replaced by references to helper methods. What says such a call is evaluated to an element
exactly if all calls in it are taken and the helper methods that it refers to are.
-/

namespace FluentPlan

open Build Script Element Catalog Catalog.Plan

namespace Call

/-- Calls of elements with calls of their children in place, down to calls without effect and references to
helper methods. -/
inductive Composed (o : Options) : Call → Prop
  | empty (category : String) : Composed o (.empty category)
  | reference (name : String) (body : Call) : Composed o (.reference name body)
  | own {e : Element} {s : Signature} {head : CallHead} {chain kids : List Call} {c : Call}
    (hs : Registry.standard.resolve? e = .ok s) (hown : ownCall o s e = .ok (some (head, chain)))
    (ha : kids ≠ [] → s.acceptsChildren = true) (hk : ∀ k ∈ kids, Composed o k)
    (hc : Placed head chain kids c) : Composed o c

/-- Whether all calls in a call are taken but those of helper methods. -/
def AllTaken (c : Call) : Prop := ∀ d ∈ c.walk, d.isReference = false → d.IsTaken

/-! ### Places of child calls -/

theorem isTaken_of_args_eq_nil {c : Call} (hm : c.head.method ≠ anyThreadGroup.method)
    (h : ∀ p v, Arg.scalar p v ∉ c.head.args) : c.IsTaken where
  given := fun p hp => absurd hp (h p none)
  counted := fun hmethod => absurd hmethod hm
  ramps := fun r hr => absurd hr (h _ r)
  runs := fun r _ hr => absurd hr (h _ r)

namespace Placed

variable {head : CallHead} {chain kids : List Call} {c : Call} (hc : Placed head chain kids c)

include hc

theorem head_eq : c.head = head := by
  cases hc <;> rfl

/-- A call is taken exactly if its head is with the calls that are chained to it. -/
theorem isTaken_iff : c.IsTaken ↔ IsTaken ⟨head, [], chain⟩ := by
  have hcounted : (∃ d ∈ c :: c.chain, ∃ n, Arg.scalar threadCount n ∈ d.head.args) ↔
      ∃ d ∈ ⟨head, [], chain⟩ :: chain, ∃ n, Arg.scalar threadCount n ∈ d.head.args := by
    cases hc with
    | alone h => exact Iff.rfl
    | among h => simp
    | chained => simp [chainedChildren]
  have hhead := hc.head_eq
  constructor
  · rintro ⟨hgiven, hc, hramps, hruns⟩
    rw [hhead] at hgiven hc hramps hruns
    exact ⟨hgiven, fun h => hcounted.mp (hc h), hramps, hruns⟩
  · rintro ⟨hgiven, hc, hramps, hruns⟩
    refine ⟨?_, ?_, ?_, ?_⟩ <;> rw [hhead]
    exacts [hgiven, fun h => hcounted.mpr (hc h), hramps, hruns]

variable (hl : ∀ l ∈ chain, l.walk = [l])

include hl

theorem mem_walk_iff {d : Call} :
    d ∈ c.walk ↔ d = c ∨ d ∈ chain ∨ (d = chainedChildren kids ∧ d ∈ c.chain) ∨
      ∃ k ∈ kids, d ∈ k.walk := by
  have hlinks : (∃ l ∈ chain, d ∈ l.walk) ↔ d ∈ chain := by
    constructor
    · rintro ⟨l, hmem, hd⟩
      rw [hl l hmem] at hd
      rwa [List.mem_singleton.mp hd]
    · exact fun hd => ⟨d, hd, mem_walk_self d⟩
  rw [Call.mem_walk_iff]
  cases hc with
  | alone h =>
    subst h
    simp only [hlinks, List.not_mem_nil, false_and, exists_false, false_or, or_false]
    exact or_congr_right (or_iff_left_of_imp And.right).symm
  | among h =>
    simp only [hlinks]
    constructor
    · rintro (rfl | hd | hd)
      · exact .inl rfl
      · exact .inr (.inr (.inr hd))
      · exact .inr (.inl hd)
    · rintro (rfl | hd | ⟨-, hd⟩ | hd)
      · exact .inl rfl
      · exact .inr (.inr hd)
      · exact .inr (.inr hd)
      · exact .inr (.inl hd)
  | chained =>
    have hlast : d ∈ (chainedChildren kids).walk ↔
        d = chainedChildren kids ∨ ∃ k ∈ kids, d ∈ k.walk := by
      rw [Call.mem_walk_iff]
      simp [chainedChildren]
    simp only [List.mem_append, List.mem_singleton, or_and_right, exists_or, hlinks, exists_eq_left,
      hlast, List.not_mem_nil, false_and, exists_false, false_or]
    refine or_congr_right (or_congr_right (or_congr_left ?_))
    exact ⟨fun h => ⟨h, .inr h⟩, And.left⟩

/-- All calls in a call are taken if it is by itself and all calls in its children are. -/
theorem allTaken_iff (hhead : head.role ≠ .reference) (hlinks : ∀ l ∈ chain, l.isReference = false) :
    c.AllTaken ↔ OwnTaken head chain ∧ ∀ k ∈ kids, k.AllTaken := by
  have hown : c.isReference = false := by simpa [isReference, hc.head_eq] using hhead
  have hlast : (chainedChildren kids).IsTaken :=
    isTaken_of_args_eq_nil (show "children" ≠ "threadGroup" by decide)
      fun p v h => by simp [chainedChildren] at h
  constructor
  · intro h
    refine ⟨⟨hc.isTaken_iff.mp (h c (mem_walk_self c) hown), fun l hmem => ?_⟩, fun k hk d hd => ?_⟩
    · exact h l ((hc.mem_walk_iff hl).mpr (.inr (.inl hmem))) (hlinks l hmem)
    · exact h d ((hc.mem_walk_iff hl).mpr (.inr (.inr (.inr ⟨k, hk, hd⟩))))
  · rintro ⟨⟨htaken, hchain⟩, hkids⟩ d hd hr
    rcases (hc.mem_walk_iff hl).mp hd with rfl | hmem | ⟨rfl, -⟩ | ⟨k, hk, hmem⟩
    · exact hc.isTaken_iff.mpr htaken
    · exact hchain d hmem
    · exact hlast
    · exact hkids k hk d hmem hr

/-- The references in a call are those in its children. -/
theorem forall_references_iff (hhead : head.role ≠ .reference)
    (hlinks : ∀ l ∈ chain, l.isReference = false) {P : Call → Prop} :
    (∀ d ∈ c.walk, d.isReference = true → P d) ↔
      ∀ k ∈ kids, ∀ d ∈ k.walk, d.isReference = true → P d := by
  have hown : c.isReference = false := by simpa [isReference, hc.head_eq] using hhead
  constructor
  · exact fun h k hk d hd => h d ((hc.mem_walk_iff hl).mpr (.inr (.inr (.inr ⟨k, hk, hd⟩))))
  · intro h d hd hr
    rcases (hc.mem_walk_iff hl).mp hd with rfl | hmem | ⟨rfl, -⟩ | ⟨k, hk, hmem⟩
    · rw [hown] at hr
      cases hr
    · rw [hlinks d hmem] at hr
      cases hr
    · cases hr
    · exact h k hk d hmem hr

omit hl

/-- References in place of child calls leave the places as they are. -/
theorem replace {key : CallKey} {ref : Call} (hlinks : ∀ l ∈ chain, Call.replace key ref l = l) :
    Placed head chain (kids.map (replaced key ref)) (Call.replace key ref c) := by
  have hchain : chain.map (Call.replace key ref) = chain :=
    (List.map_congr_left hlinks).trans (List.map_id chain)
  rw [replace_eq]
  cases hc with
  | alone h =>
    subst h
    rw [hchain]
    exact .alone rfl
  | among h =>
    rw [hchain]
    exact .among h
  | chained =>
    rw [List.map_append, hchain, List.map_singleton, replace_eq]
    exact .chained

/-- What stands at a place of a call is one of its children or stands at a place in one. -/
theorem exists_of_mem_candidates (hlinks : ∀ l ∈ chain, l.candidates = []) {x : Call}
    (hx : x ∈ c.candidates) : ∃ k ∈ kids, x = k ∨ x ∈ k.candidates := by
  have hnone {l : Call} (hl : l ∈ chain) (hx : x ∈ l.candidates) : False := by
    rw [hlinks l hl] at hx
    cases hx
  have hkid {d : Call} (hd : d.children = kids) (hlast : ∀ l ∈ d.chain, x ∉ l.candidates)
      (hx : x ∈ d.candidates) : ∃ k ∈ kids, x = k ∨ x ∈ k.candidates := by
    subst hd
    rcases mem_candidates_iff.mp hx with ⟨hk, -⟩ | ⟨k, hk, hx⟩ | ⟨l, hl, hx⟩
    · exact ⟨x, hk, .inl rfl⟩
    · exact ⟨k, hk, .inr hx⟩
    · exact absurd hx (hlast l hl)
  cases hc with
  | alone h =>
    subst h
    exact hkid rfl (fun l hl hx => hnone hl hx) hx
  | among h => exact hkid rfl (fun l hl hx => hnone hl hx) hx
  | chained =>
    rcases mem_candidates_iff.mp hx with ⟨hk, -⟩ | ⟨k, hk, -⟩ | ⟨l, hl, hx⟩
    · cases hk
    · cases hk
    · rcases List.mem_append.mp hl with hl | hl
      · exact (hnone hl hx).elim
      · obtain rfl := List.mem_singleton.mp hl
        exact hkid rfl (fun l hl => absurd hl List.not_mem_nil) hx

end Placed

/-! ### Composed calls -/

theorem walk_link {o : Options} {s : Signature} {e : Element} {head : CallHead} {chain : List Call}
    (h : ownCall o s e = .ok (some (head, chain))) :
    head.role = .builder ∧ ∀ l ∈ chain, ∃ method args, l = .chained method args := by
  obtain ⟨vs, hv, ⟨-, -, hnone⟩ | ⟨hdef, links, hlinks, hsome⟩⟩ := ownCall_eq_ok h
  · cases hnone
  cases hsome
  refine ⟨rfl, fun l hl => ?_⟩
  obtain ⟨cs, hcs, hl⟩ := List.mem_flatten.mp hl
  obtain ⟨m, -, hm⟩ := exists_of_forall₂ hlinks hcs
  obtain ⟨args, rfl, -⟩ := exists_chained_of_modifierCalls hm hl
  exact ⟨_, args, rfl⟩

namespace Composed

variable {o : Options}

/-- A call without effect is all that a composed call is that has none. -/
theorem allTaken_of_isEmpty {c : Call} (h : c.Composed o) (hc : c.isEmpty = true) :
    c.walk = [c] ∧ c.isReference = false ∧ c.IsTaken := by
  cases h with
  | empty category =>
    exact ⟨walk_empty category, rfl, isTaken_of_args_eq_nil (show "" ≠ "threadGroup" by decide)
      fun p v h => by simp [Call.empty] at h⟩
  | reference name body => cases hc
  | own hs hown ha hk hplaced =>
    rw [isEmpty, hplaced.head_eq, (walk_link hown).1] at hc
    cases hc

/-- References in place of child calls leave a call composed. -/
theorem replace {c : Call} (h : c.Composed o) (key : CallKey) (name : String) (body : Call) :
    (Call.replace key (Call.reference name body) c).Composed o := by
  induction h with
  | empty category =>
    rw [replace_eq]
    exact .empty category
  | reference other b =>
    rw [replace_eq]
    exact .reference other b
  | own hs hown ha hk hc ih =>
    refine .own hs hown (fun hne => ha ?_) (fun k hk => ?_) (hc.replace fun l hl => ?_)
    · rintro rfl
      exact hne rfl
    · obtain ⟨j, hj, rfl⟩ := List.mem_map.mp hk
      by_cases hkey : j.key = key
      · rw [replaced_of_key_eq hkey]
        exact .reference name body
      · rw [replaced_of_key_ne hkey]
        exact ih j hj
    · obtain ⟨method, args, rfl⟩ := (walk_link hown).2 l hl
      rw [replace_eq]
      rfl

/-- What stands at a place of a composed call is composed. -/
theorem of_mem_candidates {c x : Call} (h : c.Composed o) (hx : x ∈ c.candidates) :
    x.Composed o := by
  induction h with
  | empty category =>
    rw [candidates_eq] at hx
    cases hx
  | reference name body =>
    rw [candidates_eq] at hx
    cases hx
  | own hs hown ha hk hc ih =>
    have hlinks := (walk_link hown).2
    obtain ⟨k, hkid, rfl | hx⟩ := hc.exists_of_mem_candidates (by
      intro l hl
      obtain ⟨method, args, rfl⟩ := hlinks l hl
      rw [candidates_eq]
      rfl) hx
    · exact hk _ hkid
    · exact ih k hkid hx

/-- The head of a composed call is that of an element, unless the call refers to a helper method. -/
theorem exists_ownHead {c : Call} (h : c.Composed o) (hne : c.isEmpty = false) :
    c.isReference = true ∨
      ∃ s ∈ Registry.standard.signatures, ∃ e args, c.head = ownHead o s e args := by
  cases h with
  | empty category => cases hne
  | reference name body => exact .inl rfl
  | own hs hown ha hk hc =>
    obtain ⟨vs, -, ⟨-, -, hnone⟩ | ⟨-, links, -, hsome⟩⟩ := ownCall_eq_ok hown
    · cases hnone
    · cases hsome
      exact .inr ⟨_, (Registry.resolve?_eq_ok hs).1, _, _, hc.head_eq⟩

theorem plainName {c : Call} (h : c.Composed o) (hne : c.isEmpty = false) :
    c.isReference = true ∨ isPlainName c.head.method = true := by
  refine (h.exists_ownHead hne).imp_right ?_
  rintro ⟨s, hs, e, args, hhead⟩
  rw [hhead]
  exact isPlainName_method hs

end Composed

end Call

namespace Element

variable {o : Options}

mutual

/-- The call of an element is composed. -/
theorem composed_assemble : (e : Element) → ∀ {path : String} {c : Call},
    (assemble .standard o path e).outcome = .ok c → c.Composed o
  | ⟨kind, name, enabled, properties, children⟩ => by
    intro h
    obtain ⟨s, hs, ⟨-, rfl⟩ | ⟨head, chain, calls, hown, hcalls, rfl⟩⟩ := assemble_eq_ok h
    · exact .empty s.category
    · have hmem {k : Call} : k ∈ Call.order o.categories calls ↔ k ∈ calls :=
        (orderBy_perm _ _ _).mem_iff
      refine .own hs hown (fun hne => ?_)
        (fun k hk => composed_assembleAll children hcalls k (hmem.mp hk))
        (Call.placed_withChildren o s head chain calls)
      obtain ⟨k, hk⟩ := List.exists_mem_of_ne_nil _ hne
      exact acceptsChildren_of_assembleAll hcalls (List.ne_nil_of_mem (hmem.mp hk))

theorem composed_assembleAll {s : Signature} : (es : List Element) →
    ∀ {path : String} {calls : List Call}, (assembleAll .standard o s path es).outcome = .ok calls →
      ∀ c ∈ calls, c.Composed o
  | [] => by
    intro h c hc
    cases h
    cases hc
  | e :: es => by
    intro h d hd
    rcases assembleAll_cons_eq_ok h with ⟨-, h⟩ | ⟨-, -, c, cs, hc, hcs, rfl⟩
    · exact composed_assembleAll es h d hd
    · rcases List.mem_cons.mp hd with rfl | hd
      · exact composed_assemble e hc
      · exact composed_assembleAll es hcs d hd

end

end Element

namespace Build

theorem exists_elements_iff (scope : Scope) (xs : List Expr) :
    (∃ es, (elements (operands scope xs)).outcome = .ok es) ↔
      ∀ x ∈ xs, ∃ e, (evaluate scope x).outcome = .ok e := by
  induction xs with
  | nil => exact ⟨fun _ => List.forall_mem_nil _, fun _ => ⟨[], rfl⟩⟩
  | cons x xs ih =>
    rw [List.forall_mem_cons, ← ih]
    simp only [operands, elements, Logged.outcome_bind]
    constructor
    · rintro ⟨es, h⟩
      obtain ⟨e, he, h⟩ := exists_of_bind_eq_ok h
      obtain ⟨es', hes, -⟩ := exists_of_bind_eq_ok h
      exact ⟨⟨e, he⟩, es', hes⟩
    · rintro ⟨⟨e, he⟩, es, hes⟩
      exact ⟨e :: es, by rw [he, ok_bind, hes]; rfl⟩

/-- A call builds an element exactly if one of the forms of its method takes it. -/
theorem exists_ofCall_iff {r : Registry} {head : Invocation Operand} {leading : List Expr}
    {children : List Operand} (hdiv : divide head.args = .ok (leading, children))
    (chain : List (Invocation Operand)) :
    (∃ e, (ofCall r head chain).outcome = .ok e) ↔
      ∃ made, (tryForms head.pos head.name leading children chain [] (r.forMethod head.name)).outcome =
        .ok made := by
  constructor
  · rintro ⟨e, h⟩
    obtain ⟨s, hmade⟩ := exists_makeCall_of_ofCall h
    unfold makeCall at hmade
    split at hmade
    · cases hmade
    · simp only [Logged.outcome_bind, Logged.outcome_ofExcept, hdiv, ok_bind] at hmade
      exact ⟨_, hmade⟩
  · rintro ⟨made, htried⟩
    cases hforms : r.forMethod head.name with
    | nil =>
      rw [hforms] at htried
      cases htried
    | cons first behind =>
      rw [hforms] at htried
      exact ⟨made.2, ofCall_of_makeCall (makeCall_of_forms hforms hdiv htried)⟩

end Build

/-- What says a reference calls the helper method. -/
theorem Call.eq_call_of_reference {x : Expr} {name : String} {body : Call}
    (hx : x.unplaced = (reference name body).toExpr) : ∃ pos, x = .call ⟨pos, name, []⟩ [] := by
  have hexpr : (reference name body).toExpr = .call ⟨.start, name, []⟩ [] := by
    rw [reference, toExpr, childExprs, chainExprs]
    rfl
  rw [hexpr] at hx
  cases x with
  | call head chain =>
    obtain ⟨pos, n, as⟩ := head
    rw [Expr.unplaced, Expr.unplacedAll_eq_map, unplacedChain_eq_map] at hx
    simp only [Expr.call.injEq, Invocation.mk.injEq, true_and, List.map_eq_nil_iff] at hx
    obtain ⟨⟨rfl, rfl⟩, rfl⟩ := hx
    exact ⟨pos, rfl⟩
  | _ => cases hx

namespace Call.Composed

variable {o : Options}

/-- What says a composed call is evaluated to an element exactly if all calls in it are taken and the
helper methods are that it refers to. -/
theorem exists_evaluate_iff {c : Call} (h : c.Composed o) (hne : c.isEmpty = false) {scope : Scope}
    (hr : scope.registry = .standard) {R : String → Prop}
    (hown : ∀ d ∈ c.walk, d.isReference = false → scope.program.definition? d.head.method = none)
    (href : ∀ d ∈ c.walk, d.isReference = true → isPlainName d.head.method = true ∧
      ∀ pos, (∃ e, (scope.call ⟨pos, d.head.method, []⟩ []).outcome = .ok e) ↔ R d.head.method)
    {x : Expr} (hx : x.unplaced = c.toExpr) :
    (∃ e, (evaluate scope x).outcome = .ok e) ↔
      c.AllTaken ∧ ∀ d ∈ c.walk, d.isReference = true → R d.head.method := by
  induction h generalizing x with
  | empty category => cases hne
  | reference name body =>
    obtain ⟨pos, rfl⟩ := eq_call_of_reference hx
    have hself := mem_walk_self (Call.reference name body)
    have heval : evaluate scope (.call ⟨pos, name, []⟩ []) = scope.call ⟨pos, name, []⟩ [] := by
      rw [evaluate, operands, invocations]
    rw [heval]
    refine ((href _ hself rfl).2 pos).trans
      ⟨fun hR => ⟨fun d hd hno => ?_, fun d hd _ => ?_⟩, fun hall => hall.2 _ hself rfl⟩ <;>
      rw [walk_reference] at hd <;> obtain rfl := List.mem_singleton.mp hd
    · cases hno
    · exact hR
  | @own e s head chain kids c hs howncall ha hk hc ih =>
    have hmem := (Registry.resolve?_eq_ok hs).1
    obtain ⟨hrole, hlinks⟩ := walk_link howncall
    have hwalk : ∀ l ∈ chain, l.walk = [l] := by
      intro l hl
      obtain ⟨method, args, rfl⟩ := hlinks l hl
      exact walk_chained method args
    have hlinked : ∀ l ∈ chain, l.isReference = false := by
      intro l hl
      obtain ⟨method, args, rfl⟩ := hlinks l hl
      rfl
    have hhead : head.role ≠ .reference := by
      rw [hrole]
      decide
    have hsub {k : Call} (hk : k ∈ kids) {d : Call} (hd : d ∈ k.walk) : d ∈ c.walk :=
      (hc.mem_walk_iff hwalk).mpr (.inr (.inr (.inr ⟨k, hk, hd⟩)))
    rw [hc.allTaken_iff hwalk hhead hlinked, hc.forall_references_iff hwalk hhead hlinked]
    obtain ⟨vs, hv, ⟨-, -, hnone⟩ | ⟨hdef, links, hcalls, hsome⟩⟩ := ownCall_eq_ok howncall
    · cases hnone
    cases hsome
    obtain ⟨blocks, hm, hflat, hb⟩ := exists_blocks hcalls
    rw [← hflat] at hc ⊢
    have hdef : scope.program.definition? s.method = none := by
      have := hown c (mem_walk_self c) (by simpa [isReference, hc.head_eq] using hhead)
      rwa [hc.head_eq] at this
    obtain ⟨pos, leading, children, invs, tail, heval, hapart⟩ :=
      exists_operands hc (method_of_mem_blocks hmem hm hb) hdef hx
    have hdiv : divide (operands scope leading ++ children) = .ok (leading, children) := by
      refine hapart.divide fun k hkid hne => ?_
      rcases (hk k hkid).plainName hne with hr | hplain
      · exact (href k (hsub hkid (mem_walk_self k)) hr).1
      · exact hplain
    have hleading : checkLeading s children = .ok () := by
      cases hchildren : children with
      | nil => rfl
      | cons a as =>
        have hplace : s.params.any Param.isChildren = true := by
          have hargs : .children ∈ placeArgs s.params vs :=
            hapart.place (hchildren ▸ List.cons_ne_nil a as)
          rw [← contains_placeArgs (map_fst_of_valuesOf hv)]
          simpa using hargs
        have haccepts : s.acceptsChildren = true := by
          refine ha ?_
          rintro rfl
          obtain ⟨xs, hops, hxs⟩ := hapart.operands
          obtain rfl := List.map_eq_nil_iff.mp hxs
          rw [hchildren] at hops
          cases hops
        rw [checkLeading, haccepts, hplace]
        rfl
    obtain ⟨xs, hops, hxs⟩ := hapart.operands
    have htried := exists_tryForms_iff_ownTaken (o := o) hmem hv
      (hapart.values.trans (flatMap_placeArgs rfl (map_fst_of_valuesOf hv))) hm hb hapart.calls
      hapart.last (fun hsome => ha (hapart.linked hsome)) hleading pos
    rw [heval, hr]
    refine ((exists_ofCall_iff hdiv _).trans htried).trans ?_
    rw [hops, exists_elements_iff, and_assoc]
    refine and_congr_right fun _ => ?_
    have hkid {k : Call} (hmem : k ∈ kids) (hne : k.isEmpty = false) {y : Expr}
        (hy : y.unplaced = k.toExpr) :=
      ih k hmem hne (fun d hd => hown d (hsub hmem hd)) (fun d hd => href d (hsub hmem hd)) hy
    constructor
    · intro hall
      have hboth : ∀ k ∈ kids, k.AllTaken ∧ ∀ d ∈ k.walk, d.isReference = true → R d.head.method := by
        intro k hmem
        cases hempty : k.isEmpty with
        | true =>
          obtain ⟨hwalk, hno, htaken⟩ := (hk k hmem).allTaken_of_isEmpty hempty
          refine ⟨fun d hd _ => ?_, fun d hd hr => ?_⟩ <;>
            rw [hwalk] at hd <;> obtain rfl := List.mem_singleton.mp hd
          · exact htaken
          · rw [hno] at hr
            cases hr
        | false =>
          have hsaid : k.toExpr ∈ xs.map Expr.unplaced :=
            hxs ▸ List.mem_map_of_mem (List.mem_filter.mpr ⟨hmem, by simp [hempty]⟩)
          obtain ⟨y, hy, hyk⟩ := List.mem_map.mp hsaid
          exact (hkid hmem hempty hyk).mp (hall y hy)
      exact ⟨fun k hmem => (hboth k hmem).1, fun k hmem => (hboth k hmem).2⟩
    · rintro ⟨htaken, hrefs⟩ y hy
      have hsaid : y.unplaced ∈ (kids.filter fun c => !c.isEmpty).map Call.toExpr :=
        hxs ▸ List.mem_map_of_mem hy
      obtain ⟨k, hmem, hyk⟩ := List.mem_map.mp hsaid
      obtain ⟨hmem, hempty⟩ := List.mem_filter.mp hmem
      exact (hkid hmem (by simpa using hempty) hyk.symm).mpr ⟨htaken k hmem, hrefs k hmem⟩

end Call.Composed

end FluentPlan
