import FluentPlan.Proofs.Code.Agreement
import FluentPlan.Proofs.Fault.Conversion

/-!
Disabled elements. They are dropped, or their calls are commented out. Either way the code that is
left says the same, except that `children` may be called without any.
-/

namespace FluentPlan

open Script Text

/-- The same options, but with disabled elements dropped. -/
def Options.dropping (o : Options) : Options := { o with commentDisabled := false }

/-! ### What is shown of child calls -/

namespace Call

/-- Whether the code of a child call has more than a comment. -/
def isShown (c : Call) : Bool := !(c.isEmpty || c.head.commented)

theorem shownExprs_eq_map (cs : List Call) :
    shownExprs cs = (cs.filter isShown).map shownExpr := by
  induction cs with
  | nil => rw [shownExprs]; rfl
  | cons c cs ih =>
    rw [shownExprs, ih]
    cases h : c.isEmpty || c.head.commented <;> simp [isShown, h]

/-- What is shown of child calls, with the categories that they are ordered by. -/
def views (cs : List Call) : List (String × Expr) :=
  (cs.filter isShown).map fun c => (c.head.category, c.shownExpr.pruned)

theorem views_cons (c : Call) (cs : List Call) :
    views (c :: cs) =
      if c.isShown then (c.head.category, c.shownExpr.pruned) :: views cs else views cs := by
  cases h : c.isShown <;> simp [views, h]

theorem pruned_shownExprs (cs : List Call) :
    Expr.prunedAll (shownExprs cs) = (views cs).map Prod.snd := by
  simp [shownExprs_eq_map, Expr.prunedAll_eq_map, views]

theorem views_order (categories : List String) (cs : List Call) :
    views (Call.order categories cs) = orderBy Prod.fst categories (views cs) := by
  rw [views, Call.order, orderBy_filter]
  exact orderBy_map _ Prod.fst categories _

/-- A chained call of `children`, unless it has none. -/
def childrenLink (es : List Expr) : List (Invocation Expr) :=
  if es = [] then [] else [⟨.start, "children", es⟩]

theorem shownChain_append (cs ds : List Call) :
    shownChain (cs ++ ds) = shownChain cs ++ shownChain ds := by
  induction cs with
  | nil => simp [shownChain]
  | cons c cs ih =>
    obtain ⟨head, children, chain⟩ := c
    rw [List.cons_append, shownChain, shownChain, ih]
    split <;> rfl

theorem pruned_shownChain_chainedChildren (cs : List Call) :
    Expr.prunedChain (shownChain [chainedChildren cs]) =
      childrenLink (Expr.prunedAll (shownExprs cs)) := by
  have hnil : cs.all (·.isEmpty) = true → shownExprs cs = [] := by
    intro h
    rw [shownExprs_eq_map, List.filter_eq_nil_iff.mpr, List.map_nil]
    intro c hc
    have := List.all_eq_true.mp h c hc
    simp [isShown, this]
  simp only [chainedChildren, shownChain, isBare, Arg.exprs, List.flatMap_cons, List.flatMap_nil,
    List.append_nil, List.isEmpty_nil, Bool.true_and, decide_true, List.nil_append]
  cases hall : cs.all (·.isEmpty) with
  | true => simp [hnil hall, Expr.prunedChain, Expr.prunedAll, childrenLink]
  | false =>
    cases hes : shownExprs cs with
    | nil => simp [Expr.prunedChain, Expr.prunedAll, childrenLink]
    | cons e es => simp [Expr.prunedChain, Expr.prunedAll, childrenLink]

end Call

/-! ### Assembly -/

namespace Element

open Call

/-- Whether child calls go into a chained call. -/
def chainsChildren (s : Signature) (head : CallHead) (chain : List Call) : Bool :=
  s.childrenMode = "chain" || (s.childrenMode = "auto" && !chain.isEmpty) ||
    !head.args.contains .children

theorem pruned_shownExpr_withChildren (o : Options) (s : Signature) (head : CallHead)
    (chain calls : List Call) : (withChildren o s head chain calls).shownExpr.pruned =
      let as := Expr.prunedAll (head.args.flatMap Arg.exprs)
      let es := (orderBy Prod.fst o.categories (views calls)).map Prod.snd
      let links := Expr.prunedChain (shownChain chain)
      if chainsChildren s head chain then .call ⟨.start, head.method, as⟩ (links ++ childrenLink es)
      else .call ⟨.start, head.method, as ++ es⟩ links := by
  rw [← views_order, ← pruned_shownExprs]
  cases calls with
  | nil =>
    have horder : Call.order o.categories [] = [] := List.mergeSort_nil
    simp [withChildren, horder, shownExpr, shownExprs, Expr.pruned, Expr.prunedAll, childrenLink]
  | cons c cs =>
    simp only [withChildren, List.isEmpty_cons, Bool.false_eq_true, if_false, attach]
    rw [← chainsChildren]
    split_ifs
    · rw [shownExpr, Expr.pruned, shownChain_append, Expr.prunedChain_append,
        pruned_shownChain_chainedChildren]
      simp [shownExprs]
    · rw [shownExpr, Expr.pruned, Expr.prunedAll_eq_map, List.map_append,
        ← Expr.prunedAll_eq_map, ← Expr.prunedAll_eq_map]

theorem hasDottedClasses_withChildren {o : Options} {s : Signature} {head : CallHead}
    {chain calls calls' : List Call} (h : (withChildren o s head chain calls).HasDottedClasses)
    (hcalls : ∀ c ∈ calls', c.HasDottedClasses) :
    (withChildren o s head chain calls').HasDottedClasses := by
  intro d hd
  rcases mem_walk_withChildren hd with he | ⟨l, hl, hd⟩ | ⟨k, hk, hd⟩ | ⟨children, rfl⟩
  · intro a ha
    exact h.arg (by simpa [he] using ha)
  · exact (h.link (mem_chain_withChildren hl)) d hd
  · exact hcalls k hk d hd
  · intro a ha
    rw [List.mem_singleton.mp ha]
    trivial

theorem ownCall_dropping (o : Options) (s : Signature) (e : Element) :
    ownCall o.dropping s e = ownCall o s e := rfl

theorem withChildren_dropping (o : Options) (s : Signature) (head : CallHead)
    (chain calls : List Call) :
    withChildren o.dropping s head chain calls = withChildren o s head chain calls := rfl

variable {r : Registry} {o : Options}

theorem isShown_of_head {c d : Call} (h : d.head = c.head) : d.isShown = c.isShown := by
  simp only [isShown, isEmpty, h]

/-- Nothing is shown of an element that is disabled. -/
theorem isShown_of_disabled {e : Element} (he : e.enabled = false) {path : String} {c : Call}
    (h : (assemble r o path e).outcome = .ok c) : c.isShown = false := by
  obtain ⟨kind, name, enabled, properties, children⟩ := e
  have he : enabled = false := he
  obtain ⟨s, -, ⟨-, rfl⟩ | ⟨head, chain, calls, hown, -, rfl⟩⟩ := assemble_eq_ok h
  · rfl
  · obtain ⟨values, -, ⟨-, -, hsome⟩ | ⟨-, links, -, hsome⟩⟩ := ownCall_eq_ok hown
    · cases hsome
    · cases hsome
      simp [isShown, ownHead, he]

mutual

/-- The call of an element with what is disabled below it dropped: what is shown of it is the same. -/
theorem exists_assemble_dropping : (e : Element) → ∀ {path : String} {c : Call},
    (assemble r o path e).outcome = .ok c → ∃ d, (assemble r o.dropping path e).outcome = .ok d ∧
      d.head = c.head ∧ d.shownExpr.pruned = c.shownExpr.pruned ∧
      (c.HasDottedClasses → d.HasDottedClasses)
  | ⟨kind, name, enabled, properties, children⟩ => by
    intro h
    obtain ⟨s, hs, ⟨hown, rfl⟩ | ⟨head, chain, calls, hown, hcalls, rfl⟩⟩ := assemble_eq_ok h
    · exact ⟨_, assemble_of_ownCall_none hs (by rwa [ownCall_dropping]), rfl, rfl, id⟩
    · obtain ⟨calls', hcalls', hviews, hdotted⟩ := exists_assembleAll_dropping children hcalls
      refine ⟨_, assemble_of_ownCall hs (by rwa [ownCall_dropping]) hcalls', by simp, ?_, fun hd => ?_⟩
      · rw [withChildren_dropping, pruned_shownExpr_withChildren, pruned_shownExpr_withChildren, hviews]
      · exact hasDottedClasses_withChildren hd
          (hdotted fun c hc d hm => hd d (walk_subset_withChildren hc hm))

theorem exists_assembleAll_dropping {s : Signature} : (es : List Element) →
    ∀ {path : String} {calls : List Call}, (assembleAll r o s path es).outcome = .ok calls →
      ∃ calls', (assembleAll r o.dropping s path es).outcome = .ok calls' ∧
        views calls' = views calls ∧
        ((∀ c ∈ calls, c.HasDottedClasses) → ∀ c ∈ calls', c.HasDottedClasses)
  | [] => by
    intro h
    cases h
    exact ⟨[], rfl, rfl, fun _ => nofun⟩
  | e :: es => by
    intro h
    rcases assembleAll_cons_eq_ok h with ⟨hdrop, h⟩ | ⟨-, hacc, c, cs, hc, hcs, rfl⟩
    · have hdrop : o.dropping.drops e = true := by
        simp only [Options.drops, Bool.and_eq_true] at hdrop
        simp [Options.drops, Options.dropping, hdrop.1]
      rw [assembleAll_cons_of_drops hdrop]
      exact exists_assembleAll_dropping es h
    · obtain ⟨calls', hcalls', hviews, hdotted⟩ := exists_assembleAll_dropping es hcs
      cases he : e.enabled with
      | false =>
        rw [assembleAll_cons_of_drops (by simp [Options.drops, Options.dropping, he])]
        refine ⟨calls', hcalls', ?_, fun hd => hdotted fun c hc => hd c (List.mem_cons_of_mem _ hc)⟩
        rw [hviews, views_cons, isShown_of_disabled he hc]
        rfl
      | true =>
        obtain ⟨d, hd, hhead, hexpr, hdot⟩ := exists_assemble_dropping e hc
        refine ⟨d :: calls', assembleAll_cons_of_assemble (by simp [Options.drops, he]) hacc hd hcalls',
          ?_, fun hall k hk => ?_⟩
        · rw [views_cons, views_cons, isShown_of_head hhead, hhead, hexpr, hviews]
        · rcases List.mem_cons.mp hk with rfl | hk
          · exact hdot (hall c List.mem_cons_self)
          · exact hdotted (fun c hc => hall c (List.mem_cons_of_mem _ hc)) k hk

end

mutual

/-- Signatures are found for all that is not dropped, if they are found for all. -/
theorem resolve_dropping : (e : Element) → ∀ {path : String},
    (resolve r o path e).outcome = .ok () → (resolve r o.dropping path e).outcome = .ok ()
  | ⟨kind, name, enabled, properties, children⟩ => by
    intro h
    obtain ⟨s, hs, h⟩ := resolve_eq_ok h
    exact resolve_of_resolve? hs (resolveAll_dropping children h)

theorem resolveAll_dropping : (es : List Element) → ∀ {path : String},
    (resolveAll r o path es).outcome = .ok () → (resolveAll r o.dropping path es).outcome = .ok ()
  | [] => fun h => h
  | e :: es => by
    intro h
    obtain ⟨he, hes⟩ := resolveAll_cons_eq_ok h
    have hes := resolveAll_dropping es hes
    cases hen : e.enabled with
    | false => rwa [resolveAll_cons_of_drops (by simp [Options.drops, Options.dropping, hen])]
    | true =>
      have he := resolve_dropping e (he (by simp [Options.drops, hen]))
      exact resolveAll_cons_of_resolve (by simp [Options.drops, hen]) he hes

end

end Element

/-! ### Conversions -/

namespace Conversion

/-- The conversion that options ask for begins with the catalog or a part of it. -/
theorem ofOptions_eq_ok {o : Options} {c : Conversion} (h : (ofOptions o).outcome = .ok c) :
    ∃ r, (registryFor o).outcome = .ok r ∧ create r o = .ok c := by
  unfold ofOptions at h
  rw [Logged.outcome_bind] at h
  exact exists_of_bind_eq_ok h

theorem signatures_registryFor_subset {o : Options} {r : Registry}
    (h : (registryFor o).outcome = .ok r) : r.signatures ⊆ Registry.standard.signatures := by
  unfold registryFor at h
  split at h
  · cases h
    exact List.Subset.refl _
  · exact Registry.signatures_build_subset h

end Conversion

end FluentPlan
