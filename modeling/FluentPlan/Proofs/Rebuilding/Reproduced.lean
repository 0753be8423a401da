import FluentPlan.Proofs.Rebuilding.Look
import FluentPlan.Proofs.Rebuilding.Rebuilt

/-!
Elements that reproduce a call. An element that was made again, with children that reproduce those of
the call which had an effect, assembles to a call that looks like the first one.
-/

namespace FluentPlan

open Build Script Element

namespace Element

/-- Whether an element, wherever it stands, assembles to a call that looks like `c`. -/
structure Reproduces (o : Options) (c : Call) (e : Element) : Prop where
  enabled : e.enabled = true
  resolves : ∀ path, (e.resolve .standard o path).outcome = .ok ()
  assembles : ∀ path, ∃ d, (e.assemble .standard o path).outcome = .ok d ∧ c.LooksLike d

theorem Reproduces.not_drops {o : Options} {c : Call} {e : Element} (h : Reproduces o c e) :
    o.drops e = false := by
  simp [Options.drops, h.enabled]

theorem resolveAll_of_reproduces {o : Options} {cs : List Call} {es : List Element}
    (h : List.Forall₂ (Reproduces o) cs es) (path : String) :
    (resolveAll .standard o path es).outcome = .ok () := by
  induction h with
  | nil => rfl
  | cons hc _ ih => exact resolveAll_cons_of_resolve hc.not_drops (hc.resolves _) ih

theorem assembleAll_of_reproduces {o : Options} {s : Signature} {cs : List Call} {es : List Element}
    (h : List.Forall₂ (Reproduces o) cs es) (ha : cs ≠ [] → s.acceptsChildren = true)
    (path : String) :
    ∃ ds, (assembleAll .standard o s path es).outcome = .ok ds ∧
      List.Forall₂ Call.LooksLike cs ds := by
  induction h with
  | nil => exact ⟨[], rfl, .nil⟩
  | @cons c e cs es hc _ ih =>
    obtain ⟨d, hd, hlike⟩ := hc.assembles (childPath path e)
    obtain ⟨ds, hds, hall⟩ := ih fun _ => ha (List.cons_ne_nil c cs)
    exact ⟨d :: ds, assembleAll_cons_of_assemble hc.not_drops (ha (List.cons_ne_nil c cs)) hd hds,
      .cons hlike hall⟩

theorem acceptsChildren_of_assembleAll {r : Registry} {o : Options} {s : Signature} {path : String}
    {es : List Element} {calls : List Call}
    (h : (assembleAll r o s path es).outcome = .ok calls) (hne : calls ≠ []) :
    s.acceptsChildren = true := by
  induction es with
  | nil =>
    cases h
    exact absurd rfl hne
  | cons e es ih =>
    rcases assembleAll_cons_eq_ok h with ⟨-, h⟩ | ⟨-, ha, -⟩
    · exact ih h
    · exact ha

/-! ### Calls of elements -/

theorem ownCall_of_values {o : Options} {s : Signature} {e : Element}
    {vs : List (Param × Option Value)} (hv : scalarValues s e = .ok vs)
    (hd : s.emptyWhenDefault = true → allDefault vs = .ok false) {calls : List (List Call)}
    (hc : List.Forall₂ (fun m cs => modifierCalls e m = .ok cs) s.modifiers calls) :
    ownCall o s e = .ok (some (ownHead o s e (placeArgs s.params vs), calls.flatten)) := by
  have hmap := (mapM_eq_ok_iff _ _ _).mpr hc
  unfold ownCall
  rw [hv, ok_bind]
  cases he : s.emptyWhenDefault with
  | false =>
    rw [if_neg Bool.false_ne_true, hmap]
    rfl
  | true =>
    rw [if_pos rfl, hd he, hmap]
    rfl

/-- The calls of modifiers, beside the modifiers. -/
theorem exists_blocks {e : Element} {ms : List Modifier} {calls : List (List Call)}
    (h : List.Forall₂ (fun m cs => modifierCalls e m = .ok cs) ms calls) :
    ∃ blocks : List (Modifier × List Call), blocks.map Prod.fst = ms ∧
      blocks.flatMap Prod.snd = calls.flatten ∧ ∀ b ∈ blocks, modifierCalls e b.1 = .ok b.2 := by
  induction h with
  | nil => exact ⟨[], rfl, rfl, nofun⟩
  | @cons m cs ms calls hm _ ih =>
    obtain ⟨blocks, hfst, hsnd, hall⟩ := ih
    refine ⟨(m, cs) :: blocks, by rw [List.map_cons, hfst], ?_, fun b hb => ?_⟩
    · rw [List.flatMap_cons, hsnd, List.flatten_cons]
    · rcases List.mem_cons.mp hb with rfl | hb
      · exact hm
      · exact hall b hb

end Element

/-- No modifier of the catalog takes children, and each has all its arguments in code. -/
theorem Registry.modifiers_standard : ∀ s ∈ Registry.standard.signatures, ∀ m ∈ s.modifiers,
    m.method ≠ childrenMethod ∧ ∀ p ∈ m.params, p.isChildren = false ∧ p.mandatory = true := by
  decide

namespace Rebuilt

variable {s t : Signature} {e e' : Element} {vs : List (Param × Option Value)}
  {blocks : List (Modifier × List Call)} {ops : List Operand} {o : Options}

/-- What the form of a new element writes of it: arguments and chained calls that look as those said. -/
theorem exists_ownCall (h : Rebuilt s t vs blocks ops e') (hs : s ∈ Registry.standard.signatures)
    (hm : blocks.map Prod.fst = s.modifiers)
    (hd : s.emptyWhenDefault = true → allDefault vs = .ok false) :
    ∃ ws chain, ownCall o t e' = .ok (some (ownHead o t e' (placeArgs t.params ws), chain)) ∧
      AllAlike vs ws ∧ ws.map Prod.fst = t.scalarParams ∧
      List.Forall₂ Call.LinksLike (blocks.flatMap Prod.snd) chain := by
  obtain ⟨ws, hws, halike, hfst⟩ := h.restored.scalars
  obtain ⟨dss, hdss⟩ := h.restored.calls
  have hlinks {m : Modifier} (hmem : m ∈ s.modifiers) {c d : Call} (hcd : Echoes m c d) :
      c.LinksLike d :=
    linksLike_of_echoes (fun p hp hk => by
      simpa [Param.isChildren, hk] using ((Registry.modifiers_standard s hs m hmem).2 p hp).1) hcd
  refine ⟨ws, dss.flatten, ?_, halike, hfst, ?_⟩
  · refine ownCall_of_values hws (fun he => ?_) ?_
    · rw [allDefault_of_allAlike halike, hd (h.resembles.effect ▸ he)]
    · rw [h.resembles.modifiers, ← hm, List.forall₂_map_left_iff]
      exact hdss.imp fun b ds hb => hb.1
  · rw [List.flatMap_def]
    refine List.rel_flatten ?_
    rw [List.forall₂_map_left_iff]
    refine (forall₂_mem hdss).imp fun b ds hb => ?_
    exact hb.2.2.2.imp fun c d hcd => hlinks (hm ▸ List.mem_map_of_mem hb.1) hcd

/-- An element that was made again, with children that reproduce the calls with an effect, reproduces
the call of the first element. -/
theorem reproduces (h : Rebuilt s t vs blocks ops e') (hs : s ∈ Registry.standard.signatures)
    (hen : e.enabled = true) (hv : scalarValues s e = .ok vs)
    (hm : blocks.map Prod.fst = s.modifiers)
    (hd : s.emptyWhenDefault = true → allDefault vs = .ok false) {calls : List Call}
    (ha : calls ≠ [] → s.acceptsChildren = true)
    (hc : List.Forall₂ (Reproduces o)
      ((Call.order o.categories calls).filter fun c => !c.isEmpty) e'.children) :
    Reproduces o (withChildren o s (ownHead o s e (placeArgs s.params vs))
      (blocks.flatMap Prod.snd) calls) e' := by
  obtain ⟨ws, chain, hown, halike, hfst, hlinks⟩ := h.exists_ownCall (o := o) hs hm hd
  obtain ⟨kind, name, enabled, properties, children⟩ := e'
  have hheads : HeadsLike (ownHead o s e (placeArgs s.params vs))
      (ownHead o t ⟨kind, name, enabled, properties, children⟩ (placeArgs t.params ws)) := by
    have hvs : vs.map Prod.fst = s.params.filter fun p => !p.isChildren := map_fst_of_valuesOf hv
    have hws : ws.map Prod.fst = t.params.filter fun p => !p.isChildren := hfst
    refine ⟨h.resembles.method, h.resembles.category, ⟨rfl, rfl⟩, ⟨?_, ?_⟩, fun style lead => ?_, ?_⟩
    · simp [ownHead, hen]
    · simp [ownHead, show enabled = true from h.enabled]
    · exact (scalars_placeArgs hws style lead).trans
        ((scalars_of_allAlike halike style lead).trans (scalars_placeArgs hvs style lead).symm)
    · exact (contains_placeArgs hws).trans
        (h.resembles.place.trans (contains_placeArgs hvs).symm)
  have haccepts : (Call.order o.categories calls).filter (fun c => !c.isEmpty) ≠ [] →
      t.acceptsChildren = true := by
    intro hne
    have hmode : t.acceptsChildren = s.acceptsChildren := by
      rw [Signature.acceptsChildren, Signature.acceptsChildren, h.resembles.mode]
    rw [hmode]
    refine ha fun hnil => hne ?_
    rw [hnil]
    simp [Call.order, orderBy]
  refine ⟨h.enabled, fun path => ?_, fun path => ?_⟩
  · exact resolve_of_resolve? h.resolved (resolveAll_of_reproduces hc path)
  · obtain ⟨kids, hkids, hlike⟩ := assembleAll_of_reproduces hc haccepts path
    exact ⟨_, assemble_of_ownCall h.resolved hown hkids,
      looksLike_withChildren h.resembles.mode hheads hlinks hlike⟩

end Rebuilt

end FluentPlan
