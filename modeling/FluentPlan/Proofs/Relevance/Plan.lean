import Mathlib.Data.List.Find
import FluentPlan.Conversion
import FluentPlan.Proofs.Relevance.Reading

/-!
Properties without influence. Resolution and assembly look at a property of an element only if a
signature for its kind mentions the key, so plans that differ in other properties, or in the order in
which properties come, are converted alike: to the same code or to the same failure.
-/

namespace FluentPlan

/-- Plans of the same shape whose elements have the same properties under the keys that the
signatures for their kinds mention. Other properties may differ, as may the order of all. -/
inductive AlikeFor (r : Registry) : Element → Element → Prop
  | node {kind : String} {name : Option String} {enabled : Bool} {properties properties' : Properties}
    {children children' : List Element}
    (h : ∀ key, r.mentions kind key = true → properties.get? key = properties'.get? key)
    (hc : List.Forall₂ (AlikeFor r) children children') :
    AlikeFor r ⟨kind, name, enabled, properties, children⟩
      ⟨kind, name, enabled, properties', children'⟩

/-! ### Resolution -/

namespace Guard

mutual

theorem accepts_of_keys {p q : Properties} : (g : Guard) →
    (∀ key ∈ g.keys, p.get? key = q.get? key) → g.accepts p = g.accepts q
  | equals k v, h => by rw [accepts, accepts, h k (by simp [keys])]
  | isIn k vs, h => by rw [accepts, accepts, h k (by simp [keys])]
  | not g, h => by
    have hg := accepts_of_keys g fun key hk => h key (by simpa [keys] using hk)
    rw [accepts, accepts, hg]
  | all gs, h => by
    have hgs := acceptsAll_of_keys gs fun key hk => h key (by simpa [keys] using hk)
    rw [accepts, accepts, hgs]

theorem acceptsAll_of_keys {p q : Properties} : (gs : List Guard) →
    (∀ key ∈ keysAll gs, p.get? key = q.get? key) → acceptsAll p gs = acceptsAll q gs
  | [], _ => rfl
  | g :: gs, h => by
    have hg := accepts_of_keys g fun key hk => h key (by simp [keysAll, hk])
    have hgs := acceptsAll_of_keys gs fun key hk => h key (by simp [keysAll, hk])
    rw [acceptsAll, acceptsAll, hg, hgs]

end

theorem accepts_of_agreeOn {g : Guard} {p q : Properties} (h : Properties.AgreeOn g.mentions p q) :
    g.accepts p = g.accepts q :=
  accepts_of_keys g fun key hk => h.get? key (by simp [mentions, hk])

end Guard

namespace Signature

variable {s : Signature} {p q : Properties}

theorem exact_mem_mentions {key : String} (h : key ∈ s.requiredKeys) : .exact key ∈ s.mentions := by
  rw [requiredKeys, Text.mem_sortedDistinct, List.mem_filterMap] at h
  obtain ⟨x, hx, hk⟩ := h
  split_ifs at hk
  obtain ⟨hk, -⟩ := Option.filter_eq_some_iff.mp hk
  have hmem : .exact key ∈ x.mentions "" := by simp [Param.mentions, hk]
  rcases List.mem_append.mp hx with hx | hx
  · exact List.mem_append_left _ (List.mem_append_right _ (List.mem_flatMap.mpr ⟨x, hx, hmem⟩))
  · obtain ⟨m, hm, hx⟩ := List.mem_flatMap.mp hx
    refine List.mem_append_right _ (List.mem_flatMap.mpr ⟨m, hm, ?_⟩)
    exact List.mem_append_left _ (List.mem_append_right _ (List.mem_flatMap.mpr ⟨x, hx, hmem⟩))

theorem guard_mentions_subset {g : Guard} (hg : s.guard = some g) : g.mentions ⊆ s.mentions := by
  intro a ha
  refine List.mem_append_left _ (List.mem_append_left _ (List.mem_flatMap.mpr ⟨g, ?_, ha⟩))
  rw [hg]
  exact List.mem_singleton.mpr rfl

/-- What an element does not meet is a key that the signature mentions. -/
theorem exact_mem_of_unmet? {key : String} (h : s.unmet? p = some key) : .exact key ∈ s.mentions := by
  unfold unmet? at h
  split at h
  · next k hk =>
    cases h
    exact exact_mem_mentions (List.mem_of_find?_eq_some hk)
  · split at h
    · next g hg =>
      split_ifs at h
      cases h
      exact guard_mentions_subset hg (by simp [Guard.mentions])
    · cases h

theorem unmet?_congr (h : Properties.AgreeOn s.mentions p q) : s.unmet? p = s.unmet? q := by
  have hfind : s.requiredKeys.find? (fun k => !p.contains k) =
      s.requiredKeys.find? fun k => !q.contains k := by
    refine List.find?_congr fun key hk => ?_
    rw [Properties.contains, Properties.contains, h.get? _ (exact_mem_mentions hk)]
  have hguard {g : Guard} (hg : s.guard = some g) : g.accepts p = g.accepts q :=
    Guard.accepts_of_agreeOn (h.of_subset (guard_mentions_subset hg))
  unfold unmet?
  rw [hfind]
  split
  · rfl
  · split
    · next g hg => rw [hguard hg]
    · rfl

end Signature

namespace Registry

theorem choose_congr {p q : Properties} {ss : List Signature}
    (h : ∀ s ∈ ss, s.unmet? p = s.unmet? q) (reason : Option String) :
    choose p reason ss = choose q reason ss := by
  induction ss generalizing reason with
  | nil => rfl
  | cons s ss ih =>
    rw [choose, choose, h s List.mem_cons_self]
    cases s.unmet? q with
    | none => rfl
    | some key => exact ih (fun t ht => h t (List.mem_cons_of_mem s ht)) _

/-- The reason against the signatures is a key that one of them is not met for. -/
theorem exists_of_choose_eq_error {p : Properties} {ss : List Signature} {reason : Option String}
    {key : String} (h : choose p reason ss = .error (some key)) :
    reason = some key ∨ ∃ s ∈ ss, s.unmet? p = some key := by
  induction ss generalizing reason with
  | nil =>
    cases h
    exact .inl rfl
  | cons s ss ih =>
    rw [choose] at h
    cases hs : s.unmet? p with
    | none =>
      rw [hs] at h
      cases h
    | some k =>
      rw [hs] at h
      rcases ih h with hr | ⟨t, ht, hk⟩
      · cases hf : reason.filter fun k => !k.isEmpty with
        | some l =>
          rw [hf] at hr
          cases hr
          exact .inl (Option.filter_eq_some_iff.mp hf).1
        | none =>
          rw [hf] at hr
          cases hr
          exact .inr ⟨s, List.mem_cons_self, hs⟩
      · exact .inr ⟨t, List.mem_cons_of_mem s ht, hk⟩

theorem agreeOn_mentions {r : Registry} {kind : String} {p q : Properties}
    (h : ∀ key, r.mentions kind key = true → p.get? key = q.get? key) {s : Signature}
    (hs : s ∈ r.forKind kind) : Properties.AgreeOn s.mentions p q :=
  fun key hk => h key (List.any_eq_true.mpr ⟨s, hs, hk⟩)

/-- An element resolves by the properties that the signatures for its kind mention. A refusal names
one of them and its value. -/
theorem resolve?_congr {r : Registry} {e e' : Element} (hk : e.kind = e'.kind)
    (h : ∀ key, r.mentions e.kind key = true →
      e.properties.get? key = e'.properties.get? key) : r.resolve? e = r.resolve? e' := by
  have hagree {s : Signature} (hs : s ∈ r.forKind e.kind) := agreeOn_mentions h hs
  unfold resolve?
  rw [← hk]
  cases hss : r.forKind e.kind with
  | nil => rfl
  | cons s ss =>
    rw [hss] at hagree
    have hchoose := choose_congr (fun t ht => Signature.unmet?_congr (hagree ht)) none
    dsimp only
    rw [← hchoose]
    cases hc : choose e.properties none (s :: ss) with
    | ok t => rfl
    | error reason =>
      cases reason with
      | none => rfl
      | some key =>
        rcases exists_of_choose_eq_error hc with hno | ⟨t, ht, hu⟩
        · cases hno
        · dsimp only
          rw [(hagree ht).get? _ (Signature.exact_mem_of_unmet? hu)]

end Registry

/-! ### Calls -/

namespace Element

variable {e e' : Element}

theorem eq_of_indexIn?_eq_error {base key : String} {f : Failure}
    (h : indexIn? base key = .error f) : f = .fault .indexWithoutValue := by
  unfold indexIn? at h
  split at h
  · cases h
  · dsimp only at h
    split at h
    · cases hi : Param.indexValue _ <;> rw [hi] at h <;> cases h
      exact Param.eq_of_indexValue_eq_error hi
    · cases h

/-- Indices are found below a collection only. -/
theorem findings_indexIn? (base : String) (p : Properties) :
    findings (indexIn? base) p.keys =
      findings (indexIn? base) ((p.entries.filter fun x => inRegion [.below base] x.1).map Prod.fst) := by
  have hoff : ∀ key, inRegion [.below base] key = false → indexIn? base key = .ok none := by
    intro key hk
    have hnone : Param.behind? base key = none := by simpa [inRegion, KeyPattern.covers] using hk
    rw [indexIn?, hnone]
  rw [← findings_filter hoff, Properties.keys, List.filter_map]
  rfl

theorem indices_eq_findings (p : Properties) (each : String) : indices p each "" =
    (findings (indexIn? (each ++ "/")) p.keys).map fun found =>
      found.eraseDups.mergeSort fun a b => decide (a ≤ b) := by
  rw [indices, findings, show "" ++ each ++ "/" = each ++ "/" by simp]
  cases p.keys.mapM (indexIn? (each ++ "/")) <;> rfl

/-- The same indices come in one order, each of them once. -/
theorem mergeSort_eraseDups_eq_of_perm {is js : List Nat} (h : is.Perm js) :
    (is.eraseDups.mergeSort fun a b => decide (a ≤ b)) =
      js.eraseDups.mergeSort fun a b => decide (a ≤ b) := by
  have hdups : is.eraseDups.Perm js.eraseDups :=
    (List.perm_ext_iff_of_nodup (nodup_eraseDups is) (nodup_eraseDups js)).mpr
      fun i => by rw [List.mem_eraseDups, List.mem_eraseDups, h.mem_iff]
  refine mergeSort_eq_of_perm (fun a b c hab hbc => ?_) (fun a b => ?_) (fun a b hab hba => ?_) hdups
  · simp only [decide_eq_true_eq] at hab hbc ⊢
    exact Nat.le_trans hab hbc
  · simpa using Nat.le_total a b
  · simp only [decide_eq_true_eq] at hab hba
    exact Nat.le_antisymm hab hba

theorem indices_congr {p q : Properties} {each : String}
    (h : Properties.AgreeOn [.below (each ++ "/")] p q) : indices p each "" = indices q each "" := by
  rw [indices_eq_findings, indices_eq_findings, findings_indexIn?, findings_indexIn? _ q]
  have herror (key : String) (f : Failure) (hf : indexIn? (each ++ "/") key = .error f) :
      f = .fault .indexWithoutValue := eq_of_indexIn?_eq_error hf
  have hsame := findings_perm herror (h.filter_perm.map Prod.fst)
  revert hsame
  generalize findings _ _ = x
  generalize findings _ _ = y
  rintro (⟨hp⟩ | f)
  · exact congrArg Except.ok (mergeSort_eraseDups_eq_of_perm hp)
  · rfl

theorem mapM_congr {α β : Type} {f g : α → Except Failure β} {xs : List α}
    (h : ∀ a ∈ xs, f a = g a) : xs.mapM f = xs.mapM g := by
  induction xs with
  | nil => rfl
  | cons a xs ih =>
    rw [List.mapM_cons, List.mapM_cons, h a List.mem_cons_self,
      ih fun b hb => h b (List.mem_cons_of_mem a hb)]

theorem valuesOf_congr {lead : String} {ps : List Param} (hn : e.name = e'.name)
    (h : ∀ p ∈ ps, Properties.AgreeOn (p.mentions lead) e.properties e'.properties) :
    valuesOf e lead ps = valuesOf e' lead ps := by
  unfold valuesOf
  refine mapM_congr fun p hp => ?_
  rw [Param.valueOf_congr hn (h p hp)]

/-- All that a parameter mentions in an entry of a collection stands below the collection. -/
theorem below_of_mentions {p : Param} {each : String} {i : Nat} {key : String}
    (h : inRegion (p.mentions (entryLead each i)) key = true) :
    inRegion [.below (each ++ "/")] key = true := by
  obtain ⟨tail, rfl⟩ := p.exists_eq_append h
  have hassoc : entryLead each i ++ tail = each ++ "/" ++ (toString i ++ "/" ++ tail) := by
    simp [entryLead, String.append_assoc]
  rw [hassoc, inRegion, List.any_cons, KeyPattern.covers, behind?_append]
  rfl

theorem modifierCalls_congr {m : Modifier} (hn : e.name = e'.name)
    (h : Properties.AgreeOn m.mentions e.properties e'.properties) :
    modifierCalls e m = modifierCalls e' m := by
  have hguard : (m.guard.any fun g => !g.accepts e.properties) =
      m.guard.any fun g => !g.accepts e'.properties := by
    cases hg : m.guard with
    | none => rfl
    | some g =>
      have hsub : g.mentions ⊆ m.mentions := fun a ha => by simp [Modifier.mentions, hg, ha]
      simp only [Option.any_some, Guard.accepts_of_agreeOn (h.of_subset hsub)]
  have hvalues : valuesOf e "" m.params = valuesOf e' "" m.params := by
    refine valuesOf_congr hn fun p hp => h.of_subset fun a ha => ?_
    refine List.mem_append_left _ (List.mem_append_right _ ?_)
    exact List.mem_flatMap.mpr ⟨p, hp, ha⟩
  unfold modifierCalls
  rw [hguard]
  cases he : m.each with
  | none => rw [hvalues]
  | some each =>
    have hbelow : Properties.AgreeOn [.below (each ++ "/")] e.properties e'.properties :=
      h.of_subset fun a ha => by
        rw [List.mem_singleton.mp ha]
        simp [Modifier.mentions, he]
    have hentry (i : Nat) : valuesOf e (entryLead each i) m.params =
        valuesOf e' (entryLead each i) m.params :=
      valuesOf_congr hn fun p _ => hbelow.mono fun _ => below_of_mentions
    simp only [indices_congr hbelow, hentry]

theorem childPath_congr (h : e.label = e'.label) (path : String) :
    childPath path e = childPath path e' := by
  rw [childPath, childPath, h]

theorem ownCall_congr {o : Options} {s : Signature} (hn : e.name = e'.name)
    (he : e.enabled = e'.enabled) (h : Properties.AgreeOn s.mentions e.properties e'.properties) :
    ownCall o s e = ownCall o s e' := by
  have hvalues : scalarValues s e = scalarValues s e' := by
    refine valuesOf_congr hn fun p hp => h.of_subset fun a ha => ?_
    refine List.mem_append_left _ (List.mem_append_right _ ?_)
    exact List.mem_flatMap.mpr ⟨p, (List.mem_filter.mp hp).1, ha⟩
  have hchain : s.modifiers.mapM (modifierCalls e) = s.modifiers.mapM (modifierCalls e') := by
    refine mapM_congr fun m hm => modifierCalls_congr hn (h.of_subset fun a ha => ?_)
    exact List.mem_append_right _ (List.mem_flatMap.mpr ⟨m, hm, ha⟩)
  have hhead (args : List Arg) : ownHead o s e args = ownHead o s e' args := by
    simp only [ownHead, hn, he]
  simp only [ownCall, hvalues, hchain, hhead]

end Element

/-! ### Plans -/

theorem Logged.ofExcept_ok_bind {α β : Type} (a : α) (f : α → Logged β) :
    (Logged.ofExcept (.ok a) >>= f) = f a := rfl

namespace AlikeFor

variable {r : Registry} {o : Options} {e e' : Element}

theorem kind_eq (h : AlikeFor r e e') : e.kind = e'.kind := by
  cases h
  rfl

theorem label_eq (h : AlikeFor r e e') : e.label = e'.label := by
  cases h
  rfl

theorem drops_eq (h : AlikeFor r e e') : o.drops e = o.drops e' := by
  cases h
  rfl

theorem resolve?_eq (h : AlikeFor r e e') : r.resolve? e = r.resolve? e' := by
  cases h with
  | node h _ => exact Registry.resolve?_congr rfl h

theorem ownCall_eq (h : AlikeFor r e e') {s : Signature} (hs : r.resolve? e = .ok s) :
    Element.ownCall o s e = Element.ownCall o s e' := by
  obtain ⟨hm, hkind, -⟩ := Registry.resolve?_eq_ok hs
  cases h with
  | node h _ =>
    have hagree := Registry.agreeOn_mentions h (Registry.mem_forKind.mpr ⟨hm, hkind⟩)
    exact Element.ownCall_congr rfl rfl hagree

end AlikeFor

namespace Element

variable {r : Registry} {o : Options}

mutual

theorem resolve_congr : (e : Element) → ∀ {e' : Element} {path : String}, AlikeFor r e e' →
    resolve r o path e = resolve r o path e'
  | ⟨kind, name, enabled, properties, children⟩, e', path, h => by
    have hkind := h.kind_eq
    have hresolve := h.resolve?_eq
    cases h with
    | node _ hc =>
      rw [resolve, resolve, resolveAll_congr children hc, Registry.resolve, Registry.resolve,
        hresolve]

theorem resolveAll_congr : (es : List Element) → ∀ {es' : List Element} {path : String},
    List.Forall₂ (AlikeFor r) es es' → resolveAll r o path es = resolveAll r o path es'
  | [], _, path, h => by
    cases h
    rfl
  | e :: es, _, path, h => by
    cases h with
    | cons he hes =>
      rw [resolveAll, resolveAll, resolveAll_congr es hes, resolve_congr e he,
        childPath_congr he.label_eq, he.drops_eq]

end

mutual

theorem assemble_congr : (e : Element) → ∀ {e' : Element} {path : String}, AlikeFor r e e' →
    assemble r o path e = assemble r o path e'
  | ⟨kind, name, enabled, properties, children⟩, e', path, h => by
    have hresolve := h.resolve?_eq
    cases h with
    | node hp hc =>
      rw [assemble, assemble, ← hresolve]
      cases hs : r.resolve? ⟨kind, name, enabled, properties, children⟩ with
      | error f => rfl
      | ok s =>
        have hown : ownCall o s _ = ownCall o s _ := (AlikeFor.node hp hc).ownCall_eq hs
        simp only [Logged.ofExcept_ok_bind, hown, assembleAll_congr children hc]

theorem assembleAll_congr {s : Signature} : (es : List Element) →
    ∀ {es' : List Element} {path : String}, List.Forall₂ (AlikeFor r) es es' →
    assembleAll r o s path es = assembleAll r o s path es'
  | [], _, path, h => by
    cases h
    rfl
  | e :: es, _, path, h => by
    cases h with
    | cons he hes =>
      rw [assembleAll, assembleAll, assembleAll_congr es hes, assemble_congr e he,
        childPath_congr he.label_eq, he.drops_eq, he.kind_eq]

end

end Element

end FluentPlan
