import FluentPlan.Proofs.Rebuilding.Rebuilt

/-!
Which form takes the code of a thread group. The forms that chain their settings are told apart by what
is chained. Of those that take them as arguments the last argument tells, if it is a literal: a number
or a duration. A reference to a variable may be either, and the form with a duration is tried first; so
it also takes the code of groups that run a number of times.
-/

namespace FluentPlan

open Build Script Element Catalog Catalog.Plan

namespace Catalog.Plan

/-- The form that takes the code of an element by the form `s`. -/
def formAgain (s : Signature) (e : Element) : Signature :=
  if s = threadGroup ∧ (e.properties.get? loopCount).any isDynamic = true then durationThreadGroup
  else s

end Catalog.Plan

/-! ### Values that refer to no variable -/

namespace Param

/-- A text that refers to no variable is read as a value of the kind, or there is the default. -/
theorem parse_static {p : Param} {raw : Option String} (hraw : raw.any isDynamic = false)
    {v : Option Value} (h : p.parse raw = .ok v) :
    v = p.default ∨ ∃ w, v = some w ∧ p.kind.fits w = true := by
  unfold parse at h
  split at h
  · cases h
    exact .inl rfl
  · next r =>
    split_ifs at h with he hd
    · cases h
      exact .inl rfl
    · rw [Option.any_some, hd] at hraw
      cases hraw
    · split at h
      · next w hr =>
        cases h
        exact .inr ⟨w, rfl, ParamKind.fits_of_read hr⟩
      · cases h

/-- Code of a number of loops that refers to no variable is no duration. -/
theorem groupTime_refuses {e : Element} (hd : (e.properties.get? loopCount).any isDynamic = false)
    {w : Option Value} (h : groupLoops.valueOf e "" = .ok w) {a : Expr}
    (ha : groupLoops.exprs w = [a.unplaced]) (b : Option Value) : groupTime.fromArg a ≠ .ok b := by
  have h : groupLoops.parse (e.properties.get? loopCount) = .ok w := h
  rcases parse_static hd h with rfl | ⟨w, rfl, hw⟩
  · obtain ⟨pos, rfl⟩ := Expr.eq_null_of_unplaced (List.singleton_inj.mp ha).symm
    nofun
  · cases w with
    | integer n => exact duration_refuses_number rfl (List.singleton_inj.mp ha).symm b
    | _ => cases hw

/-- Code of a duration that refers to no variable is no number of loops. -/
theorem groupLoops_refuses {e : Element}
    (hd : (e.properties.get? "ThreadGroup.duration").any isDynamic = false) {w : Option Value}
    (h : groupTime.valueOf e "" = .ok w) {a : Expr} (ha : groupTime.exprs w = [a.unplaced])
    (b : Option Value) : groupLoops.fromArg a ≠ .ok b := by
  have h : groupTime.parse (e.properties.get? "ThreadGroup.duration") = .ok w := h
  rcases parse_static hd h with rfl | ⟨w, rfl, hw⟩
  · exact int_refuses_duration rfl (List.singleton_inj.mp ha).symm b
  · cases w with
    | duration ms => exact int_refuses_duration rfl (List.singleton_inj.mp ha).symm b
    | _ => cases hw

/-- Code of a reference to a variable is a text. -/
theorem exprs_of_isDynamic {p : Param} {t : String} (ht : isDynamic t = true) {w : Option Value}
    (h : p.parse (some t) = .ok w) : p.exprs w = [.text .start t] := by
  rw [parse_of_isDynamic p ht] at h
  cases h
  rfl

theorem fromArg_of_isDynamic (p : Param) {t : String} (ht : isDynamic t = true) {a : Expr}
    (ha : a.unplaced = .text .start t) : p.fromArg a = .ok (some (.dynamic t)) := by
  obtain ⟨pos, rfl⟩ := Expr.eq_text_of_unplaced ha
  rw [fromArg, if_pos ht]

end Param

/-! ### Settings as arguments -/

/-- What a form binds that takes its settings as arguments: perhaps a name, then the number of threads
and one more setting. -/
inductive BindsPlain (p : Param) : List Expr → List (Param × Option Value) → Prop
  | named {a b c : Expr} {x n v : Option Value} (ha : threadGroupName.fromArg a = .ok x)
    (hb : threadCount.fromArg b = .ok n) (hc : p.fromArg c = .ok v) :
    BindsPlain p [a, b, c] [(threadGroupName, x), (threadCount, n), (p, v)]
  | unnamed {b c : Expr} {n v : Option Value} (hb : threadCount.fromArg b = .ok n)
    (hc : p.fromArg c = .ok v) :
    BindsPlain p [b, c]
      [(threadGroupName, threadGroupName.default), (threadCount, n), (p, v)]

section

variable {p : Param} (hm : p.mandatory = true) (hv : p.kind.isVariadic = false) {line : Nat}
  {name : String} {leading : List Expr} {values : List (Param × Option Value)}

include hv

theorem isVariadic_of_mem_plain :
    ∀ q ∈ [threadGroupName, threadCount, p], q.kind.isVariadic = false := by
  simp only [List.forall_mem_cons, hv]
  decide

include hm

theorem bindsPlain_of_bindScalars
    (h : bindScalars [threadGroupName, threadCount, p] line name leading = .ok values) :
    BindsPlain p leading values := by
  have hname : threadGroupName.mandatory = false := rfl
  have hcount : threadCount.mandatory = true := rfl
  have hplain : threadGroupName.kind.isVariadic = false ∧ threadCount.kind.isVariadic = false := by
    decide
  rcases bindScalars_eq_ok (isVariadic_of_mem_plain hv) h with ⟨hlen, hb⟩ | ⟨hlen, hb⟩
  · obtain ⟨a, b, c, rfl⟩ := List.length_eq_three.mp hlen
    simp only [bindValues, hplain, hv, Bool.not_true, Bool.false_eq_true, if_false] at hb
    obtain ⟨x, hx, hb⟩ := exists_of_bind_eq_ok hb
    obtain ⟨_, hb, hb'⟩ := exists_of_bind_eq_ok hb
    obtain ⟨n, hn, hb⟩ := exists_of_bind_eq_ok hb
    obtain ⟨_, hb, hb''⟩ := exists_of_bind_eq_ok hb
    obtain ⟨v, hv, hb⟩ := exists_of_bind_eq_ok hb
    cases hb
    cases hb''
    cases hb'
    exact .named hx hn hv
  · have hshort : leading.length = 2 := by simpa [hname, hcount, hm] using hlen
    obtain ⟨b, c, rfl⟩ := List.length_eq_two.mp hshort
    simp only [bindValues, hplain, hv, hname, hcount, hm, Bool.not_true, Bool.not_false,
      Bool.false_eq_true, if_false, if_true] at hb
    obtain ⟨_, hb, hb'⟩ := exists_of_bind_eq_ok hb
    obtain ⟨n, hn, hb⟩ := exists_of_bind_eq_ok hb
    obtain ⟨_, hb, hb''⟩ := exists_of_bind_eq_ok hb
    obtain ⟨v, hv, hb⟩ := exists_of_bind_eq_ok hb
    cases hb
    cases hb''
    cases hb'
    exact .unnamed hn hv

theorem BindsPlain.bindScalars_eq (h : BindsPlain p leading values) :
    bindScalars [threadGroupName, threadCount, p] line name leading = .ok values := by
  have hname : threadGroupName.mandatory = false := rfl
  have hcount : threadCount.mandatory = true := rfl
  have hplain : threadGroupName.kind.isVariadic = false ∧ threadCount.kind.isVariadic = false := by
    decide
  have hmandatory : [threadGroupName, threadCount, p].filter (·.mandatory) = [threadCount, p] := by
    simp [hname, hcount, hm]
  have hvar := isVariadic_of_mem_plain hv
  have hfull (count : Nat) := fits_of_not_isVariadic hvar count
  have hshort (count : Nat) :=
    fits_of_not_isVariadic (fun q hq => hvar q (List.mem_cons_of_mem _ hq)) count
  unfold bindScalars
  simp only [hmandatory, hfull, hshort]
  cases h with
  | named ha hb hc =>
    simp only [bindValues, hplain, hv, ha, hb, hc, ok_bind]
    rfl
  | unnamed hb hc =>
    simp only [bindValues, hplain, hv, hname, hcount, hm, hb, hc, ok_bind]
    rfl

end

namespace BindsPlain

variable {p : Param} {leading : List Expr} {values : List (Param × Option Value)}

/-- The last argument is bound to the last parameter. -/
theorem exists_last (h : BindsPlain p leading values) :
    ∃ c v, leading.getLast? = some c ∧ p.fromArg c = .ok v := by
  cases h with
  | named _ _ hc => exact ⟨_, _, rfl, hc⟩
  | unnamed _ hc => exact ⟨_, _, rfl, hc⟩

/-- Another parameter takes a reference to a variable as well. -/
theorem other_of_isDynamic (h : BindsPlain p leading values) {c : Expr}
    (hlast : leading.getLast? = some c) {t : String} (ht : isDynamic t = true)
    (hc : c.unplaced = .text .start t) (q : Param) :
    ∃ x n, n ≠ none ∧ BindsPlain q leading
      [(threadGroupName, x), (threadCount, n), (q, some (.dynamic t))] := by
  have hq := Param.fromArg_of_isDynamic q ht hc
  cases h with
  | named ha hb _ =>
    obtain rfl := Option.some.inj hlast
    exact ⟨_, _, Param.ne_none_of_fromArg_int rfl hb, .named ha hb hq⟩
  | unnamed hb _ =>
    obtain rfl := Option.some.inj hlast
    exact ⟨_, _, Param.ne_none_of_fromArg_int rfl hb, .unnamed hb hq⟩

end BindsPlain

/-! ### Groups with a duration -/

namespace Build

theorem checkChain_of_isTail {s : Signature} (hs : s.acceptsChildren = true)
    {tail : List (Invocation Operand)} (ht : IsTail tail) : checkChain s tail = .ok () := by
  rcases ht with rfl | ⟨inv, rfl, hname⟩
  · rfl
  · rw [checkChain, if_neg (not_not.mpr hname), if_neg (by simp [hs])]
    rfl

theorem applyChain_of_isTail (s : Signature) {tail : List (Invocation Operand)} (ht : IsTail tail)
    {es : List Element} (he : (elements (tail.flatMap (·.args))).outcome = .ok es) (d : Draft) :
    (applyChain s tail d).outcome = .ok (d, es) := by
  rcases ht with rfl | ⟨inv, rfl, hname⟩
  · cases he
    rfl
  · rw [List.flatMap_singleton] at he
    rw [applyChain, if_pos hname, Logged.outcome_bind, he, ok_bind, Logged.outcome_bind]
    rw [applyChain, Logged.outcome_pure, ok_bind, Logged.outcome_pure, List.append_nil]

/-- The form with a duration makes a group of a number of threads and a reference, if there are children
for it. -/
theorem exists_makes_durationThreadGroup {leading : List Expr} {x n : Option Value} {t : String}
    (hn : n ≠ none) (hb : BindsPlain groupTime leading
      [(threadGroupName, x), (threadCount, n), (groupTime, some (.dynamic t))])
    {children : List Operand} (hleading : checkLeading durationThreadGroup children = .ok ())
    {first more : List Element} (hfirst : (elements children).outcome = .ok first)
    {tail : List (Invocation Operand)} (htail : IsTail tail)
    (hmore : (elements (tail.flatMap (·.args))).outcome = .ok more) (line : Nat) (name : String) :
    ∃ e, Makes durationThreadGroup line name leading children tail e := by
  have hcalled : (tail.map (·.name)).filter (· ≠ childrenMethod) = [] := by
    rcases htail with rfl | ⟨inv, rfl, hinv⟩
    · rfl
    · simp [hinv]
  obtain ⟨n, rfl⟩ := Option.ne_none_iff_exists'.mp hn
  obtain ⟨count, hcount⟩ : ∃ t, threadCount.stored (some n) = some t := by cases n <;> exact ⟨_, rfl⟩
  let props := groupTime.storeRaw (some (.dynamic t)) (threadCount.storeRaw (some n) .empty "") ""
  have htime : props.get? "ThreadGroup.duration" = some t :=
    Param.get?_storeRaw (p := groupTime) rfl (by simp) _
  have hthreads : props.get? "ThreadGroup.num_threads" = some count := by
    rw [Param.get?_storeRaw_of_ne (p := groupTime) rfl (by decide),
      Param.get?_storeRaw (p := threadCount) rfl (by simp), hcount]
  have hkept (key : String) (hk : key ≠ "ThreadGroup.scheduler") :
      (guarded durationThreadGroup props).get? key = props.get? key :=
    Guard.get?_apply (g := .equals "ThreadGroup.scheduler" "true") (by simpa [Guard.writes] using hk) props
  refine ⟨_, checkChain_of_isTail rfl htail, ⟨_, hb.bindScalars_eq rfl rfl,
    outcome_construct (show _ = Except.ok props from rfl) hleading hfirst
      (applyChain_of_isTail _ htail hmore _) (show _ = Except.ok props by rw [hcalled]; rfl)⟩,
    (Signature.unmet?_eq_none_iff _ _).mpr ⟨?_, ?_⟩⟩
  · have hcontains {key v : String} (hk : key ≠ "ThreadGroup.scheduler")
        (h : props.get? key = some v) : (guarded durationThreadGroup props).contains key = true := by
      rw [Properties.contains, hkept key hk, h]
      rfl
    have hall : ∀ p ∈ durationThreadGroup.allParams, p.required = true →
        p = threadCount ∨ p = groupTime := by decide
    refine List.all_eq_true.mpr fun p hp => ?_
    cases hrequired : p.required with
    | false => rfl
    | true =>
      rcases hall p hp hrequired with rfl | rfl
      · exact hcontains (by decide) hthreads
      · exact hcontains (by decide) htime
  · change decide (((props.put "ThreadGroup.scheduler" "true").get? "ThreadGroup.scheduler") =
      some "true") = true
    rw [Properties.get?_put_self]
    rfl

/-- A reference goes to the form with a duration, before the form with a number of loops is tried. -/
theorem not_makesFirst_threadGroup {leading : List Expr} {c : Expr}
    (hlast : leading.getLast? = some c) {t : String} (ht : isDynamic t = true)
    (hc : c.unplaced = .text .start t) {tail : List (Invocation Operand)} (htail : IsTail tail)
    {line : Nat} {name : String} {children : List Operand} {e : Element} :
    ¬ MakesFirst threadGroupForms threadGroup line name leading children tail e := by
  intro h
  obtain ⟨before, behind, hforms, hnone⟩ := h.first
  have hbefore : durationThreadGroup ∈ before := by
    have hlater : threadGroupForms.Pairwise fun u _ => u ≠ threadGroup := by decide
    rw [hforms] at hlater
    have hmem : durationThreadGroup ∈ before ++ threadGroup :: behind := hforms ▸ (by decide)
    refine (List.mem_append.mp hmem).resolve_right fun hmem => ?_
    rcases List.mem_cons.mp hmem with heq | hmem
    · exact absurd heq (by decide)
    · exact (List.pairwise_cons.mp (List.pairwise_append.mp hlater).2.1).1 _ hmem rfl
  obtain ⟨values, hbind, hmade⟩ := h.makes.values
  obtain ⟨x, n, hn, hbinds⟩ :=
    (bindsPlain_of_bindScalars rfl rfl hbind).other_of_isDynamic hlast ht hc groupTime
  obtain ⟨_, first, _, more, _, _, hfirst, hchain, _, _⟩ := exists_of_construct hmade
  have hleading : checkLeading durationThreadGroup children = checkLeading threadGroup children := by
    cases children <;> rfl
  obtain ⟨e', hmakes⟩ := exists_makes_durationThreadGroup hn hbinds
    (hleading.trans (checkLeading_of_construct hmade)) hfirst htail (applyChain_tail htail hchain).2
    line name
  exact hnone _ hbefore e' hmakes

end Build

/-! ### The form that takes the code -/

section

variable {s t : Signature} {e : Element} {vs : List (Param × Option Value)}
  (hv : scalarValues s e = .ok vs) {leading : List Expr}
  (hl : leading.map Expr.unplaced = vs.flatMap fun x => (Arg.scalar x.1 x.2).exprs)

include hv hl

/-- The last argument says the value of the last parameter. -/
theorem exists_exprs_last {q : Param} (hs : s.scalarParams = [threadGroupName, threadCount, q])
    (hm : q.mandatory = true) (hvar : q.kind.isVariadic = false) {c : Expr}
    (hlast : leading.getLast? = some c) :
    ∃ w, q.valueOf e "" = .ok w ∧ q.exprs w = [c.unplaced] := by
  have hfst := (map_fst_of_valuesOf hv).trans hs
  obtain ⟨⟨_, u⟩, _, rfl, rfl, htwo⟩ := List.map_eq_cons_iff.mp hfst
  obtain ⟨⟨_, v⟩, _, rfl, rfl, hone⟩ := List.map_eq_cons_iff.mp htwo
  obtain ⟨⟨q, w⟩, _, rfl, rfl, hnil⟩ := List.map_eq_cons_iff.mp hone
  obtain rfl := List.map_eq_nil_iff.mp hnil
  obtain ⟨x, hx⟩ : ∃ x, q.exprs w = [x] := Param.exists_exprs_eq hvar w
  have hm : q.mandatory = true := hm
  have hsaid : (Arg.scalar q w).exprs = [x] := by simp [Arg.exprs, Arg.isRendered, hm, hx]
  refine ⟨w, (mem_of_valuesOf hv (x := (q, w)) (by simp)).2, ?_⟩
  have hends := congrArg List.getLast? hl
  simp only [List.flatMap_cons, List.flatMap_nil, List.append_nil, hsaid, List.getLast?_map, hlast,
    List.getLast?_append, Option.map_some, List.getLast?_singleton, Option.some_or] at hends
  exact hx.trans (congrArg ([·]) (Option.some.inj hends).symm)

/-- The form with a number of loops takes no code in which its place is taken by a reference. -/
theorem not_makesFirst_of_isDynamic {q : Param}
    (hs : s.scalarParams = [threadGroupName, threadCount, q]) (hm : q.mandatory = true)
    (hvar : q.kind.isVariadic = false) {raw : Option String}
    (hread : q.valueOf e "" = q.parse raw) (hd : raw.any isDynamic = true)
    {tail : List (Invocation Operand)} (htail : IsTail tail) {line : Nat} {name : String}
    {children : List Operand} {e' : Element} :
    ¬ MakesFirst threadGroupForms threadGroup line name leading children tail e' := by
  intro h
  obtain ⟨r, rfl, hr⟩ := (Option.any_eq_true _ _).mp hd
  obtain ⟨values, hbind, -⟩ := h.makes.values
  obtain ⟨c, -, hlast, -⟩ := (bindsPlain_of_bindScalars rfl rfl hbind).exists_last
  obtain ⟨w, hw, hexprs⟩ := exists_exprs_last hv hl hs hm hvar hlast
  have hc := (Param.exprs_of_isDynamic hr (hread.symm.trans hw)).symm.trans hexprs
  exact not_makesFirst_threadGroup hlast hr (List.singleton_inj.mp hc).symm htail h

/-- Of the forms that take their settings as arguments the last argument tells which one takes it. -/
theorem eq_formAgain_of_plain (hs : s = durationThreadGroup ∨ s = threadGroup)
    (ht : t = durationThreadGroup ∨ t = threadGroup) {tail : List (Invocation Operand)}
    (htail : IsTail tail) {line : Nat} {name : String} {children : List Operand} {e' : Element}
    (h : MakesFirst threadGroupForms t line name leading children tail e') : t = formAgain s e := by
  obtain ⟨values, hbind, -⟩ := h.makes.values
  rcases hs with rfl | rfl
  · rw [formAgain, if_neg fun hboth => absurd hboth.1 (by decide)]
    rcases ht with rfl | rfl
    · rfl
    · cases hd : (e.properties.get? "ThreadGroup.duration").any isDynamic with
      | true =>
        exact absurd h (not_makesFirst_of_isDynamic hv hl (q := groupTime) rfl rfl rfl rfl hd htail)
      | false =>
        obtain ⟨c, b, hlast, hc⟩ := (bindsPlain_of_bindScalars rfl rfl hbind).exists_last
        obtain ⟨w, hw, hexprs⟩ := exists_exprs_last hv hl (q := groupTime) rfl rfl rfl hlast
        exact absurd hc (Param.groupLoops_refuses hd hw hexprs b)
  · cases hd : (e.properties.get? loopCount).any isDynamic with
    | true =>
      rw [formAgain, if_pos ⟨rfl, hd⟩]
      rcases ht with rfl | rfl
      · rfl
      · exact absurd h (not_makesFirst_of_isDynamic hv hl (q := groupLoops) rfl rfl rfl rfl hd htail)
    | false =>
      rw [formAgain, hd, if_neg fun hboth => absurd hboth.2 Bool.false_ne_true]
      rcases ht with rfl | rfl
      · obtain ⟨c, b, hlast, hc⟩ := (bindsPlain_of_bindScalars rfl rfl hbind).exists_last
        obtain ⟨w, hw, hexprs⟩ := exists_exprs_last hv hl (q := groupLoops) rfl rfl rfl hlast
        exact absurd hc (Param.groupTime_refuses hd hw hexprs b)
      · rfl

variable {blocks : List (Modifier × List Call)} (hm : blocks.map Prod.fst = s.modifiers)
  (hb : ∀ b ∈ blocks, modifierCalls e b.1 = .ok b.2) {invs tail : List (Invocation Operand)}
  (hi : List.Forall₂ Says invs (blocks.flatMap Prod.snd)) (htail : IsTail tail) {line : Nat}
  {name : String} {children : List Operand} {e' : Element}

include hm hb hi htail

/-- How many arguments there are tells the forms apart that chain their settings and those that take
them as arguments. -/
theorem eq_formAgain_of_mem_threadGroupForms (hs : s ∈ threadGroupForms)
    (h : MakesFirst threadGroupForms t line name leading children (invs ++ tail) e') :
    t = formAgain s e := by
  have hmethod : ∀ b ∈ blocks, ∀ c ∈ b.2, c.head.method = b.1.method := fun b hb' c hc =>
    method_of_modifierCalls (hb b hb') hc
  have htold := arity_of_exprs (isVariadic_of_mem_threadGroupForms s hs) (map_fst_of_valuesOf hv) hl
  have hmade := h.makes.arity (isVariadic_of_mem_threadGroupForms t h.mem)
  rcases sort_of_mem_threadGroupForms hs with ⟨hs, hlen⟩ | ⟨hs, hlen⟩ <;>
    rcases sort_of_mem_threadGroupForms h.mem with ⟨ht, hlen'⟩ | ⟨ht, hlen'⟩
  · have hsame : formAgain s e = s := by
      rw [formAgain, if_neg]
      rintro ⟨rfl, -⟩
      rcases hs with hs | hs <;> cases hs
    have hnone (hapart : ∀ m ∈ s.modifiers, m.method ≠ childrenMethod ∧
        ∀ n ∈ t.modifiers, n.method ≠ m.method) : False := by
      have hmakes := h.makes
      rw [hmakes.invs_eq_nil hi hm hmethod hapart] at hmakes
      exact not_makes_of_isTail ht htail hmakes
    rw [hsame]
    rcases hs with rfl | rfl <;> rcases ht with rfl | rfl
    · rfl
    · exact (hnone (by decide)).elim
    · exact (hnone (by decide)).elim
    · rfl
  · omega
  · omega
  · have hnil : s.modifiers = [] := by rcases hs with rfl | rfl <;> rfl
    have hinvs : invs = [] := h.makes.invs_eq_nil hi hm hmethod (by rw [hnil]; nofun)
    rw [hinvs] at h
    exact eq_formAgain_of_plain hv hl hs ht htail h

/-- The form that takes the code of an element is known from the element. -/
theorem eq_formAgain (hs : s ∈ Registry.standard.signatures)
    (h : MakesFirst (Registry.standard.forMethod s.method) t line name leading children
      (invs ++ tail) e') : t = formAgain s e := by
  by_cases hgroup : s ∈ threadGroupForms
  · have hforms : Registry.standard.forMethod s.method = threadGroupForms := by
      rw [Registry.method_of_mem_threadGroupForms hgroup, Registry.forMethod_threadGroup]
    exact eq_formAgain_of_mem_threadGroupForms hv hl hm hb hi htail hgroup (hforms ▸ h)
  · have hne : s ≠ threadGroup := by
      rintro rfl
      exact hgroup (by decide)
    rw [formAgain, if_neg fun hboth => hne hboth.1]
    exact (Registry.eq_of_mem_forMethod hs h.mem).resolve_right fun hboth => hgroup hboth.1

end

end FluentPlan
