import FluentPlan.Proofs.Rebuilding.RampUp

/-!
The choice among the forms of a method. Forms that decline a call leave it to those behind them; of the
forms of thread groups those that come first decline what the others wrote, or make an element of it
themselves. So the code of an element is taken by one of the forms exactly if its own form takes it.
-/

namespace FluentPlan

open Build Script Element Catalog Catalog.Plan

namespace Build

/-- Whether a form takes neither the arguments nor the chained calls, for a reason that leaves the call to
other forms. -/
def Declines (t : Signature) (line : Nat) (name : String) (leading : List Expr)
    (chain : List (Invocation Operand)) : Prop :=
  ∃ f, (do
    let values ← bindScalars t.scalarParams line name leading
    checkChain t chain
    return values) = .error f ∧ (buildProblem? f).isSome = true

section

variable {pos : Position} {name : String} {leading : List Expr} {children : List Operand}
  {chain : List (Invocation Operand)}

theorem declines_of_bindScalars {t : Signature} {line : Nat} {f : Failure}
    (hb : bindScalars t.scalarParams line name leading = .error f)
    (hf : (buildProblem? f).isSome = true) : Declines t line name leading chain :=
  ⟨f, by rw [hb, error_bind], hf⟩

/-- A form declines calls of modifiers that it has not. -/
theorem declines_of_checkChain {t : Signature} {line : Nat} {values : List (Param × Option Value)}
    (hb : bindScalars t.scalarParams line name leading = .ok values) {inv : Invocation Operand}
    {invs : List (Invocation Operand)} (hne : inv.name ≠ childrenMethod)
    (hnone : ∀ m ∈ t.modifiers, m.method ≠ inv.name) :
    Declines t line name leading (inv :: invs) := by
  have hfind : t.modifiers.find? (·.method = inv.name) = none :=
    List.find?_eq_none.mpr fun m hm => by simpa using hnone m hm
  refine ⟨.report (.build (.noModifier inv.pos.line t.method inv.name)), ?_, rfl⟩
  rw [hb, ok_bind, checkChain, if_pos hne, findModifier, hfind]
  rfl

theorem exists_tryForms_of_declines {t : Signature} (h : Declines t pos.line name leading chain)
    (failures : List BuildProblem) (behind : List Signature) :
    ∃ p, tryForms pos name leading children chain failures (t :: behind) =
      tryForms pos name leading children chain (failures ++ [p]) behind := by
  obtain ⟨f, hf, hp⟩ := h
  obtain ⟨p, hp⟩ := Option.isSome_iff_exists.mp hp
  refine ⟨p, ?_⟩
  rw [tryForms]
  simp only [hf, hp]

/-- The first form makes the element that does not decline the call, if it makes one. -/
theorem tryForms_of_makes {before : List Signature}
    (hb : ∀ t ∈ before, Declines t pos.line name leading chain) {s : Signature} {e : Element}
    (h : Makes s pos.line name leading children chain e) (failures : List BuildProblem)
    (behind : List Signature) :
    (tryForms pos name leading children chain failures (before ++ s :: behind)).outcome =
      .ok (s, e) := by
  induction before generalizing failures with
  | nil =>
    obtain ⟨values, hvalues, hmade⟩ := h.values
    exact tryForms_of_met failures behind hvalues h.chained hmade h.met
  | cons t before ih =>
    obtain ⟨p, hp⟩ := exists_tryForms_of_declines (hb t List.mem_cons_self) failures
      (before ++ s :: behind)
    rw [List.cons_append, hp]
    exact ih (fun u hu => hb u (List.mem_cons_of_mem t hu)) _

end

end Build

/-! ### Thread groups -/

namespace Param

/-- What is taken as a number of loops is a reference, or no duration. -/
theorem groupTime_of_groupLoops {c : Expr} {v : Option Value} (h : groupLoops.fromArg c = .ok v) :
    (∃ t, isDynamic t = true ∧ c.unplaced = .text .start t) ∨
      ∃ f, groupTime.fromArg c = .error f ∧ (buildProblem? f).isSome = true := by
  cases c with
  | text pos t =>
    rw [fromArg] at h
    split_ifs at h with ht
    · exact .inl ⟨t, ht, rfl⟩
    · cases h
  | number pos t => exact .inr ⟨_, rfl, rfl⟩
  | _ => cases h

end Param

section

variable {p : Param} {leading : List Expr} {values : List (Param × Option Value)}
  (h : BindsPlain p leading values)

include h

theorem BindsPlain.two_le_length : 2 ≤ leading.length := by
  cases h <;> simp

/-- A form that takes another setting declines the code where it does not take the last argument. -/
theorem BindsPlain.declines {t : Signature} {q : Param}
    (ht : t.scalarParams = [threadGroupName, threadCount, q]) (hm : q.mandatory = true)
    (hv : q.kind.isVariadic = false) {c : Expr} (hlast : leading.getLast? = some c) {f : Failure}
    (hf : q.fromArg c = .error f) (hp : (buildProblem? f).isSome = true) (line : Nat) (name : String)
    (chain : List (Invocation Operand)) : Declines t line name leading chain := by
  have hname : threadGroupName.mandatory = false := rfl
  have hcount : threadCount.mandatory = true := rfl
  have hplain : threadGroupName.kind.isVariadic = false ∧ threadCount.kind.isVariadic = false := by
    decide
  have hmandatory : [threadGroupName, threadCount, q].filter (·.mandatory) = [threadCount, q] := by
    simp [hname, hcount, hm]
  have hvar := isVariadic_of_mem_plain hv
  have hfull (count : Nat) := fits_of_not_isVariadic hvar count
  have hshort (count : Nat) :=
    fits_of_not_isVariadic (fun q hq => hvar q (List.mem_cons_of_mem _ hq)) count
  refine declines_of_bindScalars (f := f) ?_ hp
  rw [ht]
  unfold bindScalars
  simp only [hmandatory, hfull, hshort]
  cases h with
  | @named a b d x n v ha hb hc =>
    obtain rfl : d = c := Option.some.inj hlast
    simp only [bindValues, hplain, hv, ha, hb, hf, hp, ok_bind, error_bind, Bool.not_true,
      Bool.false_eq_true, if_false]
    rfl
  | @unnamed b d n v hb hc =>
    obtain rfl : d = c := Option.some.inj hlast
    simp only [bindValues, hplain, hv, hname, hcount, hm, hb, hf, ok_bind, error_bind, Bool.not_true,
      Bool.not_false, Bool.false_eq_true, if_false, if_true]
    rfl

end

/-- The forms that chain their settings decline code that has settings among its arguments. -/
theorem declines_of_length {t : Signature} (ht : t = rampHoldThreadGroup ∨ t = rampThreadGroup)
    {leading : List Expr} (hl : 2 ≤ leading.length) (line : Nat) (name : String)
    (chain : List (Invocation Operand)) : Declines t line name leading chain := by
  have hparams : t.scalarParams = [threadGroupName] := by rcases ht with rfl | rfl <;> rfl
  have hone : leading.length ≠ 1 := by omega
  have hzero : leading.length ≠ 0 := by omega
  have hmandatory : [threadGroupName].filter (·.mandatory) = [] := by decide
  have hvar : threadGroupName.kind.isVariadic = false := by decide
  refine declines_of_bindScalars (f := .report (.build (.arity line name leading.length))) ?_ rfl
  rw [hparams]
  unfold bindScalars
  simp only [hmandatory, fits, hvar, hone, hzero, List.getLast?_singleton, List.length_singleton,
    List.getLast?_nil, decide_false, Bool.false_eq_true, if_false, Bool.and_false]
  rfl

/-! ### The forms of a method -/

namespace Registry

/-- Forms of methods other than that of thread groups stand alone. -/
theorem exists_forMethod_eq {s : Signature} (hs : s ∈ standard.signatures)
    (hg : s ∉ threadGroupForms) : ∃ behind, standard.forMethod s.method = s :: behind := by
  have hmem : s ∈ standard.forMethod s.method := Registry.mem_forMethod.mpr ⟨hs, rfl⟩
  cases hforms : standard.forMethod s.method with
  | nil =>
    rw [hforms] at hmem
    cases hmem
  | cons t behind =>
    have ht : t ∈ standard.forMethod s.method := hforms ▸ List.mem_cons_self
    obtain rfl := (eq_of_mem_forMethod hs ht).resolve_right fun hboth => hg hboth.1
    exact ⟨behind, rfl⟩

end Registry

namespace Signature

/-- The forms that chain their settings require more than their arguments. -/
theorem RequiresArguments.eq_of_mem {s : Signature} (h : s.RequiresArguments)
    (hs : s ∈ threadGroupForms) : s = durationThreadGroup ∨ s = threadGroup := by
  rcases sort_of_mem_threadGroupForms hs with ⟨hchained, -⟩ | ⟨hplain, -⟩
  · have hrequired : ∃ m ∈ s.modifiers, threadCount ∈ m.params := by
      rcases hchained with rfl | rfl
      · exact ⟨rampAndHold, List.mem_cons_self, List.mem_cons_self⟩
      · exact ⟨rampTo, List.mem_cons_self, List.mem_cons_self⟩
    obtain ⟨m, hm, hp⟩ := hrequired
    cases h.chained m hm threadCount hp
  · exact hplain

end Signature

section

variable {s : Signature} (hs : s ∈ Registry.standard.signatures) {e : Element}
  {vs : List (Param × Option Value)} (hv : scalarValues s e = .ok vs) {leading : List Expr}
  (hl : leading.map Expr.unplaced = vs.flatMap fun x => (Arg.scalar x.1 x.2).exprs)
  {blocks : List (Modifier × List Call)} (hm : blocks.map Prod.fst = s.modifiers)
  (hb : ∀ b ∈ blocks, modifierCalls e b.1 = .ok b.2) {invs tail : List (Invocation Operand)}
  (hi : List.Forall₂ Says invs (blocks.flatMap Prod.snd)) (ht : IsTail tail)
  {children : List Operand}

include hv hl

/-- Code of a number of loops that the form with a duration takes says all that is required. -/
theorem ne_none_of_makes_duration (hs : s = threadGroup)
    (hd : (e.properties.get? loopCount).any isDynamic = true) {line : Nat} {name : String}
    {chain : List (Invocation Operand)} {e' : Element}
    (h : Makes durationThreadGroup line name leading children chain e') : ∀ x ∈ vs, x.2 ≠ none := by
  subst hs
  obtain ⟨raw, hraw, hdyn⟩ := (Option.any_eq_true _ _).mp hd
  obtain ⟨values, hbind, -⟩ := h.values
  have hparams : vs.map Prod.fst = [threadGroupName, threadCount, groupLoops] := map_fst_of_valuesOf hv
  have hvalue {x : Param × Option Value} (hx : x ∈ vs) := (mem_of_valuesOf hv hx).2
  obtain ⟨⟨_, u⟩, _, rfl, rfl, htwo⟩ := List.map_eq_cons_iff.mp hparams
  obtain ⟨⟨_, v⟩, _, rfl, rfl, hone⟩ := List.map_eq_cons_iff.mp htwo
  obtain ⟨⟨_, w⟩, _, rfl, rfl, hnil⟩ := List.map_eq_cons_iff.mp hone
  obtain rfl := List.map_eq_nil_iff.mp hnil
  have hname : u ≠ none := by
    rintro rfl
    cases Param.default_of_valueOf_none (hvalue (x := (threadGroupName, none)) List.mem_cons_self)
  have hloops : w ≠ none := by
    have hw : groupLoops.parse (e.properties.get? loopCount) = .ok w :=
      hvalue (x := (groupLoops, w)) (by simp)
    rw [hraw, Param.parse_of_isDynamic _ hdyn] at hw
    cases hw
    exact Option.some_ne_none _
  have hall : List.Forall₂ (fun (x _ : Param × Option Value) => x.2 ≠ none)
      [(threadGroupName, u), (threadCount, v), (groupLoops, w)] values := by
    refine (@forall₂_of_bindScalars _ _ [threadGroupName, threadCount, groupTime]
      (.cons ⟨rfl, rfl, fun _ => ?_, fun _ => hname⟩ (.cons ⟨rfl, rfl, fun _ => ?_, fun h => ?_⟩
        (.cons ⟨rfl, rfl, fun _ => ?_, fun _ => hloops⟩ .nil)))
      _ hl _ _ _ hbind).1
    · obtain ⟨c, hc⟩ := Param.exists_exprs_eq (p := threadGroupName) rfl u
      exact ⟨c, hc, fun _ _ _ _ => hname⟩
    · obtain ⟨c, hc⟩ := Param.exists_exprs_eq (p := threadCount) rfl v
      refine ⟨c, hc, fun a b ha hb => ?_⟩
      rintro rfl
      obtain ⟨pos, rfl⟩ := Expr.eq_null_of_unplaced (ha.trans (List.singleton_inj.mp hc).symm)
      cases hb
    · cases h
    · obtain ⟨c, hc⟩ := Param.exists_exprs_eq (p := groupLoops) rfl w
      exact ⟨c, hc, fun _ _ _ _ => hloops⟩
  intro x hx
  obtain ⟨-, -, hne⟩ := exists_of_forall₂ hall.flip hx
  exact hne

include hs hm hb hi ht

/-- One of the forms takes the code of an element exactly if all values are there and the children are
built, where the form of the element requires no more. -/
theorem exists_tryForms_iff (hreq : s.RequiresArguments)
    (ha : tail ≠ [] → s.acceptsChildren = true) (hleading : checkLeading s children = .ok ())
    (pos : Position) :
    (∃ made, (tryForms pos s.method leading children (invs ++ tail) []
        (Registry.standard.forMethod s.method)).outcome = .ok made) ↔
      (∀ x ∈ vs, x.2 ≠ none) ∧
        ∃ es, (elements (children ++ tail.flatMap (·.args))).outcome = .ok es := by
  have hrest : s.Restorable := (Signature.restorable_of_mem hs).resolve_left fun heq => by
    rcases hreq.eq_of_mem (heq ▸ List.mem_cons_self) with h | h <;> rw [heq] at h <;> cases h
  have hmakes := exists_makes_iff hrest hreq hv hl hm hb hi ht ha hleading pos.line s.method
  constructor
  · rintro ⟨⟨t, e'⟩, htried⟩
    have hfirst := makesFirst_of_tryForms htried
    have hform := eq_formAgain hv hl hm hb hi ht hs hfirst
    unfold formAgain at hform
    split_ifs at hform with hloops
    · subst hform
      obtain ⟨rfl, hdyn⟩ := hloops
      obtain ⟨values, hbind, hmade⟩ := hfirst.makes.values
      have hdur : durationThreadGroup ∈ threadGroupForms.tail := by decide
      have hfst : values.map Prod.fst = durationThreadGroup.scalarParams := by
        rcases bindScalars_eq_ok (isVariadic_of_mem_threadGroupForms _ (List.mem_of_mem_tail hdur))
          hbind with ⟨-, h⟩ | ⟨-, h⟩ <;> exact map_fst_of_bindValues h
      refine ⟨ne_none_of_makes_duration hv hl rfl hdyn hfirst.makes, e'.children, ?_⟩
      exact (construct_eq_ok (restorable_of_mem_tail hdur) hfst hm
        (fun b hbmem c hc => method_of_modifierCalls (hb b hbmem) hc) hi ht hmade).2.2.2.1
    · subst hform
      exact hmakes.mp ⟨e', hfirst.makes⟩
  · intro htaken
    obtain ⟨e', hmade⟩ := hmakes.mpr htaken
    by_cases hg : s ∈ threadGroupForms
    · have hplain := hreq.eq_of_mem hg
      have hnone : s.modifiers = [] := by rcases hplain with rfl | rfl <;> rfl
      have hblocks : blocks = [] := List.map_eq_nil_iff.mp (hm.trans hnone)
      subst hblocks
      cases hi
      rw [Registry.method_of_mem_threadGroupForms hg, Registry.forMethod_threadGroup]
      rw [Registry.method_of_mem_threadGroupForms hg] at hmade
      obtain ⟨values, hbind, -⟩ := hmade.values
      have hchained {t : Signature} (hbinds : 2 ≤ leading.length)
          (ht : t ∈ [rampHoldThreadGroup, rampThreadGroup]) :
          Declines t pos.line anyThreadGroup.method leading ([] ++ tail) :=
        declines_of_length (by simpa using ht) hbinds _ _ _
      rcases hplain with rfl | rfl
      · have hbinds := bindsPlain_of_bindScalars rfl rfl hbind
        exact ⟨_, tryForms_of_makes (fun t ht => hchained hbinds.two_le_length ht) hmade []
          [threadGroup]⟩
      · have hbinds := bindsPlain_of_bindScalars rfl rfl hbind
        have hbefore := fun t ht => hchained (t := t) hbinds.two_le_length ht
        obtain ⟨c, v, hlast, hc⟩ := hbinds.exists_last
        rcases Param.groupTime_of_groupLoops hc with ⟨t, hdyn, htext⟩ | ⟨f, hf, hp⟩
        · obtain ⟨x, n, hn, hother⟩ := hbinds.other_of_isDynamic hlast hdyn htext groupTime
          obtain ⟨-, es, hes⟩ := htaken
          obtain ⟨first, more, hfirst, hmore, -⟩ := exists_of_elements_append hes
          have hleading : checkLeading durationThreadGroup children = .ok () := by
            rw [← hleading]
            cases children <;> rfl
          obtain ⟨made, hdur⟩ := exists_makes_durationThreadGroup hn hother hleading hfirst ht hmore
            pos.line anyThreadGroup.method
          exact ⟨_, tryForms_of_makes hbefore hdur [] [threadGroup]⟩
        · refine ⟨_, tryForms_of_makes (List.forall_mem_append.mpr ⟨hbefore,
            List.forall_mem_singleton.mpr ?_⟩) hmade [] []⟩
          exact hbinds.declines rfl rfl rfl hlast hf hp _ _ _
    · obtain ⟨behind, hforms⟩ := Registry.exists_forMethod_eq hs hg
      rw [hforms]
      exact ⟨_, tryForms_of_makes (List.forall_mem_nil _) hmade [] behind⟩

end

/-! ### Groups that ramp up -/

section

variable {e : Element} {vs : List (Param × Option Value)} {leading : List Expr}
  (hl : leading.map Expr.unplaced = vs.flatMap fun x => (Arg.scalar x.1 x.2).exprs)
  {invs tail : List (Invocation Operand)} (ht : IsTail tail) {children : List Operand}
  {n r x : Option Value} (hn : threadCount.valueOf e "" = .ok n)
  (hr : rampTimeParam.valueOf e "" = .ok r)

include hl ht hn hr

/-- One of the forms takes the code of a group that ramps up and holds exactly if its own does. -/
theorem exists_tryForms_rampHold_iff (hv : scalarValues rampHoldThreadGroup e = .ok vs)
    {cs : List Call} (hcs : modifierCalls e rampAndHold = .ok cs) (hi : List.Forall₂ Says invs cs)
    (hx : holdTimeParam.valueOf e "" = .ok x)
    (hleading : checkLeading rampHoldThreadGroup children = .ok ()) (pos : Position) :
    (∃ made, (tryForms pos anyThreadGroup.method leading children (invs ++ tail) []
        threadGroupForms).outcome = .ok made) ↔
      (n ≠ none ∧ (r ≠ some (.duration 0) ∧ r ≠ some (.duration 1000)) ∧ runTime r x ≠ some 0) ∧
        ∃ es, (elements (children ++ tail.flatMap (·.args))).outcome = .ok es := by
  have hmakes := exists_makes_rampHold_iff hv hl hcs hi ht hn hr hx hleading pos.line
    anyThreadGroup.method
  rw [← hmakes]
  constructor
  · rintro ⟨⟨t, e'⟩, htried⟩
    have hfirst := makesFirst_of_tryForms htried
    have hform : t = formAgain rampHoldThreadGroup e :=
      eq_formAgain_of_mem_threadGroupForms hv hl (show [(rampAndHold, cs)].map Prod.fst = _ from rfl)
        (List.forall_mem_singleton.mpr hcs) (by simpa using hi) ht List.mem_cons_self hfirst
    rw [formAgain, if_neg fun hboth => absurd hboth.1 (by decide)] at hform
    exact ⟨e', hform ▸ hfirst.makes⟩
  · rintro ⟨e', hmade⟩
    exact ⟨_, tryForms_of_makes (List.forall_mem_nil _) hmade []
      [rampThreadGroup, durationThreadGroup, threadGroup]⟩

/-- One of the forms takes the code of a group that ramps up exactly if its own does. -/
theorem exists_tryForms_ramp_iff (hv : scalarValues rampThreadGroup e = .ok vs)
    {cs ds : List Call} (hcs : modifierCalls e rampTo = .ok cs)
    (hds : modifierCalls e holdIterating = .ok ds) (hi : List.Forall₂ Says invs (cs ++ ds))
    (hleading : checkLeading rampThreadGroup children = .ok ()) (pos : Position) :
    (∃ made, (tryForms pos anyThreadGroup.method leading children (invs ++ tail) []
        threadGroupForms).outcome = .ok made) ↔
      (n ≠ none ∧ r ≠ some (.duration 0) ∧ r ≠ some (.duration 1000)) ∧
        ∃ es, (elements (children ++ tail.flatMap (·.args))).outcome = .ok es := by
  have hmakes := exists_makes_ramp_iff hv hl hcs hds hi ht hn hr hleading pos.line
    anyThreadGroup.method
  have hblocks : ∀ b ∈ [(rampTo, cs), (holdIterating, ds)], modifierCalls e b.1 = .ok b.2 :=
    List.forall_mem_cons.mpr ⟨hcs, List.forall_mem_singleton.mpr hds⟩
  constructor
  · rintro ⟨⟨t, e'⟩, htried⟩
    have hfirst := makesFirst_of_tryForms htried
    have hform : t = formAgain rampThreadGroup e :=
      eq_formAgain_of_mem_threadGroupForms hv hl rfl hblocks (by simpa using hi) ht
        (List.mem_cons_of_mem _ List.mem_cons_self) hfirst
    rw [formAgain, if_neg fun hboth => absurd hboth.1 (by decide)] at hform
    exact hmakes.mp ⟨e', hform ▸ hfirst.makes⟩
  · intro htaken
    obtain ⟨e', hmade⟩ := hmakes.mpr htaken
    have hcalls := modifierCalls_count (m := rampTo) [(rampTimeParam, r)] rfl rfl rfl rfl hn
      (List.forall_mem_singleton.mpr ⟨show rampTimeParam.kind ≠ .children by decide, hr⟩) hcs
    obtain rfl := hcalls.resolve_left fun h => htaken.1.1 h.1
    obtain ⟨inv, rest, hsaid, -, rfl⟩ := List.forall₂_cons_right_iff.mp hi
    have hname : inv.name = rampTo.method := hsaid.1
    obtain ⟨values, hbind, -⟩ := hmade.values
    have hdeclines : Declines rampHoldThreadGroup pos.line anyThreadGroup.method leading
        (inv :: (rest ++ tail)) := by
      refine declines_of_checkChain (show bindScalars rampHoldThreadGroup.scalarParams _ _ _ = _ from
        hbind) ?_ ?_ <;> rw [hname] <;> decide
    exact ⟨_, tryForms_of_makes (List.forall_mem_singleton.mpr hdeclines) hmade []
      [durationThreadGroup, threadGroup]⟩

end

end FluentPlan
