import Mathlib.Data.List.Forall2
import Mathlib.Tactic.Common
import FluentPlan.Proofs.Rebuilding.Returned

/-!
Calls of modifiers: what they were made from, and what they bind where they are read. A switch says
its value by its presence, a listing by one argument for each item, any other modifier by one argument
for each parameter; all values return.
-/

namespace FluentPlan

open Build Script

namespace Element

/-- The arguments with which a modifier is called: none if its presence says it all. -/
def callArgs (m : Modifier) (values : List (Param × Option Value)) : List Arg :=
  if m.flag && !(argsOf values).any Arg.isDynamic then [] else argsOf values

theorem argsOf_eq {values : List (Param × Option Value)}
    (h : ∀ x ∈ values, x.1.kind ≠ .children) :
    argsOf values = values.map fun x => .scalar x.1 x.2 := by
  refine List.map_congr_left fun x hx => ?_
  simp only [Arg.ofParam, Param.isChildren, h x hx, decide_false, Bool.false_eq_true, if_false]

theorem allDefault_singleton (p : Param) (v : Option Value) :
    allDefault [(p, v)] = p.isDefault? v := by
  cases h : p.isDefault? v with
  | error f => simp [allDefault, h, bind, Except.bind]
  | ok b => cases b <;> simp [allDefault, h, bind, Except.bind, pure, Except.pure]

end Element

theorem Param.ne_children_of_isPlaced {p : Param} (h : p.isPlaced = true) : p.kind ≠ .children := by
  intro hk
  simp [isPlaced, hk] at h

theorem Param.restoresDefault_sound {p : Param} (h : p.restoresDefault = true) :
    p.reread none = .ok p.default ∧ p.reread p.default = .ok p.default ∧
      p.isDefault? p.default = .ok true := by
  unfold restoresDefault at h
  split at h
  · next v w b hv hw hb =>
    simp only [Bool.and_eq_true, decide_eq_true_eq] at h
    obtain ⟨⟨rfl, rfl⟩, rfl⟩ := h
    exact ⟨hv, hw, hb⟩
  · cases h

theorem eq_singleton_of_map_fst {vs : List (Param × Option Value)} {p : Param}
    (h : vs.map Prod.fst = [p]) : ∃ v, vs = [(p, v)] := by
  obtain ⟨⟨q, v⟩, rfl, hq⟩ := List.map_eq_singleton_iff.mp h
  have hq : q = p := hq
  exact ⟨v, by rw [hq]⟩

namespace Build

/-- An invocation that says a call of a modifier has no arguments, and means the other value of a
switch, or it has those of all values and binds them. -/
theorem args_of_says {m : Modifier} (hr : m.Restorable) {vs : List (Param × Option Value)}
    (hfst : vs.map Prod.fst = m.params) {inv : Invocation Operand}
    (hsaid : Says inv (.chained m.method (Element.callArgs m vs))) :
    (m.flag = true ∧ inv.args = [] ∧ (Element.argsOf vs).any Arg.isDynamic = false) ∨
      ((inv.args.map fun a => a.expr.unplaced) =
          vs.flatMap (fun x => (Arg.scalar x.1 x.2).exprs) ∧
        bound m inv = bindAll m.params inv.pos.line inv.name (inv.args.map (·.expr))) := by
  have hmem {x : Param × Option Value} (hx : x ∈ vs) : x.1 ∈ m.params :=
    hfst ▸ List.mem_map_of_mem hx
  have hscalar : Element.argsOf vs = vs.map fun x => .scalar x.1 x.2 :=
    Element.argsOf_eq fun x hx => Param.ne_children_of_isPlaced (hr.placed x.1 (hmem hx))
  have hargs := hsaid.2
  by_cases hflag : (m.flag && !(Element.argsOf vs).any Arg.isDynamic) = true
  · obtain ⟨hf, hstatic⟩ := Bool.and_eq_true_iff.mp hflag
    rw [Element.callArgs, if_pos hflag] at hargs
    exact .inl ⟨hf, List.map_eq_nil_iff.mp hargs, by simpa using hstatic⟩
  · have hexprs : (inv.args.map fun a => a.expr.unplaced) =
        vs.flatMap fun x => (Arg.scalar x.1 x.2).exprs := by
      rw [hargs, Element.callArgs, if_neg hflag]
      simp only [Call.argExprs, Call.chained, Call.childExprs, List.append_nil, hscalar,
        List.flatMap_map]
    refine .inr ⟨hexprs, ?_⟩
    unfold bound
    split
    · next p ps hempty hparams =>
      -- without arguments there would be no reference to a variable
      obtain ⟨hf, hnil⟩ := Bool.and_eq_true_iff.mp hempty
      obtain ⟨a, ha, hdyn⟩ : ∃ a ∈ Element.argsOf vs, a.isDynamic = true := by
        simpa [hf] using hflag
      rw [hscalar] at ha
      obtain ⟨x, hx, rfl⟩ := List.mem_map.mp ha
      rw [List.isEmpty_iff.mp hnil, List.map_nil] at hexprs
      have hexp := List.flatMap_eq_nil_iff.mp hexprs.symm x hx
      have hrendered : (Arg.scalar x.1 x.2).isRendered = true := by
        simp [Arg.isRendered, hr.mandatory x.1 (hmem hx)]
      rw [Arg.exprs, if_pos hrendered] at hexp
      obtain ⟨p, v⟩ := x
      cases v with
      | none => cases hdyn
      | some v => cases v <;> cases hdyn
                  cases hexp
    · rfl

/-- The values that a call of a modifier was made from return from what the call binds. -/
theorem returns_of_binds {m : Modifier} (hr : m.Restorable) {vs : List (Param × Option Value)}
    (hfst : vs.map Prod.fst = m.params) (hk : ∀ x ∈ vs, x.1.Known x.2)
    (hd : m.each = none → Element.allDefault vs = .ok false) {ys : List (Param × Option Value)}
    (hb : Binds m (.chained m.method (Element.callArgs m vs)) ys) :
    List.Forall₂ Param.Returns vs ys ∧ ys.map Prod.fst = m.params := by
  obtain ⟨inv, hsaid, hbound⟩ := hb
  have hmem {x : Param × Option Value} (hx : x ∈ vs) : x.1 ∈ m.params :=
    hfst ▸ List.mem_map_of_mem hx
  have hrendered {x : Param × Option Value} (hx : x ∈ vs) :
      (Arg.scalar x.1 x.2).isRendered = true := by
    simp [Arg.isRendered, hr.mandatory x.1 (hmem hx)]
  refine ⟨?_, map_fst_of_bound hr hbound⟩
  rcases args_of_says hr hfst hsaid with ⟨hflag, hnil, hstatic⟩ | ⟨hargs, hall⟩
  · have hone := hr.switch hflag
    unfold Modifier.isSwitch at hone
    split at hone
    · next prop d required mandatory hparams =>
      have heach : m.each = none := by simpa using hone
      rw [hparams] at hfst
      obtain ⟨v, rfl⟩ := eq_singleton_of_map_fst hfst
      have hys : ys = [(⟨.bool, prop, some (.bool d), required, mandatory⟩, some (.bool !d))] := by
        unfold bound at hbound
        rw [hnil, hflag, hparams] at hbound
        cases hbound
        rfl
      have hdef := hd heach
      rw [Element.allDefault_singleton] at hdef
      have hknown : Param.Known ⟨.bool, prop, some (.bool d), required, mandatory⟩ v :=
        hk _ List.mem_cons_self
      have hlist : ParamKind.bool ≠ .textList := by decide
      rcases hknown.found hlist with heq | hfound
      · rw [heq] at hdef
        have hrest := hr.restoresDefault _ (hparams ▸ List.mem_cons_self)
        rw [(Param.restoresDefault_sound hrest).2.2] at hdef
        cases hdef
      · cases hfound with
        | dynamic ht => simp [Element.argsOf, Arg.ofParam, Param.isChildren, Arg.isDynamic,
            Value.isDynamic] at hstatic
        | @read raw w hne hplain hread =>
          have hfits := ParamKind.fits_of_read hread
          cases w with
          | bool b =>
            have hbd : b = !d := by
              have hsame : (Value.bool b).same (.bool d) = false := Except.ok.inj hdef
              cases b <;> cases d <;> first | rfl | exact absurd hsame (by decide)
            subst hbd hys
            refine .cons ⟨Option.some_ne_none _, _, ?_, Param.Alike.refl _ _⟩ .nil
            exact Param.reread_of_readsBack hlist
              (ParamKind.readsBack_of_read hne hplain hread fun x hx => by cases hx)
          | _ => cases hfits
    · cases hone
  · rw [hall] at hbound
    have hvalues := bindAll_eq_ok hbound
    rcases hr.divided with hl | hdiv
    · unfold Modifier.isListing at hl
      split at hl
      · next p hparams =>
        simp only [Bool.and_eq_true, Option.isNone_iff_eq_none] at hl
        obtain ⟨⟨⟨hvar, -⟩, -⟩, heach⟩ := hl
        rw [hparams] at hfst hvalues
        obtain ⟨v, rfl⟩ := eq_singleton_of_map_fst hfst
        obtain ⟨b, hfrom, rfl⟩ := bindValues_variadic hvar hvalues
        have hknown : p.Known v := hk _ List.mem_cons_self
        have hdef := hd heach
        rw [Element.allDefault_singleton] at hdef
        refine .cons (Param.echo_texts ?_ ?_ hfrom) .nil
        · by_cases hlist : p.kind = .textList
          · exact .inl ⟨hlist, hknown.texts hlist⟩
          · refine .inr ⟨?_, ?_⟩
            · cases hkind : p.kind <;> simp_all [ParamKind.isVariadic]
            · rcases hknown.found hlist with heq | hfound
              · rw [heq] at hdef
                have hrest := hr.restoresDefault _ (hparams ▸ List.mem_cons_self)
                rw [(Param.restoresDefault_sound hrest).2.2] at hdef
                cases hdef
              · exact hfound
        · rw [List.map_map]
          simpa [Arg.exprs, hrendered List.mem_cons_self, Function.comp_def] using hargs
      · cases hl
    · simp only [Modifier.isDivided, Bool.and_eq_true, List.all_eq_true] at hdiv
      refine (bindValues_forall₂ ?_ (by rw [List.map_map]; exact hargs) hvalues).1
      rw [← hfst, List.forall₂_map_right_iff]
      refine List.forall₂_same.mpr fun x hx => ?_
      have hres := (hdiv.1 x.1 (hmem hx)).1
      have hvar : x.1.kind.isVariadic = false := by
        simp only [Param.isRestored, Bool.and_eq_true, Bool.not_eq_true'] at hres
        exact hres.1.1.2
      refine ⟨hvar, (hrendered hx).symm, fun _ => ?_, fun hnone => by cases hnone⟩
      obtain ⟨e, he⟩ := Param.exists_exprs_eq hvar x.2
      exact ⟨e, he, fun a b ha hb => (hk x hx).returns hres (by rw [he, ha]) hb⟩

end Build
/-! ### What calls were made from -/

theorem exists_getElem?_of_forall₂ {α β : Type} {R : α → β → Prop} {xs : List α} {ys : List β}
    (h : List.Forall₂ R xs ys) {i : Nat} {x : α} (hx : xs[i]? = some x) :
    ∃ y, ys[i]? = some y ∧ R x y := by
  induction h generalizing i with
  | nil => cases hx
  | @cons a b xs ys hab _ ih =>
    cases i with
    | zero =>
      cases hx
      exact ⟨b, rfl, hab⟩
    | succ i =>
      obtain ⟨y, hy, hr⟩ := ih (i := i) (by simpa using hx)
      exact ⟨y, by simpa using hy, hr⟩

theorem mapM_range'_of_forall {α β : Type} {R : α → β → Prop} {f : Nat → Except Failure β}
    {l : List α} {k : Nat}
    (h : ∀ (i : Nat) x, l[i]? = some x → ∃ y, f (k + i) = .ok y ∧ R x y) :
    ∃ ys, (List.range' k l.length).mapM f = .ok ys ∧ List.Forall₂ R l ys := by
  induction l generalizing k with
  | nil => exact ⟨[], rfl, .nil⟩
  | cons x l ih =>
    obtain ⟨y, hy, hr⟩ := h 0 x rfl
    obtain ⟨ys, hys, hall⟩ := ih (k := k + 1) fun i z hz => by
      obtain ⟨w, hw, hr⟩ := h (i + 1) z (by simpa using hz)
      exact ⟨w, by rwa [show k + 1 + i = k + (i + 1) by omega], hr⟩
    refine ⟨y :: ys, ?_, .cons hr hall⟩
    rw [List.length_cons, List.range'_succ, List.mapM_cons, hys]
    rw [Nat.add_zero] at hy
    rw [hy]
    rfl

namespace Element

theorem map_fst_of_valuesOf {e : Element} {lead : String} {ps : List Param}
    {vs : List (Param × Option Value)} (h : valuesOf e lead ps = .ok vs) :
    vs.map Prod.fst = ps := by
  have hall := valuesOf_eq_ok h
  clear h
  induction hall with
  | nil => rfl
  | cons hx _ ih => rw [List.map_cons, hx.1, ih]

/-- What is known of a call of a modifier: the values that it was made from. -/
structure IsCall (m : Modifier) (c : Call) (vs : List (Param × Option Value)) : Prop where
  call : c = .chained m.method (callArgs m vs)
  params : vs.map Prod.fst = m.params
  known : ∀ x ∈ vs, x.1.Known x.2
  default : m.each = none → allDefault vs = .ok false

/-- Whether all values that a call says are there, and doubles are what their texts spell. -/
def SaysValues (c : Call) : Prop :=
  ∀ p v, Arg.scalar p v ∈ c.head.args → v ≠ none ∧ Param.ReadsDouble v

theorem not_holdDuration_of_isPlaced {p : Param} (h : p.isPlaced = true) (unit : TimeUnit)
    (key : String) : p.kind ≠ .holdDuration unit key := by
  intro hk
  simp [Param.isPlaced, hk] at h

/-- A switch that is not at its default holds a boolean or refers to a variable. -/
theorem switch_value {m : Modifier} (hs : m.isSwitch = true) {e : Element} {lead : String}
    {vs : List (Param × Option Value)} (hv : valuesOf e lead m.params = .ok vs)
    (hd : allDefault vs = .ok false) : ∀ x ∈ vs, x.2 ≠ none ∧ Param.ReadsDouble x.2 := by
  unfold Modifier.isSwitch at hs
  split at hs
  · next prop d required mandatory hparams =>
    intro x hx
    obtain ⟨hp, hval⟩ := mem_of_valuesOf hv hx
    have hfst : vs.map Prod.fst = m.params := map_fst_of_valuesOf hv
    rw [hparams] at hfst
    obtain ⟨v, rfl⟩ := eq_singleton_of_map_fst hfst
    rw [List.mem_singleton.mp hx] at hval ⊢
    rw [allDefault_singleton] at hd
    have hne : v ≠ none := by
      rintro rfl
      cases hd
    refine ⟨hne, fun y hy => ?_⟩
    have hy : v = some (.double y) := hy
    subst hy
    rcases Param.found_parse hval with h | h
    · cases h
    · cases h with
      | read _ _ h => cases ParamKind.fits_of_read h
  · cases hs

theorem isCall_of_valuesOf {m : Modifier} (hr : m.Restorable) {e : Element} {lead : String}
    {vs : List (Param × Option Value)} (hv : valuesOf e lead m.params = .ok vs)
    (hd : m.each = none → allDefault vs = .ok false)
    (hs : SaysValues (.chained m.method (callArgs m vs))) :
    IsCall m (.chained m.method (callArgs m vs)) vs := by
  have hfst := map_fst_of_valuesOf hv
  have hplaced : ∀ x ∈ vs, x.1.isPlaced = true :=
    fun x hx => hr.placed x.1 (hfst ▸ List.mem_map_of_mem hx)
  have hvalue : ∀ x ∈ vs, x.2 ≠ none ∧ Param.ReadsDouble x.2 := by
    by_cases hflag : (m.flag && !(argsOf vs).any Arg.isDynamic) = true
    · have hf := (Bool.and_eq_true_iff.mp hflag).1
      exact switch_value (hr.switch hf) hv (hd (hr.each_of_flag hf))
    · intro x hx
      refine hs x.1 x.2 ?_
      have hargs : callArgs m vs = argsOf vs := if_neg hflag
      rw [hargs, argsOf_eq fun y hy => Param.ne_children_of_isPlaced (hplaced y hy)]
      exact List.mem_map_of_mem (f := fun y : Param × Option Value => Arg.scalar y.1 y.2) hx
  refine ⟨rfl, hfst, fun x hx => ?_, hd⟩
  exact Param.known_of_valueOf (fun unit key => not_holdDuration_of_isPlaced (hplaced x hx) unit key)
    (mem_of_valuesOf hv hx).2 (hvalue x hx).1 (hvalue x hx).2

/-- A call of a modifier is made from values, which are not all defaults unless it is one of a
collection. -/
theorem exists_valuesOf_call {m : Modifier} (hr : m.Restorable) {e : Element} {cs : List Call}
    (h : modifierCalls e m = .ok cs) {c : Call} (hc : c ∈ cs) :
    ∃ lead vs, valuesOf e lead m.params = .ok vs ∧ c = .chained m.method (callArgs m vs) ∧
      (m.each = none → allDefault vs = .ok false) := by
  cases he : m.each with
  | some each =>
    rcases modifierCalls_each he h with ⟨-, rfl⟩ | ⟨-, found, -, hall⟩
    · cases hc
    · obtain ⟨i, -, vs, hv, rfl⟩ := exists_of_forall₂ hall hc
      have hflag : m.flag = false := by
        rw [Bool.eq_false_iff]
        intro hf
        rw [hr.each_of_flag hf] at he
        cases he
      exact ⟨_, vs, hv, by simp [callArgs, hflag], fun hno => by cases hno⟩
  | none =>
    rcases modifierCalls_single he h with ⟨-, rfl⟩ | ⟨-, vs, hv, ⟨-, rfl⟩ | ⟨hd, rfl⟩⟩
    · cases hc
    · cases hc
    · exact ⟨_, vs, hv, List.mem_singleton.mp hc, fun _ => hd⟩

/-- What the calls of a modifier were made from. -/
theorem exists_isCall {m : Modifier} (hr : m.Restorable) {e : Element} {cs : List Call}
    (h : modifierCalls e m = .ok cs) (hs : ∀ c ∈ cs, SaysValues c) :
    (∀ c ∈ cs, ∃ vs, IsCall m c vs) ∧ (m.each = none → cs.length ≤ 1) ∧
      (cs ≠ [] → ∀ g, m.guard = some g → g.accepts e.properties = true) := by
  have hguard (hg : m.guard.any (fun g => !g.accepts e.properties) = false) (g : Guard)
      (hgs : m.guard = some g) : g.accepts e.properties = true := by
    simpa [hgs] using hg
  refine ⟨fun c hc => ?_, ?_⟩
  · obtain ⟨lead, vs, hv, rfl, hd⟩ := exists_valuesOf_call hr h hc
    exact ⟨vs, isCall_of_valuesOf hr hv hd (hs _ hc)⟩
  · cases he : m.each with
    | some each =>
      rcases modifierCalls_each he h with ⟨-, rfl⟩ | ⟨hg, -⟩
      · exact ⟨nofun, fun hne => absurd rfl hne⟩
      · exact ⟨nofun, fun _ => hguard hg⟩
    | none =>
      rcases modifierCalls_single he h with ⟨-, rfl⟩ | ⟨hg, vs, -, ⟨-, rfl⟩ | ⟨-, rfl⟩⟩
      · exact ⟨fun _ => Nat.zero_le 1, fun hne => absurd rfl hne⟩
      · exact ⟨fun _ => Nat.zero_le 1, fun hne => absurd rfl hne⟩
      · exact ⟨fun _ => Nat.le_refl 1, fun _ => hguard hg⟩

end Element

end FluentPlan
