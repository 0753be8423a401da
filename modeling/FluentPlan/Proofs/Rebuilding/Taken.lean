import FluentPlan.Proofs.Number.Text
import FluentPlan.Proofs.Param.Saying
import FluentPlan.Proofs.Rebuilding.GroupForm

/-!
Nothing that code says is refused on its way into an element, except for `null`. The argument of a
value binds a value again, the calls of modifiers are applied, and what is bound can be stored; only a
missing value has no expression that every parameter takes.
-/

namespace FluentPlan

open Build Script Number

/-! ### Arguments -/

namespace Param

/-- The doubles that are found are those that their texts spell. -/
theorem readsDouble_of_found {p : Param} {v : Option Value} (h : p.Found v) : ReadsDouble v := by
  rintro x rfl
  cases h with
  | read he hd h =>
    have hfits := ParamKind.fits_of_read h
    have hread : ∃ raw, ParamKind.readDouble raw = .ok (.double x) := by
      cases hk : p.kind <;> rw [hk] at h hfits <;> first | exact ⟨_, h⟩ | cases hfits
    obtain ⟨raw, hread⟩ := hread
    obtain ⟨y, hy, hfinite⟩ := ParamKind.fits_of_readDouble hread
    cases hy
    exact Double.ofText?_text hfinite (Double.isProper_ofText? (ParamKind.ofText?_of_readDouble hread))

/-- The argument of a value that is found is taken. -/
theorem Found.exists_fromArg {p : Param} (hp : p.isRestored = true) {v : Value}
    (h : p.Found (some v)) {a : Expr} (ha : p.exprs (some v) = [a.unplaced]) :
    ∃ w, p.fromArg a = .ok (some w) := by
  simp only [isRestored, Bool.and_eq_true, Bool.not_eq_true'] at hp
  obtain ⟨⟨⟨hecho, hvar⟩, -⟩, -⟩ := hp
  have hdouble := readsDouble_of_found h
  cases h with
  | dynamic ht => exact ⟨_, fromArg_of_isDynamic p ht (List.singleton_inj.mp ha).symm⟩
  | read he hd h =>
    have hback := ParamKind.readsBack_of_read he hd h fun x hx => hdouble x (by rw [hx])
    rw [valueExprs_of_not_isDynamic hback.static] at ha
    cases hexact : p.kind.isExact with
    | true => exact ⟨v, fromArg_of_readsBack hexact hback ha⟩
    | false =>
      have hfits := ParamKind.fits_of_read h
      cases hk : p.kind with
      | charset =>
        rw [hk] at hback hfits ha
        cases v with
        | text s =>
          obtain ⟨t, ht, -⟩ := fromArg_charset hk hback (List.singleton_inj.mp ha).symm
          exact ⟨_, ht⟩
        | _ => cases hfits
      | classRef =>
        rw [hk] at hfits ha
        cases v with
        | text s =>
          obtain ⟨pos, rfl⟩ := Expr.eq_name_of_unplaced (List.singleton_inj.mp ha).symm
          exact ⟨_, fromArg_classRef hk s pos⟩
        | _ => cases hfits
      | enum type javaClass =>
        rw [hk] at hecho hexact
        rw [ParamKind.isExact, EnumType.isNamed_of_isTold hecho] at hexact
        cases hexact
      | _ => simp [hk, ParamKind.isEchoed, ParamKind.isVariadic, ParamKind.isExact] at hecho hvar hexact

theorem not_variadic_of_isRestored {p : Param} (hp : p.isRestored = true) :
    p.kind.isVariadic = false := by
  simp only [isRestored, Bool.and_eq_true, Bool.not_eq_true'] at hp
  exact hp.1.1.2

/-- What an element has of a parameter is found, also where it is the default. -/
theorem found_of_valueOf {p : Param} (hp : p.isRestored = true)
    (hh : ∀ unit key, p.kind ≠ .holdDuration unit key) {e : Element} {lead : String} {v : Value}
    (h : p.valueOf e lead = .ok (some v)) : p.Found (some v) := by
  have hlist : p.kind ≠ .textList := by
    intro hk
    have := not_variadic_of_isRestored hp
    rw [hk] at this
    cases this
  unfold valueOf at h
  split at h
  · next hk => exact absurd hk hlist
  · next unit key hk => exact absurd hk (hh unit key)
  · simp only [isRestored, Bool.and_eq_true, Bool.not_eq_true'] at hp
    rcases found_parse h with heq | hfound
    · rw [heq]
      exact found_default hp.1.2 (heq ▸ Option.some_ne_none v)
    · exact hfound

end Param

namespace Build

/-- A value and the parameter that its argument goes to, which takes the argument and has a value then
if there was one. -/
structure Passes (x : Param × Option Value) (p : Param) : Prop where
  single : p.kind.isVariadic = false
  mandatory : p.mandatory = x.1.mandatory
  taken : ∃ e, x.1.exprs x.2 = [e] ∧
    ∀ a, a.unplaced = e → ∃ b, p.fromArg a = .ok b ∧ (x.2 ≠ none → b ≠ none)

/-- A value beside what was bound for it, which is one as well. -/
def Gives (x y : Param × Option Value) : Prop := x.2 ≠ none → y.2 ≠ none

theorem passes_none {p : Param} (h : p.takesNull = true) : Passes (p, none) p where
  single := by
    simp only [Param.takesNull, Bool.or_eq_true, decide_eq_true_eq] at h
    rcases h with (h | h) | h <;> rw [h] <;> rfl
  mandatory := rfl
  taken := by
    refine ⟨.null .start, rfl, fun a ha => ?_⟩
    obtain ⟨pos, rfl⟩ := Expr.eq_null_of_unplaced ha
    exact ⟨none, Param.fromArg_null h pos, fun h => absurd rfl h⟩

theorem passes_found {p : Param} (hp : p.isRestored = true) {v : Value} (h : p.Found (some v)) :
    Passes (p, some v) p where
  single := Param.not_variadic_of_isRestored hp
  mandatory := rfl
  taken := by
    obtain ⟨e, he⟩ := Param.exists_exprs_eq (Param.not_variadic_of_isRestored hp) (some v)
    refine ⟨e, he, fun a ha => ?_⟩
    obtain ⟨w, hw⟩ := h.exists_fromArg hp (by rw [he, ha])
    exact ⟨some w, hw, fun _ => Option.some_ne_none w⟩

/-- Values that pass are bound, and what is left out has its default. -/
theorem exists_bindValues (taken : Param → Bool) {vs : List (Param × Option Value)}
    {ps : List Param}
    (h : List.Forall₂ (fun x p => Passes x p ∧ taken p = (Arg.scalar x.1 x.2).isRendered ∧
      (taken p = false → p.default ≠ none)) vs ps)
    {args : List Expr}
    (ha : args.map Expr.unplaced = vs.flatMap fun x => (Arg.scalar x.1 x.2).exprs) :
    ∃ values, bindValues taken ps args = .ok values ∧ List.Forall₂ Gives vs values := by
  induction h generalizing args with
  | nil => exact ⟨[], rfl, .nil⟩
  | @cons x p vs ps hxp _ ih =>
    obtain ⟨hpass, htaken, hdefault⟩ := hxp
    obtain ⟨e, he, hfrom⟩ := hpass.taken
    rw [List.flatMap_cons, Arg.exprs, ← htaken] at ha
    cases ht : taken p with
    | true =>
      rw [if_pos ht, he] at ha
      obtain ⟨a, as, rfl, rfl, has⟩ := List.map_eq_cons_iff.mp ha
      obtain ⟨b, hb, hgives⟩ := hfrom a rfl
      obtain ⟨values, hvalues, hall⟩ := ih has
      refine ⟨(p, b) :: values, ?_, .cons hgives hall⟩
      simp only [bindValues, ht, hpass.single, hb, hvalues, ok_bind, Bool.not_true,
        Bool.false_eq_true, if_false]
      rfl
    | false =>
      rw [if_neg (by simp [ht]), List.nil_append] at ha
      obtain ⟨values, hvalues, hall⟩ := ih ha
      refine ⟨(p, p.default) :: values, ?_, .cons (fun _ => hdefault ht) hall⟩
      simp only [bindValues, ht, hvalues, ok_bind, Bool.not_false, if_true]
      rfl

/-- The values of a signature's parameters are bound, the one that may be left out being there or not. -/
theorem exists_bindScalars {ps : List Param} {vs : List (Param × Option Value)}
    (h : List.Forall₂ Passes vs ps) (ho : ∀ p ∈ ps, p.mandatory = false → p.isOptionalName = true)
    (hone : (ps.filter fun p => p.kind = .displayName).length ≤ 1) {args : List Expr}
    (ha : args.map Expr.unplaced = vs.flatMap fun x => (Arg.scalar x.1 x.2).exprs) (line : Nat)
    (name : String) :
    ∃ values, bindScalars ps line name args = .ok values ∧ List.Forall₂ Gives vs values := by
  have hname {p : Param} (hp : p ∈ ps) (hm : p.mandatory = false) :
      p.kind = .displayName ∧ p.default ≠ none := by
    have := ho p hp hm
    simp only [Param.isOptionalName, Bool.and_eq_true, decide_eq_true_eq] at this
    refine ⟨this.1.1, fun hnone => ?_⟩
    rw [hnone] at this
    cases this.2
  have hall := forall₂_mem h
  have hrendered {x : Param × Option Value} {p : Param} (hxp : Passes x p) (hm : p.mandatory = true) :
      (Arg.scalar x.1 x.2).isRendered = true := by
    simp [Arg.isRendered, ← hxp.mandatory, hm]
  have hlen : args.length = vs.countP fun x => (Arg.scalar x.1 x.2).isRendered := by
    have hlen := congrArg List.length ha
    rw [List.length_map] at hlen
    rw [hlen]
    refine length_flatMap_of_forall fun x hx => ?_
    obtain ⟨p, -, -, -, hpass⟩ := exists_of_forall₂ hall.flip hx
    obtain ⟨e, he, -⟩ := hpass.taken
    cases hr : (Arg.scalar x.1 x.2).isRendered <;> simp [Arg.exprs, hr, he]
  have hsingle : ∀ p ∈ ps, p.kind.isVariadic = false := fun p hp => by
    obtain ⟨x, -, -, -, hpass⟩ := exists_of_forall₂ hall hp
    exact hpass.single
  by_cases hfull : ∀ x ∈ vs, (Arg.scalar x.1 x.2).isRendered = true
  · obtain ⟨values, hb, hgives⟩ := exists_bindValues (fun _ => true)
      (hall.imp fun x p hxp => ⟨hxp.2.2, (hfull x hxp.1).symm, fun hno => by cases hno⟩) ha
    rw [List.countP_eq_length.mpr hfull, h.length_eq] at hlen
    refine ⟨values, ?_, hgives⟩
    simp only [bindScalars, fits_of_not_isVariadic hsingle, hlen, hb, decide_true, if_true]
  · -- one name is left out, and only one may be, so what appears is what is mandatory
    have hcount : vs.countP (fun x => x.1.mandatory) = ps.countP (·.mandatory) :=
      countP_of_forall₂ h fun x p hxp => hxp.mandatory.symm
    have hsplit := List.length_eq_countP_add_countP (·.mandatory) (l := ps)
    have hoptional : ps.countP (fun p => !p.mandatory) ≤ 1 := by
      refine Nat.le_trans (List.countP_mono_left fun p hp hm => ?_)
        (List.countP_eq_length_filter ▸ hone)
      simpa using (hname hp (by simpa using hm)).1
    have hless : (vs.countP fun x => (Arg.scalar x.1 x.2).isRendered) ≠ vs.length :=
      fun heq => hfull (List.countP_eq_length.mp heq)
    have hmore : vs.countP (fun x => x.1.mandatory) ≤
        vs.countP fun x => (Arg.scalar x.1 x.2).isRendered :=
      List.countP_mono_left fun x _ hm => by simp [Arg.isRendered, hm]
    have hle := List.countP_le_length (p := fun x => (Arg.scalar x.1 x.2).isRendered) (l := vs)
    have hlength := h.length_eq
    have heq := eq_of_countP_eq (p := fun x => x.1.mandatory)
      (q := fun x => (Arg.scalar x.1 x.2).isRendered)
      (fun x (_ : x ∈ vs) hm => by simp [Arg.isRendered, hm]) (by simp at hsplit hoptional; omega)
    obtain ⟨values, hb, hgives⟩ := exists_bindValues (·.mandatory)
      (hall.imp fun x p hxp => ⟨hxp.2.2, hxp.2.2.mandatory.trans (heq x hxp.1).symm,
        fun hm => (hname hxp.2.1 hm).2⟩) ha
    refine ⟨values, ?_, hgives⟩
    have hbrief : args.length = (ps.filter (·.mandatory)).length := by
      rw [← List.countP_eq_length_filter]
      simp at hsplit hoptional
      omega
    have hfilter : ∀ p ∈ ps.filter (·.mandatory), p.kind.isVariadic = false :=
      fun p hp => hsingle p (List.mem_of_mem_filter hp)
    have hshort : args.length ≠ ps.length := by omega
    simp only [bindScalars, fits_of_not_isVariadic hsingle, fits_of_not_isVariadic hfilter, hb,
      hshort, ← hbrief, decide_true, decide_false, Bool.and_true, ne_eq, not_false_eq_true, if_true,
      Bool.false_eq_true, if_false]

/-! ### Storing -/

/-- Whether a value can be stored: its parameter has a place, and a list of texts is one. -/
def Storable (x : Param × Option Value) : Prop :=
  x.1.isPlaced = true ∧ (x.1.kind = .textList → ∃ items, x.2 = some (.texts items))

theorem Storable.store {x : Param × Option Value} (h : Storable x) (props : Properties)
    (lead : String) : x.1.store x.2 props lead = .ok (props.putAll (x.1.entries x.2 lead)) := by
  obtain ⟨hp, hl⟩ := h
  obtain ⟨after, hafter⟩ : ∃ after, x.1.store x.2 props lead = .ok after := by
    unfold Param.store
    split
    · next hk =>
      obtain ⟨items, hitems⟩ := hl hk
      rw [hitems]
      exact ⟨_, rfl⟩
    · next unit key hk => exact absurd hk (Element.not_holdDuration_of_isPlaced hp unit key)
    · exact ⟨_, rfl⟩
  rw [hafter, Param.store_eq_ok hp hafter]

theorem exists_storeAll {values : List (Param × Option Value)} (h : ∀ x ∈ values, Storable x)
    (lead : String) (props : Properties) : ∃ after, storeAll lead values props = .ok after := by
  induction values generalizing props with
  | nil => exact ⟨props, rfl⟩
  | cons x values ih =>
    obtain ⟨after, hafter⟩ := ih (fun y hy => h y (List.mem_cons_of_mem x hy)) _
    exact ⟨after, by rw [storeAll, (h x List.mem_cons_self).store, ok_bind, hafter]⟩

/-- A default can be stored. -/
theorem storable_default {m : Modifier} (hr : m.Restorable) {p : Param} (hp : p ∈ m.params) :
    Storable (p, p.default) := by
  refine ⟨hr.placed p hp, fun hk => ?_⟩
  have hdefault := (Param.restoresDefault_sound (hr.restoresDefault p hp)).1
  rw [Param.reread, if_pos hk] at hdefault
  exact ⟨_, (Except.ok.inj hdefault).symm⟩

/-! ### Chained calls -/

/-- Whether an argument can say what is there of a parameter. -/
def Sayable (x : Param × Option Value) : Prop :=
  (x.2 = none ∧ x.1.takesNull = true) ∨ ∃ v, x.2 = some v ∧ x.1.Sayable v

theorem passes_of_sayable {x : Param × Option Value} (hp : x.1.isRestored = true) (h : Sayable x) :
    Passes x x.1 := by
  obtain ⟨p, v⟩ := x
  have hvar := Param.not_variadic_of_isRestored hp
  rcases h with ⟨hnone, hnull⟩ | ⟨w, hw, hsay⟩
  · obtain rfl : v = none := hnone
    exact passes_none hnull
  · obtain rfl : v = some w := hw
    cases hsay with
    | found _ hfound => exact passes_found hp hfound
    | listed hk | nothing hk =>
      rw [show p.kind = _ from hk] at hvar
      cases hvar

/-- What lists texts is bound to a list. -/
theorem exists_bindAll_listing {m : Modifier} (hr : m.Restorable) (hl : m.isListing = true)
    {vs : List (Param × Option Value)} (hfst : vs.map Prod.fst = m.params)
    (hs : ∀ x ∈ vs, Sayable x) {args : List Expr}
    (ha : args.map Expr.unplaced = vs.flatMap fun x => (Arg.scalar x.1 x.2).exprs) (line : Nat)
    (name : String) :
    ∃ ys, bindAll m.params line name args = .ok ys ∧ ∀ y ∈ ys, Storable y := by
  unfold Modifier.isListing at hl
  split at hl
  · next p hparams =>
    simp only [Bool.and_eq_true] at hl
    have hvar : p.kind.isVariadic = true := hl.1.1.1
    have hp : p ∈ m.params := hparams ▸ List.mem_cons_self
    rw [hparams] at hfst
    obtain ⟨v, rfl⟩ := eq_singleton_of_map_fst hfst
    obtain ⟨w, rfl, hsay⟩ : ∃ w, v = some w ∧ p.Sayable w := by
      refine (hs _ List.mem_cons_self).resolve_left ?_
      rintro ⟨-, hnull⟩
      simp only [Param.takesNull, Bool.or_eq_true, decide_eq_true_eq] at hnull
      rcases hnull with (hk | hk) | hk <;> rw [hk] at hvar <;> cases hvar
    obtain ⟨items, hitems⟩ : ∃ items : List String, p.exprs (some w) = items.map (.text .start) := by
      cases hsay with
      | found _ hfound => exact hfound.exists_items hvar
      | listed _ items => exact ⟨items, Param.exprs_texts hvar items⟩
      | nothing => exact ⟨[], Param.exprs_texts hvar []⟩
    have hfrom : p.fromArgs args = .ok (some (.texts items)) := by
      refine Param.fromArgs_of_unplaced p (ha.trans ?_)
      simp [Arg.exprs, Arg.isRendered, hr.mandatory p hp, hitems]
    refine ⟨[(p, some (.texts items))], ?_, fun y hy => ?_⟩
    · rw [hparams, bindAll]
      simp [fits, hvar, bindValues, hfrom, ok_bind, pure, Except.pure]
    · rw [List.mem_singleton.mp hy]
      exact ⟨hr.placed p hp, fun _ => ⟨items, rfl⟩⟩
  · cases hl

/-- Values that pass are bound one by one, where all appear in code. -/
theorem exists_bindAll {vs : List (Param × Option Value)} {ps : List Param}
    (h : List.Forall₂ Passes vs ps) (hr : ∀ x ∈ vs, (Arg.scalar x.1 x.2).isRendered = true)
    {args : List Expr}
    (ha : args.map Expr.unplaced = vs.flatMap fun x => (Arg.scalar x.1 x.2).exprs) (line : Nat)
    (name : String) :
    ∃ values, bindAll ps line name args = .ok values ∧ values.map Prod.fst = ps := by
  have hall := forall₂_mem h
  obtain ⟨values, hvalues, -⟩ := exists_bindValues (fun _ => true)
    (hall.imp fun x p hxp => ⟨hxp.2.2, (hr x hxp.1).symm, fun hno => by cases hno⟩) ha
  have hvar : ∀ p ∈ ps, p.kind.isVariadic = false := fun p hp => by
    obtain ⟨x, -, -, -, hpass⟩ := exists_of_forall₂ hall hp
    exact hpass.single
  have hlen : args.length = ps.length := by
    have hlen := congrArg List.length ha
    rw [List.length_map] at hlen
    rw [hlen, ← h.length_eq]
    refine (length_flatMap_of_forall (p := fun _ => true) fun x hx => ?_).trans
      (congrFun List.countP_true vs)
    obtain ⟨p, -, -, -, hpass⟩ := exists_of_forall₂ hall.flip hx
    obtain ⟨e, he, -⟩ := hpass.taken
    rw [Arg.exprs, if_pos (hr x hx), he]
    rfl
  refine ⟨values, ?_, map_fst_of_bindValues hvalues⟩
  rw [bindAll, if_pos, hvalues]
  rw [fits_of_not_isVariadic hvar, hlen]
  exact decide_eq_true rfl

/-- What goes to parameters one by one is bound to a value each. -/
theorem exists_bindAll_divided {m : Modifier} (hr : m.Restorable) (hd : m.isDivided = true)
    {vs : List (Param × Option Value)} (hfst : vs.map Prod.fst = m.params)
    (hs : ∀ x ∈ vs, Sayable x) {args : List Expr}
    (ha : args.map Expr.unplaced = vs.flatMap fun x => (Arg.scalar x.1 x.2).exprs) (line : Nat)
    (name : String) :
    ∃ ys, bindAll m.params line name args = .ok ys ∧ ∀ y ∈ ys, Storable y := by
  simp only [Modifier.isDivided, Bool.and_eq_true, List.all_eq_true] at hd
  have hmem {x : Param × Option Value} (hx : x ∈ vs) : x.1 ∈ m.params :=
    hfst ▸ List.mem_map_of_mem hx
  have hpass : List.Forall₂ Passes vs m.params := by
    rw [← hfst, List.forall₂_map_right_iff]
    exact List.forall₂_same.mpr fun x hx =>
      passes_of_sayable (hd.1 x.1 (hmem hx)).1 (hs x hx)
  obtain ⟨values, hbind, hvalues⟩ := exists_bindAll hpass
    (fun x hx => by simp [Arg.isRendered, hr.mandatory x.1 (hmem hx)]) ha line name
  refine ⟨values, hbind, fun y hy => ?_⟩
  have hy : y.1 ∈ m.params := hvalues ▸ List.mem_map_of_mem hy
  refine ⟨hr.placed _ hy, fun hk => ?_⟩
  have hno := Param.not_variadic_of_isRestored (hd.1 y.1 hy).1
  rw [hk] at hno
  cases hno

/-- What an invocation says of a modifier is bound, to values that can be stored. -/
theorem exists_bound {m : Modifier} (hr : m.Restorable) {vs : List (Param × Option Value)}
    (hfst : vs.map Prod.fst = m.params) (hs : ∀ x ∈ vs, Sayable x) {inv : Invocation Operand}
    (hsaid : Says inv (.chained m.method (Element.callArgs m vs))) :
    ∃ ys, bound m inv = .ok ys ∧ ∀ y ∈ ys, Storable y := by
  rcases args_of_says hr hfst hsaid with ⟨hflag, hnil, -⟩ | ⟨hargs, hall⟩
  · have hone := hr.switch hflag
    unfold Modifier.isSwitch at hone
    split at hone
    · next prop d required mandatory hparams =>
      refine ⟨_, by unfold bound; rw [hnil, hflag, hparams]; rfl, fun y hy => ?_⟩
      rw [List.mem_singleton.mp hy]
      exact ⟨hr.placed _ (hparams ▸ List.mem_cons_self), fun hk => by cases hk⟩
    · cases hone
  · rw [hall]
    have ha : (inv.args.map (·.expr)).map Expr.unplaced =
        vs.flatMap fun x => (Arg.scalar x.1 x.2).exprs := by
      rw [List.map_map]
      exact hargs
    exact hr.divided.elim (fun hl => exists_bindAll_listing hr hl hfst hs ha _ _)
      fun hd => exists_bindAll_divided hr hd hfst hs ha _ _

theorem exists_applyArgs {m : Modifier} {c : Invocation Operand}
    {values : List (Param × Option Value)}
    (hb : bindAll m.params c.pos.line c.name (c.args.map (·.expr)) = .ok values)
    (hs : ∀ x ∈ values, Storable x) (d : Draft) : ∃ after, applyArgs m c d = .ok after := by
  unfold applyArgs
  rw [hb, ok_bind]
  cases m.each with
  | none =>
    obtain ⟨props, hprops⟩ := exists_storeAll hs "" d.props
    exact ⟨_, by simp only [hprops]; rfl⟩
  | some each =>
    obtain ⟨props, hprops⟩ :=
      exists_storeAll hs (each ++ "/" ++ toString (d.count m.method) ++ "/") d.props
    exact ⟨_, by simp only [hprops]; rfl⟩

/-- A modifier is applied to what is bound for it. -/
theorem exists_applyModifier {m : Modifier} {c : Invocation Operand}
    {values : List (Param × Option Value)} (hb : bound m c = .ok values)
    (hs : ∀ x ∈ values, Storable x) (d : Draft) : ∃ after, applyModifier m c d = .ok after := by
  unfold bound at hb
  unfold applyModifier
  cases hflag : m.flag && c.args.isEmpty with
  | false =>
    rw [hflag] at hb
    obtain ⟨mid, hmid⟩ := exists_applyArgs hb hs d
    simp only [hmid, ok_bind]
    exact ⟨_, rfl⟩
  | true =>
    rw [hflag] at hb
    cases hparams : m.params with
    | nil =>
      rw [hparams] at hb
      obtain ⟨mid, hmid⟩ := exists_applyArgs (by rw [hparams]; exact hb) hs d
      simp only [hmid, ok_bind]
      exact ⟨_, rfl⟩
    | cons p ps =>
      rw [hparams] at hb
      cases hb
      simp only [(hs _ List.mem_cons_self).store d.props "", ok_bind]
      exact ⟨_, rfl⟩

/-- Invocations are applied whose modifiers are there and are applied. -/
theorem exists_applyChain {s : Signature} {invs tail : List (Invocation Operand)}
    (h : ∀ inv ∈ invs, inv.name ≠ childrenMethod ∧ ∃ m, findModifier s inv.pos.line inv.name = .ok m ∧
      ∃ values, bound m inv = .ok values ∧ ∀ x ∈ values, Storable x)
    (ht : IsTail tail) {es : List Element}
    (hes : (elements (tail.flatMap (·.args))).outcome = .ok es) (d : Draft) :
    ∃ r, (applyChain s (invs ++ tail) d).outcome = .ok r := by
  induction invs generalizing d with
  | nil =>
    rcases ht with rfl | ⟨inv, rfl, hname⟩
    · exact ⟨_, rfl⟩
    · simp only [List.flatMap_cons, List.flatMap_nil, List.append_nil] at hes
      refine ⟨(d, es ++ []), ?_⟩
      rw [List.nil_append, applyChain, if_pos hname]
      simp only [Logged.outcome_bind, hes, ok_bind]
      rfl
  | cons inv invs ih =>
    obtain ⟨hne, m, hfind, values, hb, hs⟩ := h inv List.mem_cons_self
    obtain ⟨after, hafter⟩ := exists_applyModifier hb hs d
    obtain ⟨r, hrest⟩ := ih (fun c hc => h c (List.mem_cons_of_mem inv hc)) after
    refine ⟨r, ?_⟩
    rw [List.cons_append, applyChain, if_neg hne]
    simp only [Logged.outcome_bind, Logged.outcome_ofExcept, hfind, ok_bind, hafter, hrest]

theorem exists_storeUncalled (called : List String) {ms : List Modifier}
    (hm : ∀ m ∈ ms, m.Restorable) (props : Properties) :
    ∃ after, storeUncalled called ms props = .ok after := by
  induction ms generalizing props with
  | nil => exact ⟨props, rfl⟩
  | cons m ms ih =>
    have hrest := ih fun n hn => hm n (List.mem_cons_of_mem m hn)
    rw [storeUncalled]
    split_ifs
    · exact hrest props
    · obtain ⟨mid, hmid⟩ := exists_storeAll
        (show ∀ x ∈ m.params.map fun p => (p, p.default), Storable x from fun x hx => by
          obtain ⟨p, hp, rfl⟩ := List.mem_map.mp hx
          exact storable_default (hm m List.mem_cons_self) hp) "" props
      obtain ⟨after, hafter⟩ := hrest mid
      exact ⟨after, by rw [hmid, ok_bind, hafter]⟩

/-! ### Calls of modifiers -/

/-- What a call of a modifier was made from can be said, where `null` stands only for texts. -/
theorem sayable_of_valuesOf {m : Modifier} (hr : m.Restorable) {e : Element} {lead : String}
    {vs : List (Param × Option Value)} (hv : Element.valuesOf e lead m.params = .ok vs)
    (hd : m.each = none → Element.allDefault vs = .ok false)
    (hn : ∀ p, Arg.scalar p none ∈ Element.callArgs m vs → p.takesNull = true) :
    ∀ x ∈ vs, Sayable x := by
  have hfst := Element.map_fst_of_valuesOf hv
  rintro ⟨p, v⟩ hx
  obtain ⟨hp, hvalue⟩ := Element.mem_of_valuesOf hv hx
  cases v with
  | none =>
    refine .inl ⟨rfl, ?_⟩
    by_cases hflag : (m.flag && !(Element.argsOf vs).any Arg.isDynamic) = true
    · have hf := (Bool.and_eq_true_iff.mp hflag).1
      exact absurd rfl (Element.switch_value (hr.switch hf) hv (hd (hr.each_of_flag hf)) _ hx).1
    · refine hn p ?_
      rw [Element.callArgs, if_neg hflag, Element.argsOf_eq fun y hy =>
        Param.ne_children_of_isPlaced (hr.placed y.1 (hfst ▸ List.mem_map_of_mem hy))]
      exact List.mem_map_of_mem (f := fun y : Param × Option Value => Arg.scalar y.1 y.2) hx
  | some v =>
    refine .inr ⟨v, rfl, ?_⟩
    have hhold := Element.not_holdDuration_of_isPlaced (hr.placed p hp)
    rcases hr.divided with hl | hdiv
    · unfold Modifier.isListing at hl
      split at hl
      · next q hparams =>
        simp only [Bool.and_eq_true, Option.isNone_iff_eq_none] at hl
        rw [hparams] at hfst
        obtain ⟨w, rfl⟩ := eq_singleton_of_map_fst hfst
        cases List.mem_singleton.mp hx
        have hdef := hd hl.2
        rw [Element.allDefault_singleton] at hdef
        by_cases hk : p.kind = .textList
        · unfold Param.valueOf at hvalue
          rw [hk] at hvalue
          obtain ⟨entries, -, hvalue⟩ := exists_of_bind_eq_ok hvalue
          cases hvalue
          exact .listed hk _
        · refine .found hk ?_
          have hparse : p.parse (p.extract e lead) = .ok (some v) := by
            unfold Param.valueOf at hvalue
            split at hvalue
            · next h => exact absurd h hk
            · next unit key h => exact absurd h (hhold unit key)
            · exact hvalue
          refine (Param.found_parse hparse).resolve_left fun heq => ?_
          rw [heq, (Param.restoresDefault_sound (hr.restoresDefault p hp)).2.2] at hdef
          cases hdef
      · cases hl
    · simp only [Modifier.isDivided, Bool.and_eq_true, List.all_eq_true] at hdiv
      have hres := (hdiv.1 p hp).1
      refine .found (fun hk => ?_) (Param.found_of_valueOf hres hhold hvalue)
      have hvar := Param.not_variadic_of_isRestored hres
      rw [hk] at hvar
      cases hvar

/-- What says a call of a modifier is bound, where `null` stands only for texts. -/
theorem exists_bound_of_mem {m : Modifier} (hr : m.Restorable) {e : Element} {cs : List Call}
    (h : Element.modifierCalls e m = .ok cs) {c : Call} (hc : c ∈ cs)
    (hn : ∀ p, Arg.scalar p none ∈ c.head.args → p.takesNull = true) {inv : Invocation Operand}
    (hsaid : Says inv c) : ∃ ys, bound m inv = .ok ys ∧ ∀ y ∈ ys, Storable y := by
  obtain ⟨lead, vs, hv, rfl, hd⟩ := Element.exists_valuesOf_call hr h hc
  exact exists_bound hr (Element.map_fst_of_valuesOf hv) (sayable_of_valuesOf hr hv hd hn) hsaid

/-! ### Elements -/

theorem exists_of_elements_append {as bs : List Operand} {es : List Element}
    (h : (elements (as ++ bs)).outcome = .ok es) :
    ∃ first more, (elements as).outcome = .ok first ∧ (elements bs).outcome = .ok more ∧
      es = first ++ more := by
  induction as generalizing es with
  | nil => exact ⟨[], es, rfl, h, rfl⟩
  | cons a as ih =>
    rw [List.cons_append, elements] at h
    simp only [Logged.outcome_bind] at h
    obtain ⟨e, ha, h⟩ := exists_of_bind_eq_ok h
    obtain ⟨rest, hrest, h⟩ := exists_of_bind_eq_ok h
    cases h
    obtain ⟨first, more, hfirst, hmore, rfl⟩ := ih hrest
    refine ⟨e :: first, more, ?_, hmore, rfl⟩
    rw [elements]
    simp only [Logged.outcome_bind, ha, hfirst, ok_bind]
    rfl

section

variable {s : Signature} (hs : s.Restorable) {e : Element}

include hs

/-- Arguments that say values of an element are bound to values. -/
theorem exists_bindScalars_of_valuesOf {vs : List (Param × Option Value)}
    (hv : Element.scalarValues s e = .ok vs) (hn : ∀ x ∈ vs, x.2 ≠ none) {leading : List Expr}
    (hl : leading.map Expr.unplaced = vs.flatMap fun x => (Arg.scalar x.1 x.2).exprs) (line : Nat)
    (name : String) :
    ∃ values, bindScalars s.scalarParams line name leading = .ok values ∧
      values.map Prod.fst = s.scalarParams ∧ ∀ y ∈ values, y.2 ≠ none := by
  have hfst : vs.map Prod.fst = s.scalarParams := Element.map_fst_of_valuesOf hv
  have hrestored {p : Param} (hp : p ∈ s.scalarParams) : p.isRestored = true :=
    (Bool.and_eq_true_iff.mp (hs.scalars p hp)).1
  have hvar : ∀ p ∈ s.scalarParams, p.kind.isVariadic = false :=
    fun p hp => Param.not_variadic_of_isRestored (hrestored hp)
  have hpass : List.Forall₂ Passes vs s.scalarParams := by
    rw [← hfst, List.forall₂_map_right_iff]
    refine List.forall₂_same.mpr fun x hx => ?_
    obtain ⟨hp, hvalue⟩ := Element.mem_of_valuesOf hv hx
    obtain ⟨p, v⟩ := x
    obtain ⟨v, rfl⟩ := Option.ne_none_iff_exists'.mp (hn _ hx)
    exact passes_found (hrestored hp) (Param.found_of_valueOf (hrestored hp)
      (Param.not_holdDuration_of_isRestorable (hs.scalars p hp)) hvalue)
  obtain ⟨values, hb, hgives⟩ := exists_bindScalars hpass hs.optional hs.one_name hl line name
  refine ⟨values, hb, ?_, fun y hy => ?_⟩
  · rcases bindScalars_eq_ok hvar hb with ⟨-, hb⟩ | ⟨-, hb⟩ <;> exact map_fst_of_bindValues hb
  · obtain ⟨x, hx, hxy⟩ := exists_of_forall₂ hgives hy
    exact hxy (hn x hx)

variable {values : List (Param × Option Value)} (hfst : values.map Prod.fst = s.scalarParams)
  {blocks : List (Modifier × List Call)} (hm : blocks.map Prod.fst = s.modifiers)
  (hb : ∀ b ∈ blocks, Element.modifierCalls e b.1 = .ok b.2) {invs tail : List (Invocation Operand)}
  (hi : List.Forall₂ Says invs (blocks.flatMap Prod.snd)) (ht : IsTail tail)

include hm hb hi

/-- What says the calls of modifiers calls modifiers of the signature. -/
theorem exists_findModifier {inv : Invocation Operand} (hinv : inv ∈ invs) :
    ∃ b ∈ blocks, ∃ c ∈ b.2, Says inv c ∧ inv.name ≠ childrenMethod ∧
      findModifier s inv.pos.line inv.name = .ok b.1 := by
  obtain ⟨c, hc, hsaid⟩ := exists_of_forall₂ hi.flip hinv
  obtain ⟨b, hbmem, hc⟩ := List.mem_flatMap.mp hc
  obtain ⟨hmem, hr⟩ := modifier_of_mem hs hm hbmem
  have hname : inv.name = b.1.method :=
    hsaid.1.trans (Element.method_of_modifierCalls (hb b hbmem) hc)
  refine ⟨b, hbmem, c, hc, hsaid, hname ▸ hr.method_ne, ?_⟩
  rw [findModifier, hname, find?_method hs.methods_nodup hmem]

include ht

theorem checkChain_of_says (ha : tail ≠ [] → s.acceptsChildren = true) :
    checkChain s (invs ++ tail) = .ok () := by
  have hcalls : ∀ inv ∈ invs, inv.name ≠ childrenMethod ∧
      ∃ m, findModifier s inv.pos.line inv.name = .ok m := by
    intro inv hinv
    obtain ⟨b, -, -, -, -, hne, hfind⟩ := exists_findModifier hs hm hb hi hinv
    exact ⟨hne, b.1, hfind⟩
  clear hi
  induction invs with
  | nil =>
    cases tail with
    | nil => rfl
    | cons _ _ => exact checkChain_of_isTail (ha (List.cons_ne_nil _ _)) ht
  | cons inv invs ih =>
    obtain ⟨hne, m, hfind⟩ := hcalls inv List.mem_cons_self
    rw [List.cons_append, checkChain, if_pos hne, hfind]
    exact ih fun c hc => hcalls c (List.mem_cons_of_mem inv hc)

include hfst

/-- A signature makes an element of bound values and of what says the calls of an element, where `null`
stands only for texts. -/
theorem exists_construct
    (hn : ∀ b ∈ blocks, ∀ c ∈ b.2, ∀ p, Arg.scalar p none ∈ c.head.args → p.takesNull = true)
    {children : List Operand} (hleading : checkLeading s children = .ok ()) {es : List Element}
    (hes : (elements (children ++ tail.flatMap (·.args))).outcome = .ok es) :
    ∃ e', (construct s values children (invs ++ tail)).outcome = .ok e' := by
  obtain ⟨first, more, hfirst, hmore, -⟩ := exists_of_elements_append hes
  obtain ⟨props, hprops⟩ := exists_storeAll
    (show ∀ x ∈ values.filter fun x => x.1.kind ≠ .displayName, Storable x from fun x hx => by
      obtain ⟨hx, hk⟩ := List.mem_filter.mp hx
      have hp : x.1 ∈ s.scalarParams := hfst ▸ List.mem_map_of_mem hx
      refine ⟨placed_of_scalar hs hp (by simpa using hk), fun hlist => ?_⟩
      have hvar := Param.not_variadic_of_isRestored
        (Bool.and_eq_true_iff.mp (hs.scalars x.1 hp)).1
      rw [hlist] at hvar
      cases hvar) "" .empty
  obtain ⟨⟨d, added⟩, hchain⟩ := exists_applyChain (fun inv hinv => by
    obtain ⟨b, hbmem, c, hc, hsaid, hne, hfind⟩ := exists_findModifier hs hm hb hi hinv
    exact ⟨hne, b.1, hfind, exists_bound_of_mem (modifier_of_mem hs hm hbmem).2 (hb b hbmem) hc
      (hn b hbmem c hc) hsaid⟩) ht hmore ⟨props, []⟩
  obtain ⟨stored, hstored⟩ := exists_storeUncalled
    (((invs ++ tail).map (·.name)).filter (· ≠ childrenMethod)) hs.modifiers d.props
  exact ⟨_, outcome_construct hprops hleading hfirst hchain hstored⟩

end

end Build

end FluentPlan
