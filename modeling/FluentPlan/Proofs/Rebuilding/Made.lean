import FluentPlan.Proofs.Rebuilding.Taken

/-!
When a form makes an element of the code of another one. Most signatures have all that they require
among their own arguments. Such a form makes an element exactly if the arguments say a value each and
the children are built.
-/

namespace FluentPlan

open Build Script

namespace Guard

/-- Whether a guard is met once it is applied. -/
def isSettable : Guard → Bool
  | equals _ _ => true
  | isIn _ vs => !vs.isEmpty
  | _ => false

theorem accepts_apply_self {g : Guard} (h : g.isSettable = true) (props : Properties) :
    g.accepts (g.apply props) = true := by
  cases g with
  | equals k v => simp [accepts, apply]
  | isIn k vs =>
    cases vs with
    | nil => cases h
    | cons v vs =>
      rw [apply]
      split_ifs with ha
      · exact ha
      · simp [accepts]
  | not g => cases h
  | all gs => cases h

end Guard

namespace Param

/-- No value is what an element has of a parameter without a default. -/
theorem default_of_valueOf_none {p : Param} {e : Element} {lead : String}
    (h : p.valueOf e lead = .ok none) : p.default = none := by
  have hparse {raw : Option String} (h : p.parse raw = .ok none) : p.default = none :=
    (found_parse h).elim Eq.symm fun hfound => by cases hfound
  unfold valueOf at h
  split at h
  · obtain ⟨entries, -, h⟩ := exists_of_bind_eq_ok h
    cases h
  · obtain ⟨v, hv, h⟩ := exists_of_bind_eq_ok h
    obtain ⟨d, -, h⟩ := exists_of_bind_eq_ok h
    unfold moveBy at h
    split at h
    · split_ifs at h
      cases h
    · cases h
      exact hparse hv
  · exact hparse h

end Param

/-! ### What is required of arguments -/

namespace Signature

/-- Whether a signature requires no more than values for its own arguments: those that have a default
need none, the chained calls give `null` only for texts, and the guard is met once it is applied. -/
def requiresArguments (s : Signature) : Bool :=
  (s.scalarParams.all fun p => p.default.isSome || p.required) &&
    (s.params.all fun p => !p.required ||
      !p.isChildren && decide (p.kind ≠ .displayName) && !p.propText.isEmpty) &&
    (s.modifiers.all fun m => m.params.all fun p => !p.required) &&
    (s.modifiers.all fun m =>
      m.each.isNone && decide (m.params.length = 1) || m.params.all Param.takesNull) &&
    s.guard.all Guard.isSettable

/-- What is known of a signature that is checked. -/
structure RequiresArguments (s : Signature) : Prop where
  default : ∀ p ∈ s.scalarParams, p.default = none → p.required = true
  named : ∀ p ∈ s.params, p.required = true →
    p ∈ s.scalarParams ∧ p.kind ≠ .displayName ∧ p.propText.isEmpty = false
  chained : ∀ m ∈ s.modifiers, ∀ p ∈ m.params, p.required = false
  nulls : ∀ m ∈ s.modifiers, (m.each = none ∧ ∃ p, m.params = [p]) ∨
    ∀ p ∈ m.params, p.takesNull = true
  guard : ∀ g, s.guard = some g → g.isSettable = true

theorem requiresArguments_sound {s : Signature} (h : s.requiresArguments = true) :
    s.RequiresArguments := by
  simp only [requiresArguments, Bool.and_eq_true, Bool.or_eq_true, List.all_eq_true,
    Bool.not_eq_true', decide_eq_true_eq, Option.isNone_iff_eq_none] at h
  obtain ⟨⟨⟨⟨hdefault, hnamed⟩, hchained⟩, hnulls⟩, hguard⟩ := h
  refine ⟨fun p hp hd => ?_, fun p hp hr => ?_, hchained, fun m hm => ?_, fun g hg => ?_⟩
  · refine (hdefault p hp).resolve_left fun hsome => ?_
    rw [hd] at hsome
    cases hsome
  · rcases hnamed p hp with hno | ⟨⟨hchildren, hk⟩, hempty⟩
    · rw [hr] at hno
      cases hno
    · exact ⟨List.mem_filter.mpr ⟨hp, by simp [hchildren]⟩, hk, hempty⟩
  · exact (hnulls m hm).imp_left fun h => ⟨h.1, List.length_eq_one_iff.mp h.2⟩
  · rw [hg] at hguard
    exact hguard

/-- All signatures of the catalog do so but the forms of thread groups that ramp up. -/
theorem requiresArguments_of_mem {s : Signature} (hs : s ∈ Registry.standard.signatures) :
    (s = Catalog.Plan.rampHoldThreadGroup ∨ s = Catalog.Plan.rampThreadGroup) ∨
      s.RequiresArguments := by
  have hall : (Registry.standard.signatures.all fun s =>
      decide (s = Catalog.Plan.rampHoldThreadGroup ∨ s = Catalog.Plan.rampThreadGroup) ||
        s.requiresArguments) = true := by
    decide +kernel
  rcases Bool.or_eq_true_iff.mp (List.all_eq_true.mp hall s hs) with h | h
  · exact .inl (of_decide_eq_true h)
  · exact .inr (requiresArguments_sound h)

end Signature

namespace Build

/-- A call of a modifier gives `null` only for texts, where one parameter would be left out instead. -/
theorem takesNull_of_modifierCalls {m : Modifier} (hr : m.Restorable)
    (hm : (m.each = none ∧ ∃ p, m.params = [p]) ∨ ∀ p ∈ m.params, p.takesNull = true) {e : Element}
    {cs : List Call} (h : Element.modifierCalls e m = .ok cs) {c : Call} (hc : c ∈ cs) {p : Param}
    (hp : Arg.scalar p none ∈ c.head.args) : p.takesNull = true := by
  obtain ⟨lead, vs, hv, rfl, hd⟩ := Element.exists_valuesOf_call hr h hc
  have hfst := Element.map_fst_of_valuesOf hv
  have hmem : (p, none) ∈ vs := by
    have hp : Arg.scalar p none ∈ Element.callArgs m vs := hp
    unfold Element.callArgs at hp
    split_ifs at hp
    · cases hp
    · rw [Element.argsOf_eq fun y hy =>
        Param.ne_children_of_isPlaced (hr.placed y.1 (hfst ▸ List.mem_map_of_mem hy))] at hp
      obtain ⟨⟨q, v⟩, hx, heq⟩ := List.mem_map.mp hp
      cases heq
      exact hx
  rcases hm with ⟨heach, q, hparams⟩ | hall
  · rw [hparams] at hfst
    obtain ⟨v, rfl⟩ := eq_singleton_of_map_fst hfst
    cases List.mem_singleton.mp hmem
    have hdef := hd heach
    rw [Element.allDefault_singleton] at hdef
    cases hdef
  · exact hall p (hfst ▸ List.mem_map_of_mem hmem)

section

variable {s : Signature} (hs : s.Restorable) {values : List (Param × Option Value)}
  (hfst : values.map Prod.fst = s.scalarParams) {blocks : List (Modifier × List Call)}
  (hm : blocks.map Prod.fst = s.modifiers)
  (hb : ∀ b ∈ blocks, ∀ c ∈ b.2, c.head.method = b.1.method)
  {invs tail : List (Invocation Operand)} (hi : List.Forall₂ Says invs (blocks.flatMap Prod.snd))
  (ht : IsTail tail) {children : List Operand} {e' : Element}
  (h : (construct s values children (invs ++ tail)).outcome = .ok e')

include hs hfst hm hb hi ht h

/-- An element that was made has the property of a parameter exactly if a value was bound to it. -/
theorem contains_of_construct {x : Param × Option Value} (hx : x ∈ values)
    (hk : x.1.kind ≠ .displayName) :
    e'.properties.contains x.1.propText = true ↔ x.2 ≠ none := by
  obtain ⟨-, -, -, -, ess, hblocks, hprops⟩ := construct_eq_ok hs hfst hm hb hi ht h
  have hp : x.1 ∈ s.scalarParams := hfst ▸ List.mem_map_of_mem hx
  have hplaced := placed_of_scalar hs hp hk
  have hlist : x.1.kind ≠ .textList := by
    intro hlist
    have hvar := Param.not_variadic_of_isRestored (Bool.and_eq_true_iff.mp (hs.scalars x.1 hp)).1
    rw [hlist] at hvar
    cases hvar
  obtain ⟨own, hown, hout⟩ := exists_guarded_eq hs (storedEntries values blocks ess)
  have hfilter := filter_scalar hs hfst hm hblocks hout hx hk
  have hprops : e'.properties = .putAll .empty (storedEntries values blocks ess ++ own) :=
    hprops.trans hown
  rw [Properties.contains, hprops]
  constructor
  · intro hsome hnone
    obtain ⟨t, ht⟩ := Option.isSome_iff_exists.mp hsome
    have hmem := Properties.exists_mem_of_get?_putAll ht
    obtain ⟨u, hu⟩ := Param.exists_mem_entries hplaced hlist (v := some (.text "")) (by simp) ""
    have hin := Param.inRegion_of_mem_entries hplaced hu
    rw [String.empty_append] at hin
    have hnil := List.filter_eq_nil_iff.mp (hfilter.trans (by rw [hnone, Param.entries_none])) _ hmem
    exact hnil hin
  · intro hne
    obtain ⟨t, ht⟩ := Param.exists_mem_entries hplaced hlist hne ""
    rw [← hfilter, String.empty_append] at ht
    exact Properties.isSome_get?_putAll (List.mem_of_mem_filter ht)

/-- Where a modifier without a guard writes, an element that was made has what its calls stored, or its
defaults. -/
theorem exists_get?_of_construct {old : Properties}
    (hold : ∀ b ∈ blocks, b.2 ≠ [] → ∀ g, b.1.guard = some g → g.accepts old = true)
    {b : Modifier × List Call} (hbmem : b ∈ blocks) (hg : b.1.guard = none) :
    ∃ vss, List.Forall₂ (Binds b.1) b.2 vss ∧ ∀ key, inRegion b.1.region key = true →
      e'.properties.get? key =
        (Properties.empty.putAll (blockEntries b.1 0 vss ++ silentEntries b)).get? key := by
  obtain ⟨-, -, -, -, ess, hblocks, hprops⟩ := construct_eq_ok hs hfst hm hb hi ht h
  obtain ⟨own, hown, hout⟩ := exists_guarded_eq hs (storedEntries values blocks ess)
  obtain ⟨vss, hvss, hfilter⟩ := filter_modifier hs hfst hm hblocks hold hout hbmem
    fun g hno => by
      rw [hg] at hno
      cases hno
  refine ⟨vss, hvss, fun key hkey => ?_⟩
  have hprops : e'.properties = .putAll .empty (storedEntries values blocks ess ++ own) :=
    hprops.trans hown
  rw [hprops]
  exact Properties.get?_putAll_congr (@filter_of_filter _ _ _ (fun k => decide (k = key)) hfilter
    fun k hk => of_decide_eq_true hk ▸ hkey)

/-- An element that was made meets its signature exactly if a value was bound to each parameter that is
required. -/
theorem unmet?_of_construct (hreq : s.RequiresArguments) :
    s.unmet? e'.properties = none ↔ ∀ x ∈ values, x.1.required = true → x.2 ≠ none := by
  have hcontains {x : Param × Option Value} (hx : x ∈ values) :=
    contains_of_construct hs hfst hm hb hi ht h hx
  have hmem {x : Param × Option Value} (hx : x ∈ values) : x.1 ∈ s.scalarParams :=
    hfst ▸ List.mem_map_of_mem hx
  have hprop {p : Param} (hp : p ∈ s.scalarParams) (hk : p.kind ≠ .displayName) :
      p.prop = some p.propText := by
    have hplaced := placed_of_scalar hs hp hk
    rw [Param.isPlaced, Bool.and_eq_true] at hplaced
    obtain ⟨key, hkey⟩ := Option.isSome_iff_exists.mp hplaced.1
    rw [Param.propText, hkey, Option.getD_some]
  rw [Signature.unmet?_eq_none_iff, Signature.hasRequired, List.all_eq_true]
  constructor
  · rintro ⟨hall, -⟩ x hx hr
    have hp := List.mem_of_mem_filter (hmem hx)
    obtain ⟨-, hk, hempty⟩ := hreq.named x.1 hp hr
    have hin := hall x.1 (List.mem_append_left _ hp)
    rw [hr, hprop (hmem hx) hk] at hin
    exact (hcontains hx hk).mp (by simpa [hempty] using hin)
  · refine fun hgiven => ⟨fun p hp => ?_, ?_⟩
    · cases hr : p.required with
      | false => rfl
      | true =>
        rcases List.mem_append.mp hp with hp | hp
        · obtain ⟨hscalar, hk, -⟩ := hreq.named p hp hr
          obtain ⟨x, hx, rfl⟩ := List.mem_map.mp (hfst ▸ hscalar)
          simp [hprop hscalar hk, (hcontains hx hk).mpr (hgiven x hx hr)]
        · obtain ⟨m, hmod, hp⟩ := List.mem_flatMap.mp hp
          rw [hreq.chained m hmod p hp] at hr
          cases hr
    · obtain ⟨-, -, -, -, ess, -, hprops⟩ := construct_eq_ok hs hfst hm hb hi ht h
      rw [hprops, guarded]
      cases hg : s.guard with
      | none => rfl
      | some g => exact Guard.accepts_apply_self (hreq.guard g hg) _

end

/-- A value that is not there is bound to none. -/
theorem none_of_bindScalars {s : Signature} (hs : s.Restorable) {e : Element}
    {vs : List (Param × Option Value)} (hv : Element.scalarValues s e = .ok vs)
    {leading : List Expr}
    (hl : leading.map Expr.unplaced = vs.flatMap fun x => (Arg.scalar x.1 x.2).exprs) {line : Nat}
    {name : String} {values : List (Param × Option Value)}
    (h : bindScalars s.scalarParams line name leading = .ok values) :
    List.Forall₂ (fun x y => y.1 = x.1 ∧ (x.2 = none → y.2 = none)) vs values ∧
      values.map Prod.fst = s.scalarParams := by
  have hfst : vs.map Prod.fst = s.scalarParams := Element.map_fst_of_valuesOf hv
  refine forall₂_of_bindScalars ?_ hl h
  rw [← hfst, List.forall₂_map_right_iff]
  refine List.forall₂_same.mpr fun x hx => ?_
  obtain ⟨hp, hvalue⟩ := Element.mem_of_valuesOf hv hx
  have hvar := Param.not_variadic_of_isRestored (Bool.and_eq_true_iff.mp (hs.scalars x.1 hp)).1
  refine ⟨hvar, rfl, fun _ => ?_, fun _ => ⟨rfl, fun hnone => ?_⟩⟩
  · obtain ⟨a, ha⟩ := Param.exists_exprs_eq hvar x.2
    refine ⟨a, ha, fun b c hab hc => ⟨rfl, fun hnone => ?_⟩⟩
    rw [hnone] at ha
    obtain ⟨pos, rfl⟩ := Expr.eq_null_of_unplaced (hab.trans (List.singleton_inj.mp ha).symm)
    exact (Param.of_fromArg_null hc).1
  · rw [hnone] at hvalue
    exact Param.default_of_valueOf_none hvalue

section

variable {s : Signature} (hs : s.Restorable) (hreq : s.RequiresArguments) {e : Element}
  {vs : List (Param × Option Value)} (hv : Element.scalarValues s e = .ok vs) {leading : List Expr}
  (hl : leading.map Expr.unplaced = vs.flatMap fun x => (Arg.scalar x.1 x.2).exprs)
  {blocks : List (Modifier × List Call)} (hm : blocks.map Prod.fst = s.modifiers)
  (hb : ∀ b ∈ blocks, Element.modifierCalls e b.1 = .ok b.2)
  {invs tail : List (Invocation Operand)} (hi : List.Forall₂ Says invs (blocks.flatMap Prod.snd))
  (ht : IsTail tail) {children : List Operand}

include hs hreq hv hl hm hb hi ht

/-- A form makes an element of its own code exactly if the arguments say a value each and the children
are built. -/
theorem exists_makes_iff (ha : tail ≠ [] → s.acceptsChildren = true)
    (hleading : checkLeading s children = .ok ()) (line : Nat) (name : String) :
    (∃ e', Makes s line name leading children (invs ++ tail) e') ↔
      (∀ x ∈ vs, x.2 ≠ none) ∧
        ∃ es, (elements (children ++ tail.flatMap (·.args))).outcome = .ok es := by
  have hmethods : ∀ b ∈ blocks, ∀ c ∈ b.2, c.head.method = b.1.method :=
    fun b hbmem c hc => Element.method_of_modifierCalls (hb b hbmem) hc
  constructor
  · rintro ⟨e', hmakes⟩
    obtain ⟨values, hbind, hmade⟩ := hmakes.values
    obtain ⟨hall, hfst⟩ := none_of_bindScalars hs hv hl hbind
    refine ⟨fun x hx hnone => ?_, e'.children,
      (construct_eq_ok hs hfst hm hmethods hi ht hmade).2.2.2.1⟩
    obtain ⟨hp, hvalue⟩ := Element.mem_of_valuesOf hv hx
    obtain ⟨y, hy, hxy, hyn⟩ := exists_of_forall₂ hall.flip hx
    rw [hnone] at hvalue
    have hrequired := hreq.default x.1 hp (Param.default_of_valueOf_none hvalue)
    exact (unmet?_of_construct hs hfst hm hmethods hi ht hmade hreq).mp hmakes.met y hy
      (hxy ▸ hrequired) (hyn hnone)
  · rintro ⟨hgiven, es, hes⟩
    obtain ⟨values, hbind, hfst, hvalues⟩ := exists_bindScalars_of_valuesOf hs hv hgiven hl line name
    obtain ⟨e', hmade⟩ := exists_construct hs hfst hm hb hi ht (fun b hbmem c hc p hp =>
      takesNull_of_modifierCalls (modifier_of_mem hs hm hbmem).2
        (hreq.nulls b.1 (hm ▸ List.mem_map_of_mem hbmem)) (hb b hbmem) hc hp) hleading hes
    exact ⟨e', checkChain_of_says hs hm hb hi ht ha, ⟨values, hbind, hmade⟩,
      (unmet?_of_construct hs hfst hm hmethods hi ht hmade hreq).mpr fun x hx _ => hvalues x hx⟩

end

end Build

end FluentPlan
