import FluentPlan.Proofs.Rebuilding.Evaluation
import FluentPlan.Proofs.Rebuilding.Own

/-!
What building writes. An element starts without properties; after that only values of the parameters
of its signature are stored, at their places, and guards applied. So whatever a property says is from
such a value or from a guard.
-/

namespace FluentPlan

open Build Script

/-! ### Values -/

namespace Param

/-- Values that code gives to a parameter: what an argument says, what stands in for a missing one, and
what is said by the presence of a call. -/
inductive Given (p : Param) : Option Value → Prop
  | default : Given p p.default
  | arg {a : Expr} {v : Option Value} (hp : p.kind.isVariadic = false) (h : p.fromArg a = .ok v) :
    Given p v
  | args {as : List Expr} {v : Option Value} (hp : p.kind.isVariadic = true)
    (h : p.fromArgs as = .ok v) : Given p v
  | presence (b : Bool) (hp : p.kind = .bool) : Given p (some (.bool b))

end Param

namespace Build

theorem given_of_bindValues {taken : Param → Bool} {ps : List Param} {args : List Expr}
    {values : List (Param × Option Value)} (h : bindValues taken ps args = .ok values) :
    ∀ x ∈ values, x.1 ∈ ps ∧ x.1.Given x.2 := by
  refine fun x hx => ⟨map_fst_of_bindValues h ▸ List.mem_map_of_mem hx, ?_⟩
  revert x
  induction ps generalizing args values with
  | nil =>
    cases h
    exact fun x hx => absurd hx List.not_mem_nil
  | cons p ps ih =>
    unfold bindValues at h
    split_ifs at h with ht hv
    · obtain ⟨rest, hr, h⟩ := exists_of_bind_eq_ok h
      cases h
      exact List.forall_mem_cons.mpr ⟨.default, ih hr⟩
    · obtain ⟨v, hargs, h⟩ := exists_of_bind_eq_ok h
      cases h
      refine List.forall_mem_cons.mpr ⟨.args hv hargs, fun x hx => ?_⟩
      obtain ⟨q, -, rfl⟩ := List.mem_map.mp hx
      exact .default
    · split at h
      · obtain ⟨rest, hr, h⟩ := exists_of_bind_eq_ok h
        cases h
        exact List.forall_mem_cons.mpr ⟨.default, ih hr⟩
      · obtain ⟨v, harg, h⟩ := exists_of_bind_eq_ok h
        obtain ⟨rest, hr, h⟩ := exists_of_bind_eq_ok h
        cases h
        exact List.forall_mem_cons.mpr ⟨.arg (by simpa using hv) harg, ih hr⟩

/-- The values of a signature are bound to all of its parameters, or to the mandatory ones. -/
theorem exists_bindValues_of_bindScalars {ps : List Param} {line : Nat} {name : String}
    {args : List Expr} {values : List (Param × Option Value)}
    (h : bindScalars ps line name args = .ok values) :
    ∃ taken, bindValues taken ps args = .ok values := by
  unfold bindScalars at h
  dsimp only at h
  split_ifs at h
  · split at h
    · next hok =>
      cases h
      exact ⟨_, hok⟩
    · split_ifs at h
      split at h
      · next hok =>
        cases h
        exact ⟨_, hok⟩
      · cases h
  · exact ⟨_, h⟩
  · cases h

theorem given_of_bound {m : Modifier} (hm : m.flag = true → m.isSwitch = true)
    {c : Invocation Operand} {values : List (Param × Option Value)} (h : bound m c = .ok values) :
    ∀ x ∈ values, x.1 ∈ m.params ∧ x.1.Given x.2 := by
  refine fun x hx => ⟨fst_mem_of_bound h x hx, ?_⟩
  unfold bound at h
  split at h
  · next p ps hflag hparams =>
    cases h
    obtain rfl := List.mem_singleton.mp hx
    have hswitch := hm (Bool.and_eq_true_iff.mp hflag).1
    unfold Modifier.isSwitch at hswitch
    split at hswitch
    · next hone =>
      cases hparams.symm.trans hone
      exact .presence _ rfl
    · cases hswitch
  · exact (given_of_bindValues (bindAll_eq_ok h) x hx).2

end Build

/-! ### Properties -/

/-- Whether each modifier whose presence says something has one parameter for that, and each collection
of a modifier a name. -/
def Signature.isOrderly (s : Signature) : Bool :=
  s.modifiers.all fun m => (!m.flag || m.isSwitch) && m.each.all fun each => !each.isEmpty

theorem Registry.isOrderly_standard : standard.signatures.all Signature.isOrderly = true := by
  decide

/-- Properties that are written for a signature: by storing values that its parameters and those of its
modifiers are given, and by applying guards. -/
inductive Written (s : Signature) : Properties → Prop
  | empty : Written s .empty
  | scalar {p : Param} {v : Option Value} {props after : Properties} (hp : p ∈ s.scalarParams)
    (hn : p.kind ≠ .displayName) (hv : p.Given v) (hs : p.store v props "" = .ok after)
    (h : Written s props) : Written s after
  | setting {m : Modifier} {p : Param} {v : Option Value} {i : Nat} {props after : Properties}
    (hm : m ∈ s.modifiers) (hp : p ∈ m.params) (hv : p.Given v)
    (hs : p.store v props (lead m i) = .ok after) (h : Written s props) : Written s after
  | guard {g : Guard} {props : Properties} (hg : s.guard = some g ∨ ∃ m ∈ s.modifiers, m.guard = some g)
    (h : Written s props) : Written s (g.apply props)

namespace Build

/-- What each of some stores keeps, all of them keep. -/
theorem storeAll_induction {P : Properties → Prop} {lead : String}
    {values : List (Param × Option Value)}
    (hstep : ∀ x ∈ values, ∀ {props after : Properties}, x.1.store x.2 props lead = .ok after →
      P props → P after) {props after : Properties}
    (h : storeAll lead values props = .ok after) (hp : P props) : P after := by
  induction values generalizing props with
  | nil =>
    cases h
    exact hp
  | cons x values ih =>
    obtain ⟨mid, hmid, h⟩ := exists_of_bind_eq_ok h
    exact ih (fun y hy => hstep y (List.mem_cons_of_mem x hy)) h (hstep x List.mem_cons_self hmid hp)

variable {s : Signature}

theorem switch_of_isOrderly (hs : s.isOrderly = true) {m : Modifier} (hm : m ∈ s.modifiers)
    (hf : m.flag = true) : m.isSwitch = true ∧ m.each = none := by
  have hall := (Bool.and_eq_true_iff.mp (List.all_eq_true.mp hs m hm)).1
  rw [hf, Bool.not_true, Bool.false_or] at hall
  refine ⟨hall, ?_⟩
  unfold Modifier.isSwitch at hall
  split at hall
  · simpa using hall
  · cases hall

theorem written_applyModifier (hs : s.isOrderly = true) {m : Modifier} (hm : m ∈ s.modifiers)
    {c : Invocation Operand} {d after : Draft} (h : applyModifier m c d = .ok after)
    (hd : Written s d.props) : Written s after.props := by
  have hflag := fun hf => switch_of_isOrderly hs hm hf
  obtain ⟨values, props, hbound, hstore, hguard, -, -⟩ := applyModifier_eq_ok (fun hf => (hflag hf).2) h
  have hgiven := given_of_bound (fun hf => (hflag hf).1) hbound
  have hprops : Written s props := storeAll_induction
    (fun x hx _ _ hs h => .setting hm (hgiven x hx).1 (hgiven x hx).2 hs h) hstore hd
  rw [hguard]
  cases hg : m.guard with
  | none => exact hprops
  | some g => exact .guard (.inr ⟨m, hm, hg⟩) hprops

theorem mem_of_findModifier {line : Nat} {name : String} {m : Modifier}
    (h : findModifier s line name = .ok m) : m ∈ s.modifiers ∧ m.method = name := by
  unfold findModifier at h
  split at h
  · next hf =>
    cases h
    exact ⟨List.mem_of_find?_eq_some hf, by simpa using List.find?_some hf⟩
  · cases h

/-- What each modifier of a signature keeps, chained calls keep. -/
theorem applyChain_induction {P : Properties → Prop}
    (hstep : ∀ m ∈ s.modifiers, ∀ {c : Invocation Operand} {d after : Draft},
      applyModifier m c d = .ok after → P d.props → P after.props)
    {cs : List (Invocation Operand)} {d : Draft} {r : Draft × List Element}
    (h : (applyChain s cs d).outcome = .ok r) (hd : P d.props) : P r.1.props := by
  induction cs generalizing d r with
  | nil =>
    cases h
    exact hd
  | cons c cs ih =>
    unfold applyChain at h
    split_ifs at h
    · rw [Logged.outcome_bind] at h
      obtain ⟨es, -, h⟩ := exists_of_bind_eq_ok h
      rw [Logged.outcome_bind] at h
      obtain ⟨r', hr, h⟩ := exists_of_bind_eq_ok h
      cases h
      have hrest := ih hr hd
      exact hrest
    · simp only [Logged.outcome_bind, Logged.outcome_ofExcept] at h
      obtain ⟨m, hm, h⟩ := exists_of_bind_eq_ok h
      obtain ⟨mid, hmid, h⟩ := exists_of_bind_eq_ok h
      exact ih h (hstep m (mem_of_findModifier hm).1 hmid hd)

theorem written_applyChain (hs : s.isOrderly = true) {cs : List (Invocation Operand)} {d : Draft}
    {r : Draft × List Element} (h : (applyChain s cs d).outcome = .ok r)
    (hd : Written s d.props) : Written s r.1.props :=
  applyChain_induction (fun _ hm _ _ _ h hd => written_applyModifier hs hm h hd) h hd

theorem written_storeUncalled (hs : s.isOrderly = true) {called : List String} {ms : List Modifier}
    (hms : ∀ m ∈ ms, m ∈ s.modifiers) {props after : Properties}
    (h : storeUncalled called ms props = .ok after) (hp : Written s props) : Written s after := by
  induction ms generalizing props with
  | nil =>
    cases h
    exact hp
  | cons m ms ih =>
    obtain ⟨hm, hms⟩ := List.forall_mem_cons.mp hms
    unfold storeUncalled at h
    split_ifs at h with hcond
    · exact ih hms h hp
    · have hlead : lead m 0 = "" := by
        have hnamed := (Bool.and_eq_true_iff.mp (List.all_eq_true.mp hs m hm)).2
        unfold lead
        split
        · next each he =>
          simp only [he, Option.any_some, Option.all_some] at hcond hnamed
          simp [hnamed] at hcond
        · rfl
      obtain ⟨mid, hmid, h⟩ := exists_of_bind_eq_ok h
      refine ih hms h (storeAll_induction (fun x hx props after hs h => ?_) hmid hp)
      obtain ⟨p, hpm, rfl⟩ := List.mem_map.mp hx
      exact .setting hm hpm .default (hlead ▸ hs) h

theorem written_of_construct (hs : s.isOrderly = true) {values : List (Param × Option Value)}
    (hv : ∀ x ∈ values, x.1 ∈ s.scalarParams ∧ x.1.Given x.2) {children : List Operand}
    {chain : List (Invocation Operand)} {e : Element}
    (h : (construct s values children chain).outcome = .ok e) : Written s e.properties := by
  obtain ⟨props, first, d, more, stored, hprops, -, hchain, hstored, rfl⟩ := exists_of_construct h
  have hvalues : Written s props := by
    refine storeAll_induction (fun x hx props after hs h => ?_) hprops .empty
    obtain ⟨hx, hname⟩ := List.mem_filter.mp hx
    exact .scalar (hv x hx).1 (of_decide_eq_true hname) (hv x hx).2 hs h
  have hall : Written s stored :=
    written_storeUncalled hs (fun _ hm => hm) hstored (written_applyChain hs hchain hvalues)
  change Written s (guarded s stored)
  unfold guarded
  cases hg : s.guard with
  | none => exact hall
  | some g => exact .guard (.inl hg) hall

/-- What a signature makes of a call has properties that are written for it. -/
theorem Makes.written (hs : s.isOrderly = true) {line : Nat} {name : String}
    {leading : List Expr} {children : List Operand} {chain : List (Invocation Operand)} {e : Element}
    (h : Makes s line name leading children chain e) : Written s e.properties := by
  obtain ⟨values, hbind, hmade⟩ := h.values
  obtain ⟨taken, hbind⟩ := exists_bindValues_of_bindScalars hbind
  exact written_of_construct hs (given_of_bindValues hbind) hmade

end Build

/-! ### Entries -/

theorem Param.isPlaced_of_isRestorable {p : Param} (h : p.isRestorable = true)
    (hn : p.kind ≠ .displayName) : p.isPlaced = true := by
  simp only [Param.isRestorable, Bool.and_eq_true, Bool.or_eq_true, decide_eq_true_eq] at h
  exact h.2.resolve_left fun hname => hn hname.1

/-- What a property that is written for a signature may be from. -/
inductive Entered (s : Signature) (e : String × String) : Prop
  | scalar {p : Param} {v : Option Value} (hp : p ∈ s.scalarParams) (hn : p.kind ≠ .displayName)
    (hv : p.Given v) (he : e ∈ p.entries v "")
  | setting {m : Modifier} {p : Param} {v : Option Value} {i : Nat} (hm : m ∈ s.modifiers)
    (hp : p ∈ m.params) (hv : p.Given v) (he : e ∈ p.entries v (lead m i))
  | guard {g : Guard} (hg : s.guard = some g ∨ ∃ m ∈ s.modifiers, m.guard = some g)
    (he : e.1 ∈ g.writes)

namespace Signature.Restorable

variable {s : Signature} (hs : s.Restorable)

include hs

theorem exists_putAll_of_written {props : Properties} (h : Written s props) :
    ∃ es, props = .putAll .empty es ∧ ∀ e ∈ es, Entered s e := by
  induction h with
  | empty => exact ⟨[], rfl, List.forall_mem_nil _⟩
  | @scalar p v props after hp hn hv hstore _ ih =>
    obtain ⟨es, rfl, hes⟩ := ih
    have hplaced := Param.isPlaced_of_isRestorable (hs.scalars p hp) hn
    rw [Param.store_eq_ok hplaced hstore, ← Properties.putAll_append]
    exact ⟨_, rfl, fun e he => (List.mem_append.mp he).elim (hes e) (.scalar hp hn hv)⟩
  | @setting m p v i props after hm hp hv hstore _ ih =>
    obtain ⟨es, rfl, hes⟩ := ih
    rw [Param.store_eq_ok ((hs.modifiers m hm).placed p hp) hstore, ← Properties.putAll_append]
    exact ⟨_, rfl, fun e he => (List.mem_append.mp he).elim (hes e) (.setting hm hp hv)⟩
  | @guard g props hg _ ih =>
    obtain ⟨es, rfl, hes⟩ := ih
    obtain ⟨fs, hfs, hk⟩ := g.exists_apply_eq (.putAll .empty es)
    rw [hfs, ← Properties.putAll_append]
    exact ⟨_, rfl, fun e he => (List.mem_append.mp he).elim (hes e) fun he => .guard hg (hk e he)⟩

/-- Every property was entered. -/
theorem entered_of_written {props : Properties} (h : Written s props) {key t : String}
    (hk : props.get? key = some t) : Entered s (key, t) := by
  obtain ⟨es, rfl, hes⟩ := hs.exists_putAll_of_written h
  exact hes _ (Properties.exists_mem_of_get?_putAll hk)

theorem writes_subset_guardKeys {g : Guard}
    (hg : s.guard = some g ∨ ∃ m ∈ s.modifiers, m.guard = some g) : g.writes ⊆ s.guardKeys := by
  intro key hk
  rcases hg with hg | ⟨m, hm, hg⟩
  · exact List.mem_append_right _ (by rwa [hg])
  · refine List.mem_append_left _ (List.mem_filterMap.mpr ⟨m, hm, ?_⟩)
    have hplain := (hs.modifiers m hm).guard_plain g hg
    cases g with
    | equals k v => rw [hg, List.mem_singleton.mp hk, Option.map_some, Guard.key]
    | not g => cases hk
    | isIn _ _ | all _ => cases hplain

/-- What is entered stands in the region of the signature, or under a key of a guard. -/
theorem inRegion_of_entered {e : String × String} (h : Entered s e) :
    inRegion s.region e.1 = true ∨ e.1 ∈ s.guardKeys := by
  cases h with
  | @scalar p v hp hn _ he =>
    have hplaced := Param.isPlaced_of_isRestorable (hs.scalars p hp) hn
    exact .inl (inRegion_of_scalar hp (Param.inRegion_of_mem_entries hplaced he))
  | @setting m p v i hm hp _ he =>
    have hr := hs.modifiers m hm
    have hown := Param.inRegion_of_mem_entries (hr.placed p hp) he
    exact .inl (inRegion_of_modifier hm (hr.inRegion_of_lead hp hown))
  | guard hg he => exact .inr (hs.writes_subset_guardKeys hg he)

/-- Under a key that no parameter, modifier or guard has, nothing is written. -/
theorem get?_of_written {props : Properties} (h : Written s props) {key : String}
    (hr : inRegion s.region key = false) (hk : key ∉ s.guardKeys) : props.get? key = none := by
  rw [Option.eq_none_iff_forall_ne_some]
  intro t ht
  rcases hs.inRegion_of_entered (hs.entered_of_written h ht) with hin | hin
  · rw [hr] at hin
    cases hin
  · exact hk hin

end Signature.Restorable

end FluentPlan
