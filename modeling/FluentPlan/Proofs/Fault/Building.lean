import FluentPlan.Proofs.Fault.Conversion
import FluentPlan.Proofs.Fault.Parsing
import FluentPlan.Script.Build

/-!
How building ends. A source text builds an element, or a problem is reported, or a duration is out of
range: the one fault that reading and storing the arguments of builder calls can end with.
-/

namespace FluentPlan

open Script

/-! ### Values -/

namespace Param

/-- Whether a value can be stored: a parameter for a list of texts stores no other value. -/
def IsStorable (p : Param) (v : Option Value) : Prop :=
  p.kind = .textList → ∀ w, v = some w → ∃ items, w = .texts items

theorem isStorable_of_ne {p : Param} (h : p.kind ≠ .textList) (v : Option Value) :
    p.IsStorable v := fun hk => absurd hk h

theorem failsWithin_mismatch {α : Type} (p : Param) (a : Expr) {faults : List Fault} :
    FailsWithin faults (p.mismatch a : Except Failure α) := .report _

theorem failsWithin_argValue (p : Param) (a : Expr) :
    FailsWithin [.durationRange] (p.argValue a) := by
  have hread {kind : ParamKind} {raw : String} {m : Misread} (hm : kind.read raw = .error m) :
      FailsWithin [.durationRange]
        (.error (m.ofArgument a.line p.propText) : Except Failure (Option Value)) := by
    rcases ParamKind.misread_of_read hm with ⟨q, rfl⟩ | rfl
    · exact .report _
    · exact .fault List.mem_cons_self
  have hduration (ms : Int) : FailsWithin [.durationRange]
      (if Duration.inRange ms then .ok (some (.duration ms)) else .error (.fault .durationRange) :
        Except Failure (Option Value)) := by
    split
    · exact .ok _
    · exact .fault List.mem_cons_self
  unfold argValue
  dsimp only
  split
  · exact .ok _
  · split
    · split
      · exact .ok _
      · next hm => exact hread hm
    · exact p.failsWithin_mismatch _
  · split
    · split
      · exact .ok _
      · next hm => exact hread hm
    · exact p.failsWithin_mismatch _
  · split
    · exact .ok _
    · next hm => exact hread hm
  · split
    · exact .ok _
    · next hm => exact hread hm
  · exact .ok _
  · exact .ok _
  · exact .ok _
  · exact .ok _
  · exact .ok _
  · exact .ok _
  · split
    · exact hduration _
    · exact p.failsWithin_mismatch _
  · split
    · exact hduration _
    · exact p.failsWithin_mismatch _
  · split
    · exact .ok _
    · exact p.failsWithin_mismatch _
  · split
    · exact .ok _
    · split
      · exact .ok _
      · next hm => exact hread hm
    · exact p.failsWithin_mismatch _
  · split
    · exact .ok _
    · exact p.failsWithin_mismatch _
  · exact p.failsWithin_mismatch _

theorem failsWithin_fromArg (p : Param) (a : Expr) :
    FailsWithin [.durationRange] (p.fromArg a) := by
  unfold fromArg
  split
  · split
    · exact .ok _
    · exact p.failsWithin_argValue _
  · exact p.failsWithin_argValue _

theorem failsWithin_go (p : Param) (as : List Expr) (acc : List String) :
    FailsWithin [.durationRange] (fromArgs.go p as acc) ∧
      ∀ v, fromArgs.go p as acc = .ok v → ∃ items, v = some (.texts items) := by
  induction as generalizing acc with
  | nil =>
    refine ⟨.ok _, fun v h => ?_⟩
    cases h
    exact ⟨_, rfl⟩
  | cons a as ih =>
    cases a with
    | text pos s => exact ih (s :: acc)
    | _ => exact ⟨p.failsWithin_mismatch _, fun v h => nomatch h⟩

theorem failsWithin_store {p : Param} {v : Option Value} (h : p.IsStorable v) (props : Properties)
    (lead : String) : FailsWithin [.durationRange] (p.store v props lead) := by
  unfold store
  split
  · next hk =>
    split
    · exact .ok _
    · exact .ok _
    · next _ w hw =>
      obtain ⟨items, rfl⟩ := h hk w rfl
      exact absurd rfl (hw items)
  · refine (failsWithin_offset? _ _ _ _).bind fun d _ => ?_
    exact (failsWithin_moveBy _ _).bind fun _ _ => .ok _
  · exact .ok _

end Param

/-- Whether the defaults of a modifier can be stored, and what its presence says. -/
def Modifier.isStorable (m : Modifier) : Bool :=
  m.params.all (fun p => p.kind ≠ .textList || p.default = some (.texts [])) &&
    (!m.flag || m.params.all fun p => p.kind ≠ .textList)

/-- Whether all values that a signature takes from code can be stored. -/
def Signature.isStorable (s : Signature) : Bool :=
  s.params.all (fun p => p.kind ≠ .textList || p.default = some (.texts [])) &&
    s.modifiers.all Modifier.isStorable

namespace Build

/-! ### Binding -/

theorem failsWithin_failed {α : Type} (p : BuildProblem) {faults : List Fault} :
    FailsWithin faults (failed p : Except Failure α) := .report _

theorem failsWithin_divide (as : List Operand) : FailsWithin [.durationRange] (divide as) := by
  induction as with
  | nil => exact .ok _
  | cons a as ih =>
    unfold divide
    split
    · split
      · exact failsWithin_failed _
      · exact .ok _
    · exact ih.bind fun _ _ => .ok _

section

variable {ps : List Param} (hd : ∀ p ∈ ps, p.IsStorable p.default)

include hd

theorem failsWithin_bindValues (taken : Param → Bool) (args : List Expr) :
    FailsWithin [.durationRange] (bindValues taken ps args) := by
  induction ps generalizing args with
  | nil => exact .ok _
  | cons p ps ih =>
    have ih := ih fun q hq => hd q (List.mem_cons_of_mem p hq)
    unfold bindValues
    split
    · exact (ih args).bind fun _ _ => .ok _
    · split
      · exact (p.failsWithin_go args []).1.bind fun _ _ => .ok _
      · split
        · exact (ih []).bind fun _ _ => .ok _
        · exact (p.failsWithin_fromArg _).bind fun v _ => (ih _).bind fun _ _ => .ok _

/-- What is bound to parameters can be stored. -/
theorem isStorable_of_bindValues {taken : Param → Bool} {args : List Expr}
    {values : List (Param × Option Value)} (h : bindValues taken ps args = .ok values) :
    ∀ x ∈ values, x.1.IsStorable x.2 := by
  induction ps generalizing args values with
  | nil =>
    cases h
    exact fun x hx => absurd hx List.not_mem_nil
  | cons p ps ih =>
    have hp := hd p List.mem_cons_self
    have hps : ∀ q ∈ ps, q.IsStorable q.default := fun q hq => hd q (List.mem_cons_of_mem p hq)
    unfold bindValues at h
    split_ifs at h with ht hv
    · obtain ⟨rest, hr, h⟩ := exists_of_bind_eq_ok h
      cases h
      exact List.forall_mem_cons.mpr ⟨hp, ih hps hr⟩
    · obtain ⟨v, hv, h⟩ := exists_of_bind_eq_ok h
      cases h
      obtain ⟨items, rfl⟩ := (p.failsWithin_go args []).2 v hv
      refine List.forall_mem_cons.mpr ⟨fun _ w hw => ⟨items, (Option.some.inj hw).symm⟩, ?_⟩
      intro x hx
      obtain ⟨q, hq, rfl⟩ := List.mem_map.mp hx
      exact hps q hq
    · have hne : p.kind ≠ .textList := fun hk => hv (by rw [hk]; rfl)
      split at h
      · obtain ⟨rest, hr, h⟩ := exists_of_bind_eq_ok h
        cases h
        exact List.forall_mem_cons.mpr ⟨hp, ih hps hr⟩
      · obtain ⟨v, -, h⟩ := exists_of_bind_eq_ok h
        obtain ⟨rest, hr, h⟩ := exists_of_bind_eq_ok h
        cases h
        exact List.forall_mem_cons.mpr ⟨Param.isStorable_of_ne hne v, ih hps hr⟩

theorem failsWithin_bindAll (line : Nat) (name : String) (args : List Expr) :
    FailsWithin [.durationRange] (bindAll ps line name args) := by
  unfold bindAll
  split
  · exact failsWithin_bindValues hd _ args
  · exact failsWithin_failed _

theorem failsWithin_bindScalars (line : Nat) (name : String) (args : List Expr) :
    FailsWithin [.durationRange] (bindScalars ps line name args) := by
  have hfull := failsWithin_bindValues hd (fun _ => true) args
  have hbrief := failsWithin_bindValues hd (·.mandatory) args
  unfold bindScalars
  dsimp only
  split
  · split
    · exact .ok _
    · next f hf =>
      split
      · split
        · exact .ok _
        · next g hg =>
          split
          · exact hfull.of_eq hf
          · exact hbrief.of_eq hg
      · exact hfull.of_eq hf
  · split
    · exact hbrief
    · exact failsWithin_failed _

theorem isStorable_of_bindScalars {line : Nat} {name : String} {args : List Expr}
    {values : List (Param × Option Value)} (h : bindScalars ps line name args = .ok values) :
    ∀ x ∈ values, x.1.IsStorable x.2 := by
  unfold bindScalars at h
  dsimp only at h
  split at h
  · split at h
    · next hf =>
      cases h
      exact isStorable_of_bindValues hd hf
    · split at h
      · split at h
        · next hg =>
          cases h
          exact isStorable_of_bindValues hd hg
        · cases h
      · cases h
  · split at h
    · exact isStorable_of_bindValues hd h
    · cases h

end

/-! ### Chained calls -/

theorem failsWithin_storeAll {values : List (Param × Option Value)}
    (h : ∀ x ∈ values, x.1.IsStorable x.2) (lead : String) (props : Properties) :
    FailsWithin [.durationRange] (storeAll lead values props) := by
  induction values generalizing props with
  | nil => exact .ok _
  | cons x values ih =>
    obtain ⟨hx, h⟩ := List.forall_mem_cons.mp h
    exact (Param.failsWithin_store hx props lead).bind fun _ _ => ih h _

theorem failsWithin_findModifier (s : Signature) (line : Nat) (name : String) :
    FailsWithin [.durationRange] (findModifier s line name) := by
  unfold findModifier
  split
  · exact .ok _
  · exact failsWithin_failed _

theorem failsWithin_checkChain (s : Signature) (cs : List (Invocation Operand)) :
    FailsWithin [.durationRange] (checkChain s cs) := by
  induction cs with
  | nil => exact .ok _
  | cons c cs ih =>
    unfold checkChain
    dsimp only
    split
    · exact (failsWithin_findModifier _ _ _).bind fun _ _ => ih
    · split
      · exact (failsWithin_failed _).bind fun _ _ => ih
      · exact ih

section

variable {m : Modifier} (hm : m.isStorable = true)

include hm

theorem isStorable_default : ∀ p ∈ m.params, p.IsStorable p.default := by
  intro p hp hk w hw
  have h := List.all_eq_true.mp (Bool.and_eq_true_iff.mp hm).1 p hp
  simp only [hk, ne_eq, not_true_eq_false, decide_false, Bool.false_or, decide_eq_true_eq] at h
  exact ⟨[], Option.some.inj (hw.symm.trans h)⟩

theorem failsWithin_applyArgs (c : Invocation Operand) (d : Draft) :
    FailsWithin [.durationRange] (applyArgs m c d) := by
  have hd := isStorable_default hm
  refine (failsWithin_bindAll hd _ _ _).bind fun values hv => ?_
  have hs : ∀ x ∈ values, x.1.IsStorable x.2 := by
    unfold bindAll at hv
    split at hv
    · exact isStorable_of_bindValues hd hv
    · cases hv
  dsimp only
  split
  · exact (failsWithin_storeAll hs _ _).bind fun _ _ => .ok _
  · exact (failsWithin_storeAll hs _ _).bind fun _ _ => .ok _

theorem failsWithin_applyModifier (c : Invocation Operand) (d : Draft) :
    FailsWithin [.durationRange] (applyModifier m c d) := by
  unfold applyModifier
  dsimp only
  split
  · next p ps hf hps =>
    have hflag : m.flag = true := (Bool.and_eq_true_iff.mp hf).1
    have hne : p.kind ≠ .textList := by
      have h := (Bool.and_eq_true_iff.mp hm).2
      simp only [hflag, Bool.not_true, Bool.false_or, hps, List.all_cons, Bool.and_eq_true,
        decide_eq_true_eq] at h
      exact h.1
    exact (Param.failsWithin_store (Param.isStorable_of_ne hne _) _ _).bind fun _ _ => .ok _
  · exact (failsWithin_applyArgs hm c d).bind fun _ _ => .ok _

end

theorem failsWithin_storeUncalled {ms : List Modifier} (h : ∀ m ∈ ms, m.isStorable = true)
    (called : List String) (props : Properties) :
    FailsWithin [.durationRange] (storeUncalled called ms props) := by
  induction ms generalizing props with
  | nil => exact .ok _
  | cons m ms ih =>
    obtain ⟨hm, h⟩ := List.forall_mem_cons.mp h
    unfold storeUncalled
    split
    · exact ih h _
    · refine (failsWithin_storeAll (fun x hx => ?_) _ _).bind fun _ _ => ih h _
      obtain ⟨p, hp, rfl⟩ := List.mem_map.mp hx
      exact isStorable_default hm p hp

/-! ### Elements -/

/-- An argument that evaluates within the fault. -/
def Operand.IsSound (a : Operand) : Prop := FailsWithin [.durationRange] (a.element ()).outcome

theorem failsWithin_elements {as : List Operand} (h : ∀ a ∈ as, a.IsSound) :
    FailsWithin [.durationRange] (elements as).outcome := by
  induction as with
  | nil => exact .ok _
  | cons a as ih =>
    obtain ⟨ha, h⟩ := List.forall_mem_cons.mp h
    unfold elements
    simp only [Logged.outcome_bind]
    exact FailsWithin.bind ha fun _ _ => (ih h).bind fun _ _ => .ok _

theorem failsWithin_checkLeading (s : Signature) (as : List Operand) :
    FailsWithin [.durationRange] (checkLeading s as) := by
  unfold checkLeading
  split
  · exact .ok _
  · split_ifs
    · exact failsWithin_failed _
    · exact failsWithin_failed _
    · exact .ok _

section

variable {s : Signature} (hs : s.isStorable = true)

include hs

theorem failsWithin_applyChain {cs : List (Invocation Operand)}
    (h : ∀ c ∈ cs, ∀ a ∈ c.args, a.IsSound) (d : Draft) :
    FailsWithin [.durationRange] (applyChain s cs d).outcome := by
  induction cs generalizing d with
  | nil => exact .ok _
  | cons c cs ih =>
    obtain ⟨hc, h⟩ := List.forall_mem_cons.mp h
    unfold applyChain
    split
    · simp only [Logged.outcome_bind]
      exact (failsWithin_elements hc).bind fun _ _ => (ih h d).bind fun _ _ => .ok _
    · simp only [Logged.outcome_bind, Logged.outcome_ofExcept]
      refine (failsWithin_findModifier _ _ _).bind fun m hm => ?_
      have hmem : m ∈ s.modifiers := by
        unfold findModifier at hm
        split at hm
        · next hf =>
          cases hm
          exact List.mem_of_find?_eq_some hf
        · cases hm
      have hst := List.all_eq_true.mp (Bool.and_eq_true_iff.mp hs).2 m hmem
      exact (failsWithin_applyModifier hst c d).bind fun d _ => ih h d

theorem failsWithin_construct {values : List (Param × Option Value)}
    (hv : ∀ x ∈ values, x.1.IsStorable x.2) {children : List Operand}
    (hk : ∀ a ∈ children, a.IsSound) {chain : List (Invocation Operand)}
    (hc : ∀ c ∈ chain, ∀ a ∈ c.args, a.IsSound) :
    FailsWithin [.durationRange] (construct s values children chain).outcome := by
  unfold construct
  simp only [Logged.outcome_bind, Logged.outcome_ofExcept]
  refine (failsWithin_storeAll (fun x hx => hv x (List.mem_of_mem_filter hx)) _ _).bind
    fun props _ => ?_
  refine (failsWithin_checkLeading s children).bind fun _ _ => ?_
  refine (failsWithin_elements hk).bind fun first _ => ?_
  refine (failsWithin_applyChain hs hc _).bind fun applied _ => ?_
  refine (failsWithin_storeUncalled ?_ _ _).bind fun _ _ => .ok _
  exact List.all_eq_true.mp (Bool.and_eq_true_iff.mp hs).2

end

theorem failsWithin_tryForms {forms : List Signature} (hs : ∀ s ∈ forms, s.isStorable = true)
    {children : List Operand} (hk : ∀ a ∈ children, a.IsSound)
    {chain : List (Invocation Operand)} (hc : ∀ c ∈ chain, ∀ a ∈ c.args, a.IsSound)
    (pos : Position) (name : String) (leading : List Expr) (failures : List BuildProblem) :
    FailsWithin [.durationRange]
      (tryForms pos name leading children chain failures forms).outcome := by
  induction forms generalizing failures with
  | nil => rcases failures with _ | ⟨p, _ | ⟨q, ps⟩⟩ <;> exact .report _
  | cons s forms ih =>
    obtain ⟨hst, hs⟩ := List.forall_mem_cons.mp hs
    have hd : ∀ p ∈ s.scalarParams, p.IsStorable p.default := by
      intro p hp hk w hw
      have h := List.all_eq_true.mp (Bool.and_eq_true_iff.mp hst).1 p (List.mem_of_mem_filter hp)
      simp only [hk, ne_eq, not_true_eq_false, decide_false, Bool.false_or,
        decide_eq_true_eq] at h
      exact ⟨[], Option.some.inj (hw.symm.trans h)⟩
    rw [tryForms]
    split
    · next f hf =>
      split
      · exact ih hs _
      · have hbound := (failsWithin_bindScalars hd pos.line name leading).bind fun values _ =>
          (failsWithin_checkChain s chain).bind fun _ _ => FailsWithin.ok values
        exact hbound.of_eq hf
    · next values hv =>
      obtain ⟨bound, hb, hv⟩ := exists_of_bind_eq_ok hv
      obtain ⟨-, -, hv⟩ := exists_of_bind_eq_ok hv
      cases hv
      rw [Logged.outcome_bind]
      have hstored := isStorable_of_bindScalars hd hb
      refine (failsWithin_construct hst hstored hk hc).bind fun e _ => ?_
      split
      · exact ih hs _
      · exact .ok _

theorem mem_of_divide {as : List Operand} {divided : List Expr × List Operand}
    (h : divide as = .ok divided) {a : Operand} (ha : a ∈ divided.2) : a ∈ as := by
  induction as generalizing divided with
  | nil =>
    cases h
    cases ha
  | cons b as ih =>
    unfold divide at h
    split at h
    · split at h
      · cases h
      · cases h
        exact ha
    · obtain ⟨rest, hr, h⟩ := exists_of_bind_eq_ok h
      cases h
      exact List.mem_cons_of_mem b (ih hr ha)

theorem failsWithin_makeCall {r : Registry}
    (hr : r.methods.signatures.all Signature.isStorable = true)
    {head : Invocation Operand} (hh : ∀ a ∈ head.args, a.IsSound)
    {chain : List (Invocation Operand)} (hc : ∀ c ∈ chain, ∀ a ∈ c.args, a.IsSound) :
    FailsWithin [.durationRange] (makeCall r head chain).outcome := by
  have hforms : ∀ s ∈ r.forMethod head.name, s.isStorable = true :=
    fun s hs => List.all_eq_true.mp hr s (SignatureIndex.mem_get.mp hs).1
  unfold makeCall
  split
  · exact .report _
  · simp only [Logged.outcome_bind, Logged.outcome_ofExcept]
    refine (failsWithin_divide _).bind fun divided hdiv => ?_
    exact failsWithin_tryForms hforms (fun a ha => hh a (mem_of_divide hdiv ha)) hc _ _ _ _

theorem failsWithin_ofCall {r : Registry} (hr : r.methods.signatures.all Signature.isStorable = true)
    {head : Invocation Operand} (hh : ∀ a ∈ head.args, a.IsSound)
    {chain : List (Invocation Operand)} (hc : ∀ c ∈ chain, ∀ a ∈ c.args, a.IsSound) :
    FailsWithin [.durationRange] (ofCall r head chain).outcome := by
  unfold ofCall
  rw [Logged.outcome_bind]
  exact (failsWithin_makeCall hr hh hc).bind fun made _ => .ok made.2

/-! ### Programs -/

/-- A scope whose signatures can store what they take, and whose bodies evaluate within the fault. -/
structure Scope.IsSound (s : Scope) : Prop where
  storable : s.registry.methods.signatures.all Signature.isStorable = true
  expand : ∀ d, FailsWithin [.durationRange] (s.expand d).outcome

theorem failsWithin_call {s : Scope} (hs : s.IsSound) {head : Invocation Operand}
    (hh : ∀ a ∈ head.args, a.IsSound) {chain : List (Invocation Operand)}
    (hc : ∀ c ∈ chain, ∀ a ∈ c.args, a.IsSound) :
    FailsWithin [.durationRange] (s.call head chain).outcome := by
  unfold Scope.call
  split
  · split_ifs
    · exact .report _
    · exact .report _
    · exact hs.expand _
  · exact failsWithin_ofCall hs.storable hh hc

mutual

theorem failsWithin_evaluate {s : Scope} (hs : s.IsSound) : (e : Expr) →
    FailsWithin [.durationRange] (evaluate s e).outcome
  | .call ⟨pos, name, args⟩ chain => by
    rw [evaluate]
    exact failsWithin_call hs (isSound_operands hs args) (isSound_invocations hs chain)
  | .text .. | .number .. | .bool .. | .null _ | .name .. => .report _

theorem isSound_operands {s : Scope} (hs : s.IsSound) : (es : List Expr) →
    ∀ a ∈ operands s es, a.IsSound
  | [] => fun _ ha => absurd ha List.not_mem_nil
  | e :: es => by
    rw [operands]
    exact List.forall_mem_cons.mpr ⟨failsWithin_evaluate hs e, isSound_operands hs es⟩

theorem isSound_invocations {s : Scope} (hs : s.IsSound) : (cs : List (Invocation Expr)) →
    ∀ c ∈ invocations s cs, ∀ a ∈ c.args, a.IsSound
  | [] => fun _ hc => absurd hc List.not_mem_nil
  | ⟨pos, name, args⟩ :: rest => by
    rw [invocations]
    exact List.forall_mem_cons.mpr ⟨isSound_operands hs args, isSound_invocations hs rest⟩

end

end Build

end FluentPlan
