import Mathlib.Data.List.Forall2
import Mathlib.Tactic.Common
import FluentPlan.Proofs.Rebuilding.Binding
import FluentPlan.Proofs.Rebuilding.Restorable

/-!
What chained calls store. Each call of a modifier binds values, and puts their entries and what its
guard asks for; the calls of all modifiers, one modifier after the other, put the blocks of entries
of the modifiers one after the other.
-/

namespace FluentPlan

open Script

/-! ### Guards -/

namespace Guard

theorem apply_of_isPlain {g : Guard} (h : g.isPlain = true) (props : Properties) :
    g.apply props = props.putAll g.demand := by
  cases g with
  | equals k v => rfl
  | not g => rfl
  | isIn _ _ | all _ => cases h

mutual

/-- Applying a guard puts entries under the keys that it may write. -/
theorem exists_apply_eq (props : Properties) : (g : Guard) →
    ∃ es, g.apply props = props.putAll es ∧ ∀ e ∈ es, e.1 ∈ g.writes
  | equals k v => ⟨[(k, v)], rfl, by simp [writes]⟩
  | isIn k vs => by
    cases vs with
    | nil => exact ⟨[], rfl, nofun⟩
    | cons v vs =>
      by_cases h : accepts props (.isIn k (v :: vs)) = true
      · exact ⟨[], by simp only [apply, h, if_true]; rfl, nofun⟩
      · exact ⟨[(k, v)], by simp only [apply, h]; rfl, by simp [writes]⟩
  | not g => ⟨[], rfl, nofun⟩
  | all gs => by
    obtain ⟨es, he, hk⟩ := exists_applyAll_eq props gs
    exact ⟨es, by rw [apply, he], by simpa [writes] using hk⟩

theorem exists_applyAll_eq (props : Properties) : (gs : List Guard) →
    ∃ es, applyAll props gs = props.putAll es ∧ ∀ e ∈ es, e.1 ∈ writesAll gs
  | [] => ⟨[], rfl, nofun⟩
  | g :: gs => by
    obtain ⟨es, he, hk⟩ := exists_apply_eq props g
    obtain ⟨fs, hf, hl⟩ := exists_applyAll_eq (props.putAll es) gs
    refine ⟨es ++ fs, by rw [applyAll, he, hf, Properties.putAll_append], fun e hm => ?_⟩
    rw [writesAll, List.mem_append]
    rcases List.mem_append.mp hm with hm | hm
    · exact .inl (hk e hm)
    · exact .inr (hl e hm)

end

theorem get?_apply {g : Guard} {key : String} (h : key ∉ g.writes) (props : Properties) :
    (g.apply props).get? key = props.get? key := by
  obtain ⟨es, he, hk⟩ := exists_apply_eq props g
  rw [he]
  refine Properties.get?_putAll_of_not_mem fun e hm hkey => ?_
  rw [← hkey] at h
  exact h (hk e hm)

theorem accepts_congr {g : Guard} (h : g.isPlain = true) {props after : Properties}
    (hk : after.get? g.key = props.get? g.key) : g.accepts after = g.accepts props := by
  have hequals {k v : String} (hk : after.get? k = props.get? k) :
      accepts after (.equals k v) = accepts props (.equals k v) := by
    rw [accepts, accepts, hk]
  cases g with
  | equals k v => exact hequals hk
  | not g =>
    cases g with
    | equals k v => exact congrArg Bool.not (hequals hk)
    | _ => cases h
  | isIn _ _ | all _ => cases h

/-- A guard that spares another one leaves it accepting. -/
theorem accepts_apply {g h : Guard} (hg : g.isPlain = true) (hs : h.spares g = true)
    {props : Properties} (ha : g.accepts props = true) : g.accepts (h.apply props) = true := by
  by_cases hk : g.key ∈ h.writes
  · cases h with
    | isIn k vs =>
      cases g with
      | equals l v =>
        have hkl : l = k := by simpa [writes, key] using hk
        subst hkl
        have hv : vs.contains v = true := by simpa [spares] using hs
        have hget : props.get? l = some v := by simpa [accepts] using ha
        have hin : accepts props (.isIn l vs) = true := by
          rw [accepts, hget]
          exact hv
        have hsame : apply props (.isIn l vs) = props := by
          cases vs with
          | nil => rfl
          | cons w ws => simp only [apply, hin, if_true]
        rw [hsame]
        exact ha
      | _ => simp_all [spares]
    | _ => simp_all [spares]
  · rw [accepts_congr hg (get?_apply hk props), ha]

end Guard

/-- Applying the guard of a modifier puts what it asks for. -/
theorem Modifier.Restorable.apply_guard {m : Modifier} (hr : m.Restorable) (props : Properties) :
    m.guard.elim props (·.apply props) = props.putAll (m.guard.elim [] Guard.demand) := by
  cases hg : m.guard with
  | none => rfl
  | some g => exact Guard.apply_of_isPlain (hr.guard_plain g hg) props

namespace Build

/-! ### Values -/

/-- Storing values puts their entries, one value after the other. -/
theorem storeAll_eq_ok {lead : String} {values : List (Param × Option Value)}
    (hp : ∀ x ∈ values, x.1.isPlaced = true) {props after : Properties}
    (h : storeAll lead values props = .ok after) :
    after = props.putAll (values.flatMap fun x => x.1.entries x.2 lead) := by
  induction values generalizing props with
  | nil =>
    cases h
    rfl
  | cons x values ih =>
    obtain ⟨mid, hmid, h⟩ := exists_of_bind_eq_ok h
    rw [ih (fun y hy => hp y (List.mem_cons_of_mem x hy)) h,
      Param.store_eq_ok (hp x List.mem_cons_self) hmid, List.flatMap_cons, Properties.putAll_append]

theorem map_fst_of_bindValues {taken : Param → Bool} {ps : List Param} {args : List Expr}
    {values : List (Param × Option Value)} (h : bindValues taken ps args = .ok values) :
    values.map Prod.fst = ps := by
  induction ps generalizing args values with
  | nil =>
    cases h
    rfl
  | cons p ps ih =>
    unfold bindValues at h
    split_ifs at h
    · obtain ⟨rest, hrest, h⟩ := exists_of_bind_eq_ok h
      cases h
      rw [List.map_cons, ih hrest]
    · obtain ⟨v, -, h⟩ := exists_of_bind_eq_ok h
      cases h
      rw [List.map_cons, List.map_map]
      exact congrArg (p :: ·) (List.map_id ps)
    · split at h
      · obtain ⟨rest, hrest, h⟩ := exists_of_bind_eq_ok h
        cases h
        rw [List.map_cons, ih hrest]
      · obtain ⟨v, -, h⟩ := exists_of_bind_eq_ok h
        obtain ⟨rest, hrest, h⟩ := exists_of_bind_eq_ok h
        cases h
        rw [List.map_cons, ih hrest]

/-! ### Calls of a modifier -/

/-- The values that a call of a modifier gives to its parameters. -/
def bound (m : Modifier) (c : Invocation Operand) : Except Failure (List (Param × Option Value)) :=
  match m.flag && c.args.isEmpty, m.params with
  | true, p :: _ => .ok [(p, some (.bool !(p.default.any Value.isTruthy)))]
  | _, _ => bindAll m.params c.pos.line c.name (c.args.map (·.expr))

/-- What stands before the properties of a call of a modifier. -/
def lead (m : Modifier) (index : Nat) : String :=
  match m.each with
  | some each => Element.entryLead each index
  | none => ""

theorem applyModifier_eq_ok {m : Modifier} (hm : m.flag = true → m.each = none)
    {c : Invocation Operand} {d after : Draft} (h : applyModifier m c d = .ok after) :
    ∃ values props, bound m c = .ok values ∧
      storeAll (lead m (d.count m.method)) values d.props = .ok props ∧
      after.props = m.guard.elim props (·.apply props) ∧
      (∀ name, name ≠ m.method → after.count name = d.count name) ∧
      (m.each ≠ none → after.count m.method = d.count m.method + 1) := by
  unfold applyModifier at h
  simp only at h
  split at h
  · next p ps hflag hparams =>
    obtain ⟨props, hprops, h⟩ := exists_of_bind_eq_ok h
    obtain ⟨hafter, hcounts⟩ :
        after.props = m.guard.elim props (·.apply props) ∧ after.counts = d.counts := by
      rw [← Except.ok.inj h]
      cases m.guard <;> exact ⟨rfl, rfl⟩
    have heach := hm (Bool.and_eq_true_iff.mp hflag).1
    refine ⟨_, props, by unfold bound; rw [hflag, hparams], ?_, hafter, fun name _ => ?_,
      fun hne => absurd heach hne⟩
    · simp only [lead, heach, storeAll, hprops, ok_bind]
    · rw [Draft.count, Draft.count, hcounts]
  · next hno =>
    obtain ⟨mid, hmid, h⟩ := exists_of_bind_eq_ok h
    obtain ⟨hafter, hcounts⟩ :
        after.props = m.guard.elim mid.props (·.apply mid.props) ∧ after.counts = mid.counts := by
      rw [← Except.ok.inj h]
      cases m.guard <;> exact ⟨rfl, rfl⟩
    obtain ⟨values, hvalues, hmid⟩ := exists_of_bind_eq_ok hmid
    have hbound : bound m c = .ok values := by
      unfold bound
      split
      · next p ps hflag hparams => exact absurd hparams (hno p ps hflag)
      · exact hvalues
    cases heach : m.each with
    | none =>
      rw [heach] at hmid
      obtain ⟨props, hprops, hmid⟩ := exists_of_bind_eq_ok hmid
      cases hmid
      refine ⟨values, props, hbound, ?_, hafter, fun name _ => ?_, fun hne => absurd rfl hne⟩
      · simp only [lead, heach, hprops]
      · rw [Draft.count, Draft.count, hcounts]
    | some each =>
      rw [heach] at hmid
      obtain ⟨props, hprops, hmid⟩ := exists_of_bind_eq_ok hmid
      cases hmid
      refine ⟨values, props, hbound, ?_, hafter, fun name hne => ?_, fun _ => ?_⟩
      · simp only [lead, heach]
        exact hprops
      · have hbeq : (name == m.method) = false := by simpa using hne
        rw [Draft.count, Draft.count, hcounts]
        simp only [List.lookup_cons, hbeq]
      · rw [Draft.count, hcounts]
        simp [Draft.count]

/-- The entries that calls of a modifier put, from the entry `index` of its collection on. -/
def blockEntries (m : Modifier) : (index : Nat) → List (List (Param × Option Value)) →
    List (String × String)
  | _, [] => []
  | index, vs :: vss =>
    (vs.flatMap fun x => x.1.entries x.2 (lead m index)) ++ m.guard.elim [] Guard.demand ++
      blockEntries m (index + 1) vss

/-! ### Chains -/

/-- Whether an invocation says a call. -/
def Says (inv : Invocation Operand) (c : Call) : Prop :=
  inv.name = c.head.method ∧ (inv.args.map fun a => a.expr.unplaced) = c.argExprs

/-- Whether values are bound in an invocation that says a call. -/
def Binds (m : Modifier) (c : Call) (vs : List (Param × Option Value)) : Prop :=
  ∃ inv, Says inv c ∧ bound m inv = .ok vs

/-- Whether entries are the block that the calls of a modifier put. -/
def IsBlock (b : Modifier × List Call) (es : List (String × String)) : Prop :=
  ∃ vss, List.Forall₂ (Binds b.1) b.2 vss ∧ es = blockEntries b.1 0 vss

theorem find?_method {ms : List Modifier} (h : (ms.map (·.method)).Nodup) {m : Modifier}
    (hm : m ∈ ms) : ms.find? (fun n => n.method = m.method) = some m := by
  induction ms with
  | nil => cases hm
  | cons n ms ih =>
    rw [List.map_cons, List.nodup_cons] at h
    rcases List.mem_cons.mp hm with rfl | hm
    · simp
    · have hne : n.method ≠ m.method := fun he => h.1 (he ▸ List.mem_map_of_mem hm)
      rw [List.find?_cons_of_neg (by simpa using hne), ih h.2 hm]

theorem fst_mem_of_bound {m : Modifier} {c : Invocation Operand}
    {values : List (Param × Option Value)} (h : bound m c = .ok values) :
    ∀ x ∈ values, x.1 ∈ m.params := by
  unfold bound at h
  split at h
  · next p ps _ hparams =>
    cases h
    intro x hx
    rw [List.mem_singleton.mp hx, hparams]
    exact List.mem_cons_self
  · intro x hx
    rw [← map_fst_of_bindValues (bindAll_eq_ok h)]
    exact List.mem_map_of_mem hx

/-- The calls of one modifier put their block of entries. -/
theorem applyChain_calls {s : Signature} (hs : s.Restorable) {m : Modifier} (hm : m ∈ s.modifiers)
    {cs : List Call} {invs : List (Invocation Operand)} (hi : List.Forall₂ Says invs cs)
    (hcs : ∀ c ∈ cs, c.head.method = m.method) {rest : List (Invocation Operand)} {d : Draft}
    {i : Nat} (hd : m.each ≠ none → d.count m.method = i) {r : Draft × List Element}
    (h : (applyChain s (invs ++ rest) d).outcome = .ok r) :
    ∃ vss after, List.Forall₂ (Binds m) cs vss ∧ (applyChain s rest after).outcome = .ok r ∧
      after.props = d.props.putAll (blockEntries m i vss) ∧
      ∀ name, name ≠ m.method → after.count name = d.count name := by
  have hr := hs.modifiers m hm
  induction hi generalizing d i with
  | nil => exact ⟨[], d, .nil, h, rfl, fun _ _ => rfl⟩
  | @cons inv c invs cs hsaid _ ih =>
    have hname : inv.name = m.method := hsaid.1.trans (hcs c List.mem_cons_self)
    have hfind : findModifier s inv.pos.line inv.name = .ok m := by
      rw [findModifier, hname, find?_method hs.methods_nodup hm]
    rw [List.cons_append, applyChain, if_neg (by rw [hname]; exact hr.method_ne)] at h
    simp only [Logged.outcome_bind, Logged.outcome_ofExcept, hfind, ok_bind] at h
    obtain ⟨mid, hmid, h⟩ := exists_of_bind_eq_ok h
    obtain ⟨vs, props, hb, hstore, hguard, hcount, hnext⟩ :=
      applyModifier_eq_ok hr.each_of_flag hmid
    have hlead : lead m (d.count m.method) = lead m i := by
      unfold lead
      split
      · next each he => rw [hd (by simp [he])]
      · rfl
    have hprops : mid.props = d.props.putAll ((vs.flatMap fun x => x.1.entries x.2 (lead m i)) ++
        m.guard.elim [] Guard.demand) := by
      rw [hguard, hr.apply_guard, Properties.putAll_append, ← hlead,
        storeAll_eq_ok (fun x hx => hr.placed x.1 (fst_mem_of_bound hb x hx)) hstore]
    obtain ⟨vss, after, hvss, hrest, hafter, hothers⟩ :=
      ih (fun c hc => hcs c (List.mem_cons_of_mem _ hc)) (i := i + 1)
        (fun he => by rw [hnext he, hd he]) h
    refine ⟨vs :: vss, after, .cons ⟨inv, hsaid, hb⟩ hvss, hrest, ?_, fun name hne => ?_⟩
    · rw [hafter, hprops, blockEntries, Properties.putAll_append _ _ (blockEntries _ _ _)]
    · rw [hothers name hne, hcount name hne]

/-- The calls of several modifiers, one modifier after the other, put their blocks of entries. -/
theorem applyChain_blocks {s : Signature} (hs : s.Restorable) {blocks : List (Modifier × List Call)}
    (hm : ∀ b ∈ blocks, b.1 ∈ s.modifiers ∧ ∀ c ∈ b.2, c.head.method = b.1.method)
    (hn : (blocks.map fun b => b.1.method).Nodup) {invs : List (Invocation Operand)}
    (hi : List.Forall₂ Says invs (blocks.flatMap Prod.snd)) {rest : List (Invocation Operand)}
    {d : Draft} (hd : ∀ b ∈ blocks, d.count b.1.method = 0) {r : Draft × List Element}
    (h : (applyChain s (invs ++ rest) d).outcome = .ok r) :
    ∃ ess after, List.Forall₂ IsBlock blocks ess ∧
      (applyChain s rest after).outcome = .ok r ∧ after.props = d.props.putAll ess.flatten := by
  induction blocks generalizing invs d with
  | nil =>
    cases hi
    exact ⟨[], d, .nil, h, rfl⟩
  | cons b blocks ih =>
    rw [List.flatMap_cons] at hi
    obtain ⟨is, js, rfl, his, hjs⟩ : ∃ is js, invs = is ++ js ∧ List.Forall₂ Says is b.2 ∧
        List.Forall₂ Says js (blocks.flatMap Prod.snd) :=
      ⟨_, _, (List.take_append_drop b.2.length invs).symm, List.forall₂_take_append _ _ _ hi,
        List.forall₂_drop_append _ _ _ hi⟩
    rw [List.append_assoc] at h
    rw [List.map_cons, List.nodup_cons] at hn
    obtain ⟨hbm, hbc⟩ := hm b List.mem_cons_self
    obtain ⟨vss, mid, hvss, hmid, hprops, hothers⟩ :=
      applyChain_calls hs hbm his hbc (i := 0) (fun _ => hd b List.mem_cons_self) h
    have hcount : ∀ b' ∈ blocks, mid.count b'.1.method = 0 := by
      intro b' hb'
      have hne : b'.1.method ≠ b.1.method := fun he =>
        hn.1 (he ▸ List.mem_map_of_mem (f := fun b : Modifier × List Call => b.1.method) hb')
      rw [hothers _ hne, hd b' (List.mem_cons_of_mem b hb')]
    obtain ⟨ess, after, hess, hrest, hafter⟩ :=
      ih (fun b' hb' => hm b' (List.mem_cons_of_mem b hb')) hn.2 hjs hcount hmid
    refine ⟨_ :: ess, after, .cons ⟨vss, hvss, rfl⟩ hess, hrest, ?_⟩
    rw [hafter, hprops, List.flatten_cons, Properties.putAll_append]

end Build

end FluentPlan
