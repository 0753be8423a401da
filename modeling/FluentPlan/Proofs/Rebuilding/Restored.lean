import Mathlib.Data.List.Forall2
import Mathlib.Tactic.Common
import FluentPlan.Proofs.Rebuilding.Scalars

/-!
Elements that are restored. What a signature makes of a call has the values of the signature and the
calls of its modifiers that the call says.
-/

namespace FluentPlan

open Build Script Element

namespace Build

theorem nameOf_cons (default : Option String) (x : Param × Option Value)
    (values : List (Param × Option Value)) : nameOf default (x :: values) =
      nameOf (if x.1.kind = .displayName then (x.2.map Value.plainText <|> default) else default)
        values := rfl

theorem nameOf_of_not_displayName {values : List (Param × Option Value)}
    (h : ∀ x ∈ values, x.1.kind ≠ .displayName) (default : Option String) :
    nameOf default values = default := by
  induction values with
  | nil => rfl
  | cons x values ih =>
    rw [nameOf_cons, if_neg (h x List.mem_cons_self)]
    exact ih fun y hy => h y (List.mem_cons_of_mem x hy)

/-- The name of an element is the value of the one parameter for names. -/
theorem nameOf_eq {values : List (Param × Option Value)}
    (hone : ((values.map Prod.fst).filter fun p => p.kind = .displayName).length ≤ 1)
    {x : Param × Option Value} (hx : x ∈ values) (hk : x.1.kind = .displayName) {t : String}
    (ht : x.2 = some (.text t)) (default : Option String) : nameOf default values = some t := by
  induction values generalizing default with
  | nil => cases hx
  | cons y values ih =>
    rw [List.map_cons] at hone
    by_cases hy : y.1.kind = .displayName
    · rw [List.filter_cons_of_pos (by simpa using hy), List.length_cons] at hone
      have hnone : ∀ z ∈ values, z.1.kind ≠ .displayName := by
        intro z hz hzk
        have hpos : 0 < ((values.map Prod.fst).filter fun p => p.kind = .displayName).length :=
          List.length_pos_of_mem
            (List.mem_filter.mpr ⟨List.mem_map_of_mem hz, by simpa using hzk⟩)
        omega
      have hxy : x = y := by
        rcases List.mem_cons.mp hx with h | h
        · exact h
        · exact absurd hk (hnone x h)
      subst hxy
      rw [nameOf_cons, if_pos hy, ht]
      exact nameOf_of_not_displayName hnone _
    · rw [List.filter_cons_of_neg (by simpa using hy)] at hone
      have hxv : x ∈ values := by
        rcases List.mem_cons.mp hx with h | h
        · rw [h] at hk
          exact absurd hk hy
        · exact h
      rw [nameOf_cons, if_neg hy]
      exact ih hone hxv default

/-- The name of an element is read again. -/
theorem valueOf_of_name {y : Param × Option Value} (hk : y.1.kind = .displayName) {t : String}
    (ht : y.2 = some (.text t)) {e : Element} (hn : e.name = some t) :
    y.1.valueOf e "" = y.1.reread y.2 := by
  obtain ⟨⟨kind, prop, default, required, mandatory⟩, v⟩ := y
  have hk : kind = .displayName := hk
  have ht : v = some (.text t) := ht
  subst hk ht
  simp only [Param.valueOf, Param.extract, hn]
  rfl

end Build

/-- An element in which a signature finds values and calls that look like given ones. -/
structure Restored (s : Signature) (vs : List (Param × Option Value))
    (blocks : List (Modifier × List Call)) (e : Element) : Prop where
  scalars : ∃ ws, scalarValues s e = .ok ws ∧ AllAlike vs ws ∧ ws.map Prod.fst = s.scalarParams
  calls : ∃ dss, List.Forall₂ (fun b ds => modifierCalls e b.1 = .ok ds ∧
    List.Forall₂ (Echoes b.1) b.2 ds) blocks dss

/-- What is built from what code says restores what was said. -/
theorem restored_of_construct {s : Signature} (hs : s.Restorable)
    {vs values : List (Param × Option Value)} (hk : List.Forall₂ Keeps vs values)
    (hv : values.map Prod.fst = s.scalarParams) {children : List Operand} {old : Element}
    {blocks : List (Modifier × List Call)} (hm : blocks.map Prod.fst = s.modifiers)
    (ho : ∀ b ∈ blocks, modifierCalls old b.1 = .ok b.2)
    (hsaid : ∀ b ∈ blocks, ∀ c ∈ b.2, SaysValues c)
    {invs tail : List (Invocation Operand)} (hi : List.Forall₂ Says invs (blocks.flatMap Prod.snd))
    (ht : IsTail tail) {e : Element}
    (h : (construct s values children (invs ++ tail)).outcome = .ok e) :
    e.kind = s.kind ∧ e.enabled = true ∧
      (elements (children ++ tail.flatMap (·.args))).outcome = .ok e.children ∧
      Restored s vs blocks e := by
  have hcalls (b : Modifier × List Call) (hb : b ∈ blocks) :=
    exists_isCall (modifier_of_mem hs hm hb).2 (ho b hb) (hsaid b hb)
  have hmethod : ∀ b ∈ blocks, ∀ c ∈ b.2, c.head.method = b.1.method := by
    intro b hb c hc
    obtain ⟨us, hcall⟩ := (hcalls b hb).1 c hc
    rw [hcall.call]
    rfl
  have hold : ∀ b ∈ blocks, b.2 ≠ [] → ∀ g, b.1.guard = some g → g.accepts old.properties = true :=
    fun b hb => (hcalls b hb).2.2
  obtain ⟨hkind, hname, hen, hchildren, ess, hess, hprops⟩ := construct_eq_ok hs hv hm hmethod hi ht h
  have hprops : e.properties =
      guarded s (.putAll .empty (storedEntries values blocks ess)) := hprops
  obtain ⟨own, hown, hout⟩ := exists_guarded_eq hs (storedEntries values blocks ess)
  have heq := hprops.trans hown
  refine ⟨hkind, hen, hchildren, ?_, ?_⟩
  · obtain ⟨ws, hws, halike, hfst⟩ := valuesOf_of_returns e ""
      (hk.imp fun x y hxy => hxy.1) fun y hy => by
        obtain ⟨x, -, -, hy'⟩ := exists_of_forall₂ hk hy
        by_cases hyk : y.1.kind = .displayName
        · obtain ⟨t, ht⟩ := hy' hyk
          exact valueOf_of_name hyk ht
            (by rw [hname, nameOf_eq (by rw [hv]; exact hs.one_name) hy hyk ht])
        · exact Param.valueOf_of_filter
            (placed_of_scalar hs (hv ▸ List.mem_map_of_mem hy) hyk) heq
            (filter_scalar hs hv hm hess hout hy hyk)
    rw [hv] at hws hfst
    exact ⟨ws, hws, halike, hfst⟩
  · refine exists_forall₂ fun b hb => ?_
    obtain ⟨hmem, hr⟩ := modifier_of_mem hs hm hb
    by_cases hacc : ∀ g, b.1.guard = some g → g.accepts e.properties = true
    · have hacc' := hacc
      rw [hprops] at hacc'
      obtain ⟨vss, hvss, hfilter⟩ := filter_modifier hs hv hm hess hold hout hb hacc'
      exact modifierCalls_of_block hr
        (fun g hg x hx => by
          rw [Bool.eq_false_iff]
          intro hin
          have hno := not_inRegion_of_demand hs hmem hg hx
          rw [Signature.inRegion_of_modifier hmem hin] at hno
          cases hno) hvss heq hfilter
        (hcalls b hb).1 (hcalls b hb).2.1 hacc
    · simp only [not_forall, Bool.not_eq_true] at hacc
      obtain ⟨g, hg, hacc⟩ := hacc
      have hnil : b.2 = [] := by
        by_contra hne
        rw [hprops, accepts_guarded hs hv hm hess hold hb hne hg] at hacc
        cases hacc
      refine ⟨[], modifierCalls_of_refused hg hacc, ?_⟩
      rw [hnil]
      exact .nil

end FluentPlan
