import FluentPlan.Proofs.Rebuilding.ThreadGroup

/-!
Elements that are made again. Whatever form of its method takes what code says of an element, the new
element resolves to that form, which writes the same call.
-/

namespace FluentPlan

open Build Script Element Catalog Catalog.Plan

namespace Signature

/-- What forms of one method share: all but the parameters, and these as to whether they have a place
for children. -/
structure Resembles (t s : Signature) : Prop where
  method : t.method = s.method
  category : t.category = s.category
  mode : t.childrenMode = s.childrenMode
  effect : t.emptyWhenDefault = s.emptyWhenDefault
  modifiers : t.modifiers = s.modifiers
  place : t.params.any Param.isChildren = s.params.any Param.isChildren

theorem Resembles.refl (s : Signature) : s.Resembles s := ⟨rfl, rfl, rfl, rfl, rfl, rfl⟩

end Signature

/-- An element that was made by the form `t` from what code says of an element by the form `s`. -/
structure Rebuilt (s t : Signature) (vs : List (Param × Option Value))
    (blocks : List (Modifier × List Call)) (children : List Operand) (e : Element) : Prop where
  resembles : t.Resembles s
  resolved : Registry.standard.resolve? e = .ok t
  enabled : e.enabled = true
  children : (elements children).outcome = .ok e.children
  restored : Restored t vs blocks e

/-- Where two forms chain different calls, the one takes none of the other's. -/
theorem Build.Makes.invs_eq_nil {s t : Signature} {line : Nat} {name : String} {leading : List Expr}
    {children : List Operand} {invs tail : List (Invocation Operand)} {e : Element}
    (h : Makes t line name leading children (invs ++ tail) e) {blocks : List (Modifier × List Call)}
    (hi : List.Forall₂ Says invs (blocks.flatMap Prod.snd)) (hm : blocks.map Prod.fst = s.modifiers)
    (hb : ∀ b ∈ blocks, ∀ c ∈ b.2, c.head.method = b.1.method)
    (hapart : ∀ m ∈ s.modifiers, m.method ≠ childrenMethod ∧
      ∀ n ∈ t.modifiers, n.method ≠ m.method) : invs = [] := by
  cases hinvs : invs with
  | nil => rfl
  | cons inv rest =>
    rw [hinvs] at hi h
    obtain ⟨c, cs, hsaid, -, hcalls⟩ := List.forall₂_cons_left_iff.mp hi
    obtain ⟨b, hb', hc⟩ := List.mem_flatMap.mp (hcalls ▸ List.mem_cons_self : c ∈ _)
    have hname : inv.name = b.1.method := hsaid.1.trans (hb b hb' c hc)
    obtain ⟨hne, hother⟩ := hapart b.1 (hm ▸ List.mem_map_of_mem hb')
    obtain ⟨n, hn, hnm⟩ := exists_modifier_of_checkChain h.chained
      (List.mem_append_left _ List.mem_cons_self) (by rwa [hname])
    exact absurd (hnm.trans hname) (hother n hn)

namespace Told

variable {s t : Signature} {e : Element} {vs : List (Param × Option Value)}
  {blocks : List (Modifier × List Call)} {leading : List Expr}
  (hl : leading.map Expr.unplaced = vs.flatMap fun x => (Arg.scalar x.1 x.2).exprs)
  {invs tail : List (Invocation Operand)}
  (hi : List.Forall₂ Says invs (blocks.flatMap Prod.snd)) (htail : IsTail tail) {line : Nat}
  {name : String} {children : List Operand} {e' : Element}
  (hmakes : Makes t line name leading children (invs ++ tail) e')

include hi hmakes

/-- Where two forms chain different calls, nothing that is said by one is taken by the other. -/
theorem invs_eq_nil (h : Told s e vs blocks)
    (hapart : ∀ m ∈ s.modifiers, m.method ≠ childrenMethod ∧
      ∀ n ∈ t.modifiers, n.method ≠ m.method) : invs = [] :=
  hmakes.invs_eq_nil hi h.modifiers (fun _ hb _ hc => h.method_of_mem hb hc) hapart

include hl htail

/-- A form that restores what it stores makes an element again. -/
theorem rebuilt_of_goes (h : Told s e vs blocks) (hr : t.Resembles s) (ht : t.Restorable)
    (hmem : t ∈ Registry.standard.signatures) (hg : List.Forall₂ Goes vs t.scalarParams) :
    Rebuilt s t vs blocks (children ++ tail.flatMap (·.args)) e' := by
  obtain ⟨-, hen, hchildren, hrestored⟩ :=
    h.restored_of_makes hl hi htail hmakes ht hg hr.modifiers
  exact ⟨hr, hmakes.resolve?_eq hmem, hen, hchildren, hrestored⟩

/-- A form of a thread group that restores what it stores makes an element again. -/
theorem rebuilt_of_mem_tail (h : Told s e vs blocks) (ht : t ∈ threadGroupForms.tail)
    (hr : t.Resembles s) (hg : List.Forall₂ Goes vs t.scalarParams) :
    Rebuilt s t vs blocks (children ++ tail.flatMap (·.args)) e' :=
  h.rebuilt_of_goes hl hi htail hmakes hr (restorable_of_mem_tail ht)
    (Registry.mem_signatures_of_mem_threadGroupForms (List.mem_of_mem_tail ht)) hg

/-- Of the forms that chain their settings only one takes what was said. -/
theorem rebuilt_of_chained (h : Told s e vs blocks)
    (hs : s = rampHoldThreadGroup ∨ s = rampThreadGroup)
    (ht : t = rampHoldThreadGroup ∨ t = rampThreadGroup) :
    Rebuilt s t vs blocks (children ++ tail.flatMap (·.args)) e' := by
  have hnone (hapart : ∀ m ∈ s.modifiers, m.method ≠ childrenMethod ∧
      ∀ n ∈ t.modifiers, n.method ≠ m.method) : False := by
    rw [h.invs_eq_nil hi hmakes hapart] at hmakes
    exact not_makes_of_isTail ht htail hmakes
  rcases hs with rfl | rfl <;> rcases ht with rfl | rfl
  · obtain ⟨-, hen, hchildren, hrestored⟩ := h.restored_of_rampHold hl hi htail hmakes
    exact ⟨.refl _, hmakes.resolve?_of_mem_threadGroupForms List.mem_cons_self, hen, hchildren,
      hrestored⟩
  · exact (hnone (by decide)).elim
  · exact (hnone (by decide)).elim
  · have hmem : rampThreadGroup ∈ threadGroupForms.tail := List.mem_cons_self
    exact h.rebuilt_of_mem_tail hl hi htail hmakes hmem (.refl _)
      (h.goes (restorable_of_mem_tail hmem).scalars)

/-- Of the forms that take their settings as arguments, both may take what was said. -/
theorem rebuilt_of_plain (h : Told s e vs blocks)
    (hs : s = durationThreadGroup ∨ s = threadGroup)
    (ht : t = durationThreadGroup ∨ t = threadGroup) :
    Rebuilt s t vs blocks (children ++ tail.flatMap (·.args)) e' := by
  have hlast {u : Signature} (hu : u = durationThreadGroup ∨ u = threadGroup) :
      ∃ q, (q = groupTime ∨ q = groupLoops) ∧
        u.scalarParams = [threadGroupName, threadCount, q] := by
    rcases hu with rfl | rfl
    · exact ⟨groupTime, .inl rfl, rfl⟩
    · exact ⟨groupLoops, .inr rfl, rfl⟩
  obtain ⟨q, hq, hsq⟩ := hlast hs
  obtain ⟨p, hp, htp⟩ := hlast ht
  have hmem : t ∈ threadGroupForms.tail := by rcases ht with rfl | rfl <;> decide
  refine h.rebuilt_of_mem_tail hl hi htail hmakes hmem ?_ (htp ▸ h.goes_of_plain hsq hq hp)
  rcases hs with rfl | rfl <;> rcases ht with rfl | rfl <;> exact ⟨rfl, rfl, rfl, rfl, rfl, rfl⟩

/-- How many arguments there are tells the forms of a thread group apart that chain their settings and
those that do not. -/
theorem rebuilt_of_mem_threadGroupForms (h : Told s e vs blocks) (hs : s ∈ threadGroupForms)
    (ht : t ∈ threadGroupForms) : Rebuilt s t vs blocks (children ++ tail.flatMap (·.args)) e' := by
  have htold := arity_of_exprs (isVariadic_of_mem_threadGroupForms s hs) h.map_fst hl
  have hmade := hmakes.arity (isVariadic_of_mem_threadGroupForms t ht)
  rcases sort_of_mem_threadGroupForms hs with ⟨hs, hlen⟩ | ⟨hs, hlen⟩ <;>
    rcases sort_of_mem_threadGroupForms ht with ⟨ht, hlen'⟩ | ⟨ht, hlen'⟩
  · exact h.rebuilt_of_chained hl hi htail hmakes hs ht
  · omega
  · omega
  · exact h.rebuilt_of_plain hl hi htail hmakes hs ht

/-- What a form of a method takes, an element resolves to it that writes the same call. -/
theorem rebuilt_of_makes (h : Told s e vs blocks) (hs : s ∈ Registry.standard.signatures)
    (ht : t ∈ Registry.standard.forMethod s.method) :
    Rebuilt s t vs blocks (children ++ tail.flatMap (·.args)) e' := by
  by_cases hgroup : s ∈ threadGroupForms
  · have ht : t ∈ threadGroupForms := by
      rcases Registry.eq_of_mem_forMethod hs ht with rfl | ⟨-, ht⟩
      · exact hgroup
      · exact ht
    exact h.rebuilt_of_mem_threadGroupForms hl hi htail hmakes hgroup ht
  · obtain rfl := (Registry.eq_of_mem_forMethod hs ht).resolve_right fun hboth => hgroup hboth.1
    have hr : t.Restorable := (Signature.restorable_of_mem hs).resolve_left fun heq =>
      hgroup (heq ▸ List.mem_cons_self)
    exact h.rebuilt_of_goes hl hi htail hmakes (.refl t) hr hs (h.goes hr.scalars)

end Told

end FluentPlan
