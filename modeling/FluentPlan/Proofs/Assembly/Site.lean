import Mathlib.Data.List.Basic
import Mathlib.Tactic.Common
import FluentPlan.Proofs.Assembly.Outcome

/-!
Sites: where the elements of a plan stand, in the order in which a walk meets them. A site knows the
elements above its own, so it can be told of it what happened higher up: that something was left out
with all below it, or had no effect. Computations that go through a plan report the first site that is
at fault, if they meet one.
-/

namespace FluentPlan

/-- An element of a plan with its path, and the elements above it, the nearest first. -/
structure Site where
  path : String
  above : List Element
  element : Element

namespace Element

mutual

/-- The sites of an element and of all below it, each before those below it. -/
def sitesBelow (parent : String) (above : List Element) : Element → List Site
  | ⟨kind, name, enabled, properties, children⟩ =>
    let e : Element := ⟨kind, name, enabled, properties, children⟩
    let path := pathUnder parent e.label
    ⟨path, above, e⟩ :: sitesAll path (e :: above) children

def sitesAll (parent : String) (above : List Element) : List Element → List Site
  | [] => []
  | e :: es => sitesBelow parent above e ++ sitesAll parent above es

end

/-- The sites of a plan. -/
def sites (e : Element) : List Site := e.sitesBelow "" []

/-- A label that is empty has an empty kind. -/
theorem kind_of_label_eq_empty {e : Element} (h : e.label = "") : e.kind = "" := by
  unfold label labelOf at h
  split at h
  · exact h
  · split_ifs at h
    · exact h
    · simp at h

theorem sitesBelow_eq (parent : String) (above : List Element) (e : Element) :
    e.sitesBelow parent above = ⟨pathUnder parent e.label, above, e⟩ ::
      sitesAll (pathUnder parent e.label) (e :: above) e.children := by
  cases e
  rw [sitesBelow]

mutual

/-- The sites are what a walk meets, with the same paths and in the same order. -/
theorem map_sitesBelow : (e : Element) → (parent : String) → (above : List Element) →
    (e.sitesBelow parent above).map (fun q => (q.path, q.element)) = e.walk parent
  | ⟨kind, name, enabled, properties, children⟩, parent, above => by
    simp only [sitesBelow, walk, List.map_cons, label, map_sitesAll children]

theorem map_sitesAll : (es : List Element) → (parent : String) → (above : List Element) →
    (sitesAll parent above es).map (fun q => (q.path, q.element)) = walkAll parent es
  | [], _, _ => by simp only [sitesAll, walkAll, List.map_nil]
  | e :: es, parent, above => by
    simp only [sitesAll, walkAll, List.map_append, map_sitesBelow e, map_sitesAll es]

end

mutual

/-- What stands above an element stands above all below it too, before the root is reached. -/
theorem above_of_mem_sitesBelow : (e : Element) → ∀ {parent : String} {above : List Element}
    {q : Site}, q ∈ e.sitesBelow parent above →
    ∃ between, q.element :: q.above = between ++ e :: above
  | ⟨kind, name, enabled, properties, children⟩, parent, above, q, hq => by
    rw [sitesBelow] at hq
    rcases List.mem_cons.mp hq with rfl | hq
    · exact ⟨[], rfl⟩
    · obtain ⟨c, -, between, hb⟩ := above_of_mem_sitesAll children hq
      exact ⟨between ++ [c], by rw [hb, List.append_assoc, List.singleton_append]⟩

theorem above_of_mem_sitesAll : (es : List Element) → ∀ {parent : String} {above : List Element}
    {q : Site}, q ∈ sitesAll parent above es →
    ∃ e ∈ es, ∃ between, q.element :: q.above = between ++ e :: above
  | [], parent, above, q, hq => by
    rw [sitesAll] at hq
    exact absurd hq List.not_mem_nil
  | e :: es, parent, above, q, hq => by
    rw [sitesAll] at hq
    rcases List.mem_append.mp hq with hq | hq
    · exact ⟨e, List.mem_cons_self, above_of_mem_sitesBelow e hq⟩
    · obtain ⟨f, hf, hb⟩ := above_of_mem_sitesAll es hq
      exact ⟨f, List.mem_cons_of_mem e hf, hb⟩

end

theorem mem_above_of_mem_sitesAll {es : List Element} {parent : String} {a : Element}
    {above : List Element} {q : Site} (hq : q ∈ sitesAll parent (a :: above) es) : a ∈ q.above := by
  obtain ⟨c, -, between, hb⟩ := above_of_mem_sitesAll es hq
  rcases List.append_eq_cons_iff.mp hb.symm with ⟨-, habove⟩ | ⟨rest, -, habove⟩
  · rw [← (List.cons.inj habove).2]
    exact List.mem_cons_self
  · rw [habove]
    exact List.mem_append_right _ (List.mem_cons_of_mem c List.mem_cons_self)

end Element

/-! ### What is reported -/

/-- The first member of a list with a property. -/
def IsFirst {α : Type} (P : α → Prop) (l : List α) (x : α) : Prop :=
  ∃ before behind, l = before ++ x :: behind ∧ P x ∧ ∀ y ∈ before, ¬ P y

namespace IsFirst

variable {α : Type} {P : α → Prop} {l : List α} {x : α}

theorem head (h : P x) : IsFirst P (x :: l) x := ⟨[], l, rfl, h, fun _ hy => absurd hy List.not_mem_nil⟩

theorem append_right (h : IsFirst P l x) (m : List α) : IsFirst P (l ++ m) x := by
  obtain ⟨before, behind, rfl, hx, hb⟩ := h
  exact ⟨before, behind ++ m, by simp, hx, hb⟩

theorem append_left {m : List α} (hm : ∀ y ∈ m, ¬ P y) (h : IsFirst P l x) :
    IsFirst P (m ++ l) x := by
  obtain ⟨before, behind, rfl, hx, hb⟩ := h
  refine ⟨m ++ before, behind, by simp, hx, fun y hy => ?_⟩
  rcases List.mem_append.mp hy with hy | hy
  · exact hm y hy
  · exact hb y hy

end IsFirst

/-- Goes through sites in their order: a value means that none of them is at fault, and a problem has
the path of the first that is. -/
structure Reports {α : Type} (atFault : Site → Prop) (qs : List Site) (x : Except Failure α) :
    Prop where
  value : ∀ a, x = .ok a → ∀ q ∈ qs, ¬ atFault q
  problem : ∀ p path, x = .error (.problem p path) → ∃ q, IsFirst atFault qs q ∧ path = some q.path

namespace Reports

variable {α β : Type} {atFault : Site → Prop} {qs rs : List Site}

theorem ok (h : ∀ q ∈ qs, ¬ atFault q) (a : α) : Reports atFault qs (.ok a : Except Failure α) :=
  ⟨fun _ _ => h, fun _ _ hp => nomatch hp⟩

theorem fault (f : Fault) : Reports atFault qs (.error (.fault f) : Except Failure α) :=
  ⟨fun _ h => (nomatch h), fun _ _ h => (nomatch h)⟩

/-- The problem of the first site, whatever comes behind it. -/
theorem first {q : Site} (h : atFault q) (p : Problem) :
    Reports atFault (q :: qs) (.error (.problem p (some q.path)) : Except Failure α) := by
  refine ⟨fun _ h => (nomatch h), fun p' path he => ?_⟩
  cases he
  exact ⟨q, .head h, rfl⟩

/-- Sites without fault in front change nothing. -/
theorem skip {x : Except Failure α} (h : ∀ q ∈ qs, ¬ atFault q) (hx : Reports atFault rs x) :
    Reports atFault (qs ++ rs) x := by
  refine ⟨fun a ha q hq => ?_, fun p path hp => ?_⟩
  · rcases List.mem_append.mp hq with hq | hq
    · exact h q hq
    · exact hx.value a ha q hq
  · obtain ⟨q, hq, hpath⟩ := hx.problem p path hp
    exact ⟨q, hq.append_left h, hpath⟩

theorem cons {q : Site} {x : Except Failure α} (h : ¬ atFault q) (hx : Reports atFault rs x) :
    Reports atFault (q :: rs) x :=
  skip (fun _ hq => List.mem_singleton.mp hq ▸ h) hx

/-- One computation after the other goes through the sites of both. -/
theorem bind {x : Except Failure α} {f : α → Except Failure β} (hx : Reports atFault qs x)
    (hf : ∀ a, x = .ok a → Reports atFault rs (f a)) : Reports atFault (qs ++ rs) (x >>= f) := by
  cases hc : x with
  | ok a => exact (hf a hc).skip (hx.value a hc)
  | error e =>
    refine ⟨fun _ h => (nomatch h), fun p path hp => ?_⟩
    rw [error_bind] at hp
    cases hp
    obtain ⟨q, hq, hpath⟩ := hx.problem p path hc
    exact ⟨q, hq.append_right rs, hpath⟩

/-- A value that is changed afterwards is reported like the one it was made of. -/
theorem map {x : Except Failure α} (hx : Reports atFault qs x) (f : α → Except Failure β)
    (hf : ∀ a, ∃ b, f a = .ok b) : Reports atFault qs (x >>= f) := by
  rw [← List.append_nil qs]
  refine hx.bind fun a _ => ?_
  obtain ⟨b, hb⟩ := hf a
  rw [hb]
  exact .ok (fun q hq => absurd hq List.not_mem_nil) b

/-- A path that is there already is kept. -/
theorem withPath {x : Except Failure α} (hx : Reports atFault qs x) (path : String) :
    Reports atFault qs (x.mapError (·.withPath path)) := by
  refine ⟨fun a ha => hx.value a (Element.mapError_eq_ok ha), fun p path' hp => ?_⟩
  cases hc : x with
  | ok a => rw [hc] at hp; cases hp
  | error e =>
    rw [hc] at hp
    cases e with
    | fault f => cases hp
    | problem p₀ path₀ =>
      obtain ⟨q, hq, rfl⟩ := hx.problem p₀ path₀ hc
      cases hp
      exact ⟨q, hq, rfl⟩

end Reports

end FluentPlan
