import FluentPlan.Proofs.Assembly.Children
import FluentPlan.Proofs.Assembly.Head
import FluentPlan.Proofs.Code.Agreement

/-!
What becomes of the elements of a plan. Each has one call, below the call of its parent, unless it is
left out, or stands below one that is left out or has no effect: an element without effect takes all
below it along, whether its signature accepts children or not.
-/

namespace FluentPlan

open Element

/-- How the call of an element is made up. An element without effect has an empty call and none below
it. For any other, each child that is not left out has one call, either as a child of the element's own
call or in a call chained to it; the other calls that are chained belong to modifiers and have no calls
below them. -/
inductive Stands (r : Registry) (o : Options) : Element → Call → Prop
  | silent {e : Element} {s : Signature} (hs : r.resolve? e = .ok s)
    (ho : ownCall o s e = .ok none) : Stands r o e (.empty s.category)
  | spoken {e : Element} {s : Signature} {head : CallHead} {chain kids ordered : List Call} {c : Call}
    (hs : r.resolve? e = .ok s) (ho : ownCall o s e = .ok (some (head, chain)))
    (hm : ∀ l ∈ chain, l.children = [] ∧ l.chain = [])
    (hk : List.Forall₂ (Stands r o) (o.kept e.children) kids) (hp : ordered.Perm kids)
    (hc : c = ⟨head, ordered, chain⟩ ∨ c = ⟨head, [], chain ++ [.chainedChildren ordered]⟩) :
    Stands r o e c

namespace Element

variable {r : Registry} {o : Options}

/-- The calls of modifiers have no calls below them. -/
theorem nothing_below_of_ownCall {s : Signature} {e : Element} {head : CallHead}
    {chain : List Call} (h : ownCall o s e = .ok (some (head, chain))) :
    ∀ l ∈ chain, l.children = [] ∧ l.chain = [] := by
  intro l hl
  obtain ⟨values, -, ⟨-, -, hnone⟩ | ⟨-, calls, hcalls, hsome⟩⟩ := ownCall_eq_ok h
  · cases hnone
  · cases hsome
    obtain ⟨cs, hcs, hl⟩ := List.mem_flatten.mp hl
    obtain ⟨m, -, hm⟩ := exists_of_forall₂ hcalls hcs
    obtain ⟨args, rfl, -⟩ := exists_chained_of_modifierCalls hm hl
    exact ⟨rfl, rfl⟩

/-- An element with an effect stands in the calls that it was assembled from. -/
theorem stands_withChildren {s : Signature} {e : Element} (hs : r.resolve? e = .ok s)
    {head : CallHead} {chain : List Call} (ho : ownCall o s e = .ok (some (head, chain)))
    {calls : List Call} (hk : List.Forall₂ (Stands r o) (o.kept e.children) calls) :
    Stands r o e (withChildren o s head chain calls) := by
  have hm := nothing_below_of_ownCall ho
  have hp : (Call.order o.categories calls).Perm calls := orderBy_perm _ _ _
  rcases withChildren_cases o s head chain calls with ⟨rfl, hw⟩ | ⟨-, hw⟩ | ⟨-, -, hw⟩
  · exact .spoken hs ho hm hk .nil (.inl hw)
  · exact .spoken hs ho hm hk hp (.inr hw)
  · exact .spoken hs ho hm hk hp (.inl hw)

mutual

theorem stands_assemble : (e : Element) → ∀ {path : String} {c : Call},
    (assemble r o path e).outcome = .ok c → Stands r o e c
  | ⟨kind, name, enabled, properties, children⟩ => by
    intro h
    obtain ⟨s, hs, ⟨ho, rfl⟩ | ⟨head, chain, calls, ho, hcalls, rfl⟩⟩ := assemble_eq_ok h
    · exact .silent hs ho
    · exact stands_withChildren hs ho (stands_assembleAll children hcalls)

theorem stands_assembleAll {s : Signature} : (es : List Element) → ∀ {path : String}
    {calls : List Call}, (assembleAll r o s path es).outcome = .ok calls →
    List.Forall₂ (Stands r o) (o.kept es) calls
  | [] => by
    intro h
    cases h
    exact .nil
  | e :: es => by
    intro h
    rcases assembleAll_cons_eq_ok h with ⟨hd, h⟩ | ⟨hd, -, c, cs, hc, hcs, rfl⟩
    · rw [Options.kept_cons_of_drops hd]
      exact stands_assembleAll es h
    · rw [Options.kept_cons hd]
      exact .cons (stands_assemble e hc) (stands_assembleAll es hcs)

end

end Element

/-- The code of a plan is that of a call in which every element stands once, below the call of its
parent, but those that are left out, and those below an element that is left out or has no effect. -/
theorem stands_of_run {c : Conversion} (hh : c.options.hoist = false) {e : Element} {base : String}
    {g : Generated} (hg : (c.run e base).2.outcome = .ok g) :
    ∃ root, (e.assemble c.registry c.options e.label).outcome = .ok root ∧
      g = .ofCall ⟨c.options.indent.toList, c.options.textBlocks⟩ base.toList root [] ∧
      Stands c.registry c.options e root := by
  obtain ⟨-, root, hroot, hgen⟩ := Conversion.exists_root_of_run hg
  obtain ⟨-, hcode⟩ := Call.generate_eq_ok hh hgen
  exact ⟨root, hroot, hcode, e.stands_assemble hroot⟩

/-! ### An element that is lost -/

open Catalog.Configuration (constantTimer)
open Catalog.Plan (testPlan)
open Catalog.Processor (debugPostProcessor)

/-- A processor without anything to say but that it is there. -/
def debugger : Element := ⟨"DebugPostProcessor", none, true, .empty, []⟩

/-- A timer that does not wait, with a processor below it. -/
def idleTimer : Element := ⟨"ConstantTimer", none, true, .empty, [debugger]⟩

theorem resolve?_debugger : Registry.standard.resolve? debugger = .ok debugPostProcessor :=
  Registry.resolve?_of_first rfl rfl rfl

theorem resolve?_idleTimer : Registry.standard.resolve? idleTimer = .ok constantTimer :=
  Registry.resolve?_of_first rfl rfl rfl

theorem resolve_idleTimer (o : Options) (path : String) :
    (idleTimer.resolve .standard o path).outcome = .ok () :=
  resolve_of_resolve? resolve?_idleTimer
    ((resolveAll_cons_eq_ok_iff rfl).mpr ⟨resolve_of_resolve? resolve?_debugger rfl, rfl⟩)

theorem assemble_idleTimer (o : Options) (path : String) :
    (idleTimer.assemble .standard o path).outcome = .ok (.empty "timer") :=
  assemble_of_ownCall_none resolve?_idleTimer (by rfl)

/-- Below a timer that does not wait, a processor that is enabled is lost: none of the calls of the plan
is the processor's, though it has one of its own, and the conversion does not fail. -/
theorem exists_child_lost :
    let o : Options := { hoist := false }
    let e : Element := ⟨"TestPlan", none, true, .empty, [idleTimer]⟩
    ∃ (g : Generated) (root : Call) (head : CallHead),
      ((⟨.standard, o, .idle, none⟩ : Conversion).run e "").2.outcome = .ok g ∧
      g.code = "testPlan()" ∧ (e.assemble .standard o e.label).outcome = .ok root ∧
      o.drops idleTimer = false ∧ o.drops debugger = false ∧
      ownCall o debugPostProcessor debugger = .ok (some (head, [])) ∧
      ∀ d ∈ root.walk, d.head.method ≠ head.method := by
  intro o e
  let root : Call := ⟨ownHead o testPlan e [.children], [.empty "timer"], []⟩
  let g : Generated := .ofCall ⟨o.indent.toList, o.textBlocks⟩ "".toList root []
  have he : Registry.standard.resolve? e = .ok testPlan := Registry.resolve?_of_first rfl rfl rfl
  have hres : (e.resolve .standard o e.label).outcome = .ok () :=
    resolve_of_resolve? he ((resolveAll_cons_eq_ok_iff rfl).mpr ⟨resolve_idleTimer o _, rfl⟩)
  have hroot : (e.assemble .standard o e.label).outcome = .ok root := by
    have horder : Call.order o.categories [.empty "timer"] = [.empty "timer"] :=
      List.mergeSort_singleton _
    rw [assemble_of_ownCall he (by rfl)
      (assembleAll_cons_of_assemble rfl rfl (assemble_idleTimer o _) (by rfl))]
    unfold withChildren attach
    rw [horder]
    rfl
  have hcode : g.code = "testPlan()" := by
    have hcall : root.code ⟨o.indent.toList, o.textBlocks⟩ "".toList false true =
        "testPlan()".toList := by
      subst root e o
      decide +kernel
    exact (congrArg String.ofList hcall).trans rfl
  have hwalk : ∀ d ∈ root.walk, d.head.method ≠ debugPostProcessor.method := by
    intro d hd
    simp only [root, Call.walk, Call.walkAll_cons, Call.walk_empty, Call.walkAll_nil, List.append_nil,
      List.mem_cons, List.not_mem_nil, or_false] at hd
    rcases hd with rfl | rfl <;> decide
  exact ⟨g, root, ownHead o debugPostProcessor debugger [],
    Conversion.run_of_generate rfl hres hroot (by rfl), hcode, hroot, rfl, rfl, by rfl, hwalk⟩

/-- A plan with the timer and with a processor that stands beside it. -/
theorem stands_of_run_idleTimer :
    let o : Options := { hoist := false }
    let e : Element := ⟨"TestPlan", none, true, .empty, [idleTimer, debugger]⟩
    let root : Call := ⟨ownHead o testPlan e [.children],
      [.empty "timer", ⟨ownHead o debugPostProcessor debugger [], [], []⟩], []⟩
    let g : Generated := .ofCall ⟨o.indent.toList, o.textBlocks⟩ "".toList root []
    let c : Conversion := ⟨.standard, o, .idle, none⟩
    (c.options.hoist = false ∧ (c.run e "").2.outcome = .ok g) ∧
      ∃ root, (e.assemble c.registry c.options e.label).outcome = .ok root ∧
        g = .ofCall ⟨c.options.indent.toList, c.options.textBlocks⟩ "".toList root [] ∧
        Stands c.registry c.options e root := by
  intro o e root g c
  have he : Registry.standard.resolve? e = .ok testPlan := Registry.resolve?_of_first rfl rfl rfl
  have hdebugger (path : String) : (debugger.assemble .standard o path).outcome =
      .ok ⟨ownHead o debugPostProcessor debugger [], [], []⟩ :=
    assemble_of_ownCall resolve?_debugger (by rfl) (by rfl)
  have hroot : (e.assemble .standard o e.label).outcome = .ok root := by
    have horder : Call.order o.categories root.children = root.children :=
      List.mergeSort_of_pairwise (by simp [root, Call.empty, ownHead]; decide)
    rw [assemble_of_ownCall he (by rfl) (assembleAll_cons_of_assemble rfl rfl (assemble_idleTimer o _)
      (assembleAll_cons_of_assemble rfl rfl (hdebugger _) (by rfl)))]
    unfold withChildren attach
    rw [horder]
    rfl
  have hres : (e.resolve .standard o e.label).outcome = .ok () :=
    resolve_of_resolve? he ((resolveAll_cons_eq_ok_iff rfl).mpr ⟨resolve_idleTimer o _,
      (resolveAll_cons_eq_ok_iff rfl).mpr ⟨resolve_of_resolve? resolve?_debugger rfl, rfl⟩⟩)
  have hrun : (c.run e "").2.outcome = .ok g := Conversion.run_of_generate rfl hres hroot (by rfl)
  exact ⟨⟨rfl, hrun⟩, stands_of_run rfl hrun⟩

end FluentPlan
