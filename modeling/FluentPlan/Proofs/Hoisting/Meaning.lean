import FluentPlan.Catalog.Builtin
import FluentPlan.Proofs.Assembly.Head
import FluentPlan.Proofs.Hoisting.Expansion

/-!
Hoisting keeps what a plan means: the call that is left, with the bodies of the helper methods put
back, has the key of the call that was assembled.
-/

namespace FluentPlan

open Call

/-- There is no reference in the call that reconstructs an element. -/
theorem Element.plain_assemble {r : Registry} {o : Options} {path : String} {e : Element} {c : Call}
    (h : (e.assemble r o path).outcome = .ok c) : c.Plain := by
  have hp : HoldsOfHeads r o (·.role ≠ .reference) := {
    empty := fun _ => nofun
    place := fun _ => nofun
    own := fun _ _ _ _ _ => nofun
    link := by
      intro s _ m _ e cs hcs c hc
      obtain ⟨args, rfl, -⟩ := exists_chained_of_modifierCalls hcs hc
      exact nofun }
  intro d hd
  simpa [isReference] using forall_head_assemble hp e h d hd

open Helper

/-- Hoisting ends where no call repeats. Each reference then names one helper method, none of these
reaches itself, and with their bodies in place of the references the call has the key that it had. -/
theorem hoist_assemble {r : Registry} {o : Options} {path : String} {e : Element} {root : Call}
    (h : (e.assemble r o path).outcome = .ok root) :
    ∃ (root' : Call) (helpers : List Helper), root.hoist.outcome = .ok (root', helpers) ∧
      (((root' :: helpers.map (·.body)).flatMap candidates).map key).Nodup ∧
      (helpers.map (·.name)).Nodup ∧
      (∀ c ∈ root' :: helpers.map (·.body), ∀ d ∈ c.walk, d.isReference = true →
        ∃! f, f ∈ helpers ∧ f.name = d.head.method) ∧
      (WellFounded fun b a => Refers helpers a b) ∧
      (∀ a, ¬ Relation.TransGen (Refers helpers) a a) ∧
      ∃ full : Call, (∀ depth, helpers.length ≤ depth → expand helpers depth root' = full) ∧
        (∀ d ∈ full.walk, d.isReference = false) ∧ full.key = root.key := by
  have hstart : Hoisting.Sound root.key (fun _ => root.key) (.start root) :=
    Hoisting.sound_start _ (Element.plain_assemble h)
  have hplaces : ((Hoisting.start root).roots.flatMap candidates).length =
      root.candidates.length := by simp [Hoisting.roots, Hoisting.start]
  obtain ⟨t, ρ, hrun, hsound, hpick⟩ := Hoisting.run_sound hstart (Nat.le_of_eq hplaces)
  have hout : root.hoist.outcome = .ok (t.root, t.helpers) := by
    rw [hoist, Logged.outcome_bind, hrun]
    rfl
  have hroot : t.root ∈ t.roots := List.mem_cons_self
  obtain ⟨hfull, hkey⟩ := Hoisting.expand_spec hsound hroot fun d _ _ => t.rank_le ρ d.head.method
  exact ⟨t.root, t.helpers, hout, nodup_of_pick hpick, hsound.nodup,
    fun c hc d hd hr => Hoisting.existsUnique_helper hsound hc hd hr,
    Hoisting.wellFounded_refers hsound, Hoisting.not_reaches_self hsound,
    expand t.helpers t.helpers.length t.root,
    fun depth hdepth => Hoisting.expand_eq hsound hroot hdepth, hfull, hkey.trans hsound.root⟩

/-- Two equal groups below a plan become one helper method. -/
theorem hoist_assemble_logIn :
    let o : Options := {}
    let once : Element := ⟨"OnceOnlyController", none, true, .empty, []⟩
    let group : Element := ⟨"GenericController", some "Log In", true, .empty, [once]⟩
    let e : Element := ⟨"TestPlan", none, true, .empty, [group, group]⟩
    let inner : Call :=
      ⟨Element.ownHead o Catalog.Controller.onceOnlyController once [.children], [], []⟩
    let outer : Call := ⟨Element.ownHead o Catalog.Controller.simpleController group
      [.scalar (.name "Simple Controller") (some (.text "Log In")), .children], [inner], []⟩
    let root : Call :=
      ⟨Element.ownHead o Catalog.Plan.testPlan e [.children], [outer, outer], []⟩
    (e.assemble .standard o e.label).outcome = .ok root ∧
      ∃ (root' : Call) (helpers : List Helper), root.hoist.outcome = .ok (root', helpers) ∧
        helpers.map (·.name) = ["logIn"] ∧ (expand helpers 1 root').key = root.key := by
  intro o once group e inner outer root
  have honce : Registry.standard.resolve? once = .ok Catalog.Controller.onceOnlyController :=
    Registry.resolve?_of_first rfl rfl rfl
  have hgroup : Registry.standard.resolve? group = .ok Catalog.Controller.simpleController :=
    Registry.resolve?_of_first rfl rfl rfl
  have he : Registry.standard.resolve? e = .ok Catalog.Plan.testPlan :=
    Registry.resolve?_of_first rfl rfl rfl
  have hinner (path : String) : (once.assemble .standard o path).outcome = .ok inner :=
    Element.assemble_of_ownCall honce (by rfl) (by rfl)
  have houter (path : String) : (group.assemble .standard o path).outcome = .ok outer := by
    have horder : Call.order o.categories [inner] = [inner] := List.mergeSort_singleton inner
    rw [Element.assemble_of_ownCall hgroup (by rfl)
      (Element.assembleAll_cons_of_assemble rfl rfl (hinner _) (by rfl))]
    unfold Element.withChildren Element.attach
    rw [horder]
    rfl
  have hroot : (e.assemble .standard o e.label).outcome = .ok root := by
    have horder : Call.order o.categories [outer, outer] = [outer, outer] :=
      List.mergeSort_of_pairwise (by simp)
    rw [Element.assemble_of_ownCall he (by rfl)
      (Element.assembleAll_cons_of_assemble rfl rfl (houter _)
        (Element.assembleAll_cons_of_assemble rfl rfl (houter _) (by rfl)))]
    unfold Element.withChildren Element.attach
    rw [horder]
    rfl
  have hnames : (root.hoist.outcome.toOption.map fun x => x.2.map (·.name)) = some ["logIn"] := by
    decide
  obtain ⟨root', helpers, hout, -, -, -, -, -, full, hfull, -, hkey⟩ := hoist_assemble hroot
  rw [hout] at hnames
  have hone : helpers.map (·.name) = ["logIn"] := Option.some.inj hnames
  have hlen : helpers.length = 1 := by simpa using congrArg List.length hone
  exact ⟨hroot, root', helpers, hout, hone, by rw [hfull 1 (by omega), hkey]⟩

end FluentPlan
