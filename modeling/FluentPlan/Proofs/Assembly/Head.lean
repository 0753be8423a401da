import FluentPlan.Proofs.Assembly.Outcome
import FluentPlan.Proofs.Assembly.Walk

/-!
The heads of assembled calls. Each is that of an empty call, of an element's own call, of a call
chained by a modifier, or of the chained call that takes children; so what holds of these four holds
wherever a walk of the assembled call comes.
-/

namespace FluentPlan.Element

open Call

/-- A modifier chains calls of its method to arguments that it read. -/
theorem exists_chained_of_modifierCalls {e : Element} {m : Modifier} {cs : List Call}
    (h : modifierCalls e m = .ok cs) {c : Call} (hc : c ∈ cs) :
    ∃ args, c = .chained m.method args ∧
      ∀ a ∈ args, ∃ lead values, valuesOf e lead m.params = .ok values ∧ a ∈ argsOf values := by
  cases he : m.each with
  | some each =>
    rcases modifierCalls_each he h with ⟨-, rfl⟩ | ⟨-, found, -, hall⟩
    · cases hc
    · obtain ⟨i, -, values, hv, rfl⟩ := exists_of_forall₂ hall hc
      exact ⟨_, rfl, fun a ha => ⟨_, values, hv, ha⟩⟩
  | none =>
    rcases modifierCalls_single he h with ⟨-, rfl⟩ | ⟨-, values, hv, ⟨-, rfl⟩ | ⟨-, rfl⟩⟩
    · cases hc
    · cases hc
    · refine ⟨_, List.mem_singleton.mp hc, fun a ha => ⟨_, values, hv, ?_⟩⟩
      split_ifs at ha
      · cases ha
      · exact ha

theorem method_of_modifierCalls {e : Element} {m : Modifier} {cs : List Call}
    (h : modifierCalls e m = .ok cs) {c : Call} (hc : c ∈ cs) : c.head.method = m.method := by
  obtain ⟨args, rfl, -⟩ := exists_chained_of_modifierCalls h hc
  rfl

@[simp] theorem walk_chained (method : String) (args : List Arg) :
    (chained method args).walk = [chained method args] := by
  rw [walk_eq]
  simp [chained]

/-- A walk of a call with children meets its head, what is chained to it, what the children are made
of, and perhaps a chained call that takes them. -/
theorem mem_walk_withChildren {o : Options} {s : Signature} {head : CallHead}
    {chain calls : List Call} {d : Call} (hd : d ∈ (withChildren o s head chain calls).walk) :
    d.head = head ∨ (∃ l ∈ chain, d ∈ l.walk) ∨ (∃ k ∈ calls, d ∈ k.walk) ∨
      ∃ children, d = .chainedChildren children := by
  have horder {k : Call} (hk : k ∈ Call.order o.categories calls) : k ∈ calls :=
    (orderBy_perm _ _ _).mem_iff.mp hk
  rcases withChildren_cases o s head chain calls with ⟨-, he⟩ | ⟨-, he⟩ | ⟨-, -, he⟩ <;>
    rw [he, mem_walk_iff] at hd
  · rcases hd with rfl | ⟨k, hk, -⟩ | hd
    · exact .inl rfl
    · cases hk
    · exact .inr (.inl hd)
  · rcases hd with rfl | ⟨k, hk, -⟩ | ⟨l, hl, hd⟩
    · exact .inl rfl
    · cases hk
    · rcases List.mem_append.mp hl with hl | hl
      · exact .inr (.inl ⟨l, hl, hd⟩)
      · rw [List.mem_singleton.mp hl, mem_walk_iff] at hd
        rcases hd with rfl | ⟨k, hk, hd⟩ | ⟨l, hl, -⟩
        · exact .inr (.inr (.inr ⟨_, rfl⟩))
        · exact .inr (.inr (.inl ⟨k, horder hk, hd⟩))
        · cases hl
  · rcases hd with rfl | ⟨k, hk, hd⟩ | hd
    · exact .inl rfl
    · exact .inr (.inr (.inl ⟨k, horder hk, hd⟩))
    · exact .inr (.inl hd)

/-- What a property of heads has to hold of, to hold of all that are assembled. -/
structure HoldsOfHeads (r : Registry) (o : Options) (P : CallHead → Prop) : Prop where
  empty : ∀ category, P (Call.empty category).head
  place : ∀ children, P (chainedChildren children).head
  own : ∀ s ∈ r.signatures, ∀ e values, scalarValues s e = .ok values →
    P (ownHead o s e (placeArgs s.params values))
  link : ∀ s ∈ r.signatures, ∀ m ∈ s.modifiers, ∀ e cs, modifierCalls e m = .ok cs →
    ∀ c ∈ cs, P c.head

variable {r : Registry} {o : Options} {P : CallHead → Prop}

mutual

/-- What holds of all that assembly makes heads of holds of every head in the assembled call. -/
theorem forall_head_assemble (hp : HoldsOfHeads r o P) : (e : Element) → ∀ {path : String}
    {c : Call}, (assemble r o path e).outcome = .ok c → ∀ d ∈ c.walk, P d.head
  | ⟨kind, name, enabled, properties, children⟩ => by
    intro h d hd
    obtain ⟨s, hs, ⟨-, rfl⟩ | ⟨head, chain, calls, ho, hcalls, rfl⟩⟩ := assemble_eq_ok h
    · rw [walk_empty] at hd
      rw [List.mem_singleton.mp hd]
      exact hp.empty s.category
    · have hs := (Registry.resolve?_eq_ok hs).1
      obtain ⟨values, hv, ⟨-, -, hsome⟩ | ⟨-, links, hlinks, hsome⟩⟩ := ownCall_eq_ok ho
      · cases hsome
      · cases hsome
        rcases mem_walk_withChildren hd with he | ⟨l, hl, hd⟩ | ⟨k, hk, hd⟩ | ⟨children, rfl⟩
        · exact he ▸ hp.own s hs _ values hv
        · obtain ⟨cs, hcs, hl⟩ := List.mem_flatten.mp hl
          obtain ⟨m, hm, hcalls⟩ := exists_of_forall₂ hlinks hcs
          obtain ⟨args, rfl, -⟩ := exists_chained_of_modifierCalls hcalls hl
          rw [walk_chained, List.mem_singleton] at hd
          exact hd ▸ hp.link s hs m hm _ cs hcalls _ hl
        · exact forall_head_assembleAll hp children hcalls k hk d hd
        · exact hp.place children

theorem forall_head_assembleAll (hp : HoldsOfHeads r o P) {s : Signature} : (es : List Element) →
    ∀ {path : String} {calls : List Call}, (assembleAll r o s path es).outcome = .ok calls →
      ∀ c ∈ calls, ∀ d ∈ c.walk, P d.head
  | [] => by
    intro h c hc
    cases h
    cases hc
  | e :: es => by
    intro h
    rcases assembleAll_cons_eq_ok h with ⟨-, h⟩ | ⟨-, -, c, cs, hc, hcs, rfl⟩
    · exact forall_head_assembleAll hp es h
    · intro d hm
      rcases List.mem_cons.mp hm with rfl | hm
      · exact forall_head_assemble hp e hc
      · exact forall_head_assembleAll hp es hcs d hm

end

end FluentPlan.Element
