import Mathlib
import FluentPlan.Proofs.Building.Resolution
import FluentPlan.Proofs.Fault.Building

/-!
Where the nodes of a built tree come from. Each node was made by the signature that took some call of
the code, perhaps in the body of a helper method, and its children by the calls that stand in that call
as children. Every node resolves to the signature that made it.
-/

namespace FluentPlan

open Build Script

namespace Build

/-! ### Scopes -/

/-- What evaluation knows inside the bodies of the helper methods on `stack`. -/
def scopeIn (r : Registry) (p : Program) : (depth : Nat) → (stack : List String) → Scope
  | 0, stack => ⟨r, p, stack, fun d => .fail (problem (.recursive d.line (stack ++ [d.name])))⟩
  | depth + 1, stack => ⟨r, p, stack, fun d => evaluateIn r p depth (stack ++ [d.name]) d.body⟩

theorem evaluateIn_eq (r : Registry) (p : Program) (depth : Nat) (stack : List String) (x : Expr) :
    evaluateIn r p depth stack x = evaluate (scopeIn r p depth stack) x := by
  cases depth <;> rfl

@[simp] theorem registry_scopeIn (r : Registry) (p : Program) (depth : Nat) (stack : List String) :
    (scopeIn r p depth stack).registry = r := by
  cases depth <;> rfl

@[simp] theorem program_scopeIn (r : Registry) (p : Program) (depth : Nat) (stack : List String) :
    (scopeIn r p depth stack).program = p := by
  cases depth <;> rfl

@[simp] theorem stack_scopeIn (r : Registry) (p : Program) (depth : Nat) (stack : List String) :
    (scopeIn r p depth stack).stack = stack := by
  cases depth <;> rfl

/-! ### Origins -/

/-- The signatures that made the nodes of a tree, each at the place of its node. -/
inductive Origin where
  | node (signature : Signature) (children : List Origin)

/-- The arguments of the calls that are chained for children. -/
def chainedChildren {α : Type} (chain : List (Invocation α)) : List α :=
  (chain.filter fun c => c.name = childrenMethod).flatMap (·.args)

mutual

/-- What an expression builds, inside the bodies of the helper methods on `stack`, and which signatures
made the nodes. The call of a helper method builds what its body builds. -/
inductive Creates (r : Registry) (p : Program) :
    (depth : Nat) → (stack : List String) → Expr → Element → Origin → Prop
  | helper {depth : Nat} {stack : List String} {pos : Position} {name : String} {d : Definition}
    {e : Element} {t : Origin} (hd : p.definition? name = some d) (hs : stack.contains name = false)
    (h : Creates r p depth (stack ++ [d.name]) d.body e t) :
    Creates r p (depth + 1) stack (.call ⟨pos, name, []⟩ []) e t
  | call {depth : Nat} {stack : List String} {pos : Position} {name : String} {args : List Expr}
    {chain : List (Invocation Expr)} {leading : List Expr} {children : List Operand} {s : Signature}
    {e : Element} {ts : List Origin} (hd : p.definition? name = none)
    (ha : divide (operands (scopeIn r p depth stack) args) = .ok (leading, children))
    (hm : (makeCall r ⟨pos, name, operands (scopeIn r p depth stack) args⟩
      (invocations (scopeIn r p depth stack) chain)).outcome = .ok (s, e))
    (hc : CreatesAll r p depth stack (children.map (·.expr) ++ chainedChildren chain) e.children ts) :
    Creates r p depth stack (.call ⟨pos, name, args⟩ chain) e (.node s ts)

inductive CreatesAll (r : Registry) (p : Program) :
    (depth : Nat) → (stack : List String) → List Expr → List Element → List Origin → Prop
  | nil {depth : Nat} {stack : List String} : CreatesAll r p depth stack [] [] []
  | cons {depth : Nat} {stack : List String} {x : Expr} {xs : List Expr} {e : Element}
    {es : List Element} {t : Origin} {ts : List Origin} (h : Creates r p depth stack x e t)
    (hs : CreatesAll r p depth stack xs es ts) :
    CreatesAll r p depth stack (x :: xs) (e :: es) (t :: ts)

end

mutual

/-- Whether each node of a tree resolves to the signature at its place. -/
inductive Resolves (r : Registry) : Element → Origin → Prop
  | node {e : Element} {s : Signature} {ts : List Origin} (h : r.resolve? e = .ok s)
    (hc : ResolvesAll r e.children ts) : Resolves r e (.node s ts)

inductive ResolvesAll (r : Registry) : List Element → List Origin → Prop
  | nil : ResolvesAll r [] []
  | cons {e : Element} {es : List Element} {t : Origin} {ts : List Origin} (h : Resolves r e t)
    (hs : ResolvesAll r es ts) : ResolvesAll r (e :: es) (t :: ts)

end

mutual

/-- Nodes resolve to the signatures that made them. -/
theorem Creates.resolves {p : Program} {depth : Nat} {stack : List String} {x : Expr} {e : Element}
    {t : Origin} : Creates .standard p depth stack x e t → Resolves .standard e t
  | .helper _ _ h => h.resolves
  | .call _ _ hm hc => .node (resolve?_of_makeCall hm) hc.resolves

theorem CreatesAll.resolves {p : Program} {depth : Nat} {stack : List String} {xs : List Expr}
    {es : List Element} {ts : List Origin} :
    CreatesAll .standard p depth stack xs es ts → ResolvesAll .standard es ts
  | .nil => .nil
  | .cons h hs => .cons h.resolves hs.resolves

end

/-! ### What evaluation creates -/

/-- What an expression is said to build, its evaluation comes to. -/
theorem Creates.outcome_evaluateIn {r : Registry} {p : Program} {depth : Nat} {stack : List String}
    {x : Expr} {e : Element} {t : Origin} (h : Creates r p depth stack x e t) :
    (evaluateIn r p depth stack x).outcome = .ok e := by
  induction depth using Nat.strongRecOn generalizing stack x with | _ depth ih
  cases h with
  | helper hd hs h =>
    rw [Build.evaluateIn_eq, evaluate, operands, invocations]
    simp only [Scope.call, program_scopeIn, stack_scopeIn, hd, hs, List.isEmpty_nil, Bool.not_true,
      Bool.or_self, Bool.false_eq_true, if_false]
    exact ih _ (Nat.lt_succ_self _) h
  | call hd _ hm _ =>
    rw [Build.evaluateIn_eq, evaluate]
    simp only [Scope.call, program_scopeIn, registry_scopeIn, hd, ofCall, Logged.outcome_bind, hm]
    rfl

section

variable {s : Scope}

theorem chainedChildren_invocations (cs : List (Invocation Expr)) :
    chainedChildren (invocations s cs) = operands s (chainedChildren cs) := by
  unfold chainedChildren
  induction cs with
  | nil => rw [invocations, List.filter_nil, List.flatMap_nil, List.filter_nil, List.flatMap_nil,
      operands]
  | cons c cs ih =>
    obtain ⟨pos, name, args⟩ := c
    rw [invocations]
    by_cases hn : name = childrenMethod
    · rw [List.filter_cons_of_pos (by simpa using hn), List.filter_cons_of_pos (by simpa using hn),
        List.flatMap_cons, List.flatMap_cons, ih, operands_eq_map, operands_eq_map, operands_eq_map,
        List.map_append]
    · rw [List.filter_cons_of_neg (by simpa using hn), List.filter_cons_of_neg (by simpa using hn), ih]

theorem elements_applyChain {u : Signature} {cs : List (Invocation Operand)} {d : Draft}
    {made : Draft × List Element} (h : (applyChain u cs d).outcome = .ok made) :
    (elements (chainedChildren cs)).outcome = .ok made.2 := by
  unfold chainedChildren
  induction cs generalizing d made with
  | nil =>
    cases h
    rfl
  | cons c cs ih =>
    unfold applyChain at h
    split_ifs at h with hn
    · rw [Logged.outcome_bind] at h
      obtain ⟨es, hes, h⟩ := exists_of_bind_eq_ok h
      rw [Logged.outcome_bind] at h
      obtain ⟨rest, hrest, h⟩ := exists_of_bind_eq_ok h
      cases h
      rw [List.filter_cons_of_pos (by simpa using hn), List.flatMap_cons]
      exact elements_append hes (ih hrest)
    · simp only [Logged.outcome_bind, Logged.outcome_ofExcept] at h
      obtain ⟨m, -, h⟩ := exists_of_bind_eq_ok h
      obtain ⟨mid, -, h⟩ := exists_of_bind_eq_ok h
      rw [List.filter_cons_of_neg (by simpa using hn)]
      exact ih h

theorem elements_of_makes {u : Signature} {line : Nat} {name : String} {leading : List Expr}
    {children : List Operand} {chain : List (Invocation Operand)} {e : Element}
    (h : Makes u line name leading children chain e) :
    (elements (children ++ chainedChildren chain)).outcome = .ok e.children := by
  obtain ⟨values, -, hmade⟩ := h.values
  obtain ⟨_, _, _, _, _, _, hfirst, hchain, _, rfl⟩ := exists_of_construct hmade
  exact elements_append hfirst (elements_applyChain hchain)

/-- A call without operands and invocations has no arguments and none chained to it. -/
theorem eq_nil_of_plain {args : List Expr} {chain : List (Invocation Expr)}
    (h : ¬ (!(operands s args).isEmpty || !(invocations s chain).isEmpty) = true) :
    args = [] ∧ chain = [] := by
  rw [operands_eq_map, invocations_eq_map] at h
  simpa only [Bool.or_eq_true, Bool.not_eq_true', not_or, Bool.not_eq_false, List.isEmpty_iff,
    List.map_eq_nil_iff] using h

/-- The children of a call are among its arguments. -/
theorem operands_of_divide {args : List Expr} {leading : List Expr} {children : List Operand}
    (h : divide (operands s args) = .ok (leading, children)) :
    children = operands s (children.map (·.expr)) ∧ ∀ a ∈ children, a.expr ∈ args := by
  have hmem : ∀ a ∈ children, ∃ x ∈ args, a = ⟨x, fun _ => evaluate s x⟩ := by
    intro a ha
    have ha : a ∈ operands s args := mem_of_divide h ha
    rw [operands_eq_map] at ha
    obtain ⟨x, hx, rfl⟩ := List.mem_map.mp ha
    exact ⟨x, hx, rfl⟩
  constructor
  · have hself : children.map (fun a => (⟨a.expr, fun _ => evaluate s a.expr⟩ : Operand)) =
        children.map id := by
      refine List.map_congr_left fun a ha => ?_
      obtain ⟨x, -, rfl⟩ := hmem a ha
      rfl
    rw [operands_eq_map, List.map_map]
    exact (hself.trans (List.map_id children)).symm
  · intro a ha
    obtain ⟨x, hx, rfl⟩ := hmem a ha
    exact hx

end

section

variable {r : Registry} {p : Program} {depth : Nat} {stack : List String}

/-- Whether whatever an expression builds is created. -/
def IsCreated (r : Registry) (p : Program) (depth : Nat) (stack : List String) (x : Expr) : Prop :=
  ∀ e, (evaluate (scopeIn r p depth stack) x).outcome = .ok e → ∃ t, Creates r p depth stack x e t

theorem exists_createsAll {xs : List Expr} (hx : ∀ x ∈ xs, IsCreated r p depth stack x)
    {es : List Element} (h : (elements (operands (scopeIn r p depth stack) xs)).outcome = .ok es) :
    ∃ ts, CreatesAll r p depth stack xs es ts := by
  induction xs generalizing es with
  | nil =>
    cases h
    exact ⟨[], .nil⟩
  | cons x xs ih =>
    simp only [operands, elements, Logged.outcome_bind] at h
    obtain ⟨e, he, h⟩ := exists_of_bind_eq_ok h
    obtain ⟨es', hes, h⟩ := exists_of_bind_eq_ok h
    cases h
    obtain ⟨t, ht⟩ := hx x List.mem_cons_self e he
    obtain ⟨ts, hts⟩ := ih (fun y hy => hx y (List.mem_cons_of_mem x hy)) hes
    exact ⟨t :: ts, .cons ht hts⟩

/-- Whether the body of each helper method creates what its call builds. -/
def ExpandsCreated (r : Registry) (p : Program) (depth : Nat) (stack : List String) : Prop :=
  ∀ d e, ((scopeIn r p depth stack).expand d).outcome = .ok e →
    ∃ n t, depth = n + 1 ∧ Creates r p n (stack ++ [d.name]) d.body e t

/-- What a call builds is created, if that holds of its arguments and of the bodies of helper methods. -/
theorem isCreated_call (hbody : ExpandsCreated r p depth stack) {pos : Position} {name : String} {args : List Expr}
    (ha : ∀ x ∈ args, IsCreated r p depth stack x) {chain : List (Invocation Expr)}
    (hc : ∀ c ∈ chain, ∀ x ∈ c.args, IsCreated r p depth stack x) :
    IsCreated r p depth stack (.call ⟨pos, name, args⟩ chain) := by
  intro e h
  rw [evaluate, Scope.call, program_scopeIn] at h
  split at h
  · next d hd =>
    split_ifs at h with hplain hstack
    · cases h
    · cases h
    · obtain ⟨n, t, rfl, ht⟩ := hbody d e h
      rw [stack_scopeIn, Bool.not_eq_true] at hstack
      obtain ⟨rfl, rfl⟩ := eq_nil_of_plain hplain
      exact ⟨t, .helper hd hstack ht⟩
  · next hd =>
    rw [registry_scopeIn] at h
    obtain ⟨s, hmade⟩ := exists_makeCall_of_ofCall h
    obtain ⟨-, leading, children, hdiv, hmakes⟩ := makes_of_makeCall hmade
    obtain ⟨hchildren, hmem⟩ := operands_of_divide hdiv
    have hes := elements_of_makes hmakes
    rw [chainedChildren_invocations, hchildren] at hes
    rw [operands_eq_map, operands_eq_map, ← List.map_append, ← operands_eq_map] at hes
    have hkids : ∀ x ∈ children.map (·.expr) ++ chainedChildren chain,
        IsCreated r p depth stack x := by
      intro x hx
      rcases List.mem_append.mp hx with hx | hx
      · obtain ⟨a, ha', rfl⟩ := List.mem_map.mp hx
        exact ha _ (hmem a ha')
      · obtain ⟨c, hc', hx⟩ := List.mem_flatMap.mp hx
        exact hc c (List.mem_of_mem_filter hc') x hx
    obtain ⟨ts, hts⟩ := exists_createsAll hkids hes
    exact ⟨.node s ts, .call hd hdiv hmade hts⟩

mutual

theorem isCreated (h : ExpandsCreated r p depth stack) : (x : Expr) → IsCreated r p depth stack x
  | .call ⟨_, _, args⟩ chain => isCreated_call h (isCreated_args h args) (isCreated_chain h chain)
  | .text .. | .number .. | .bool .. | .null _ | .name .. => nofun

theorem isCreated_args (h : ExpandsCreated r p depth stack) :
    (xs : List Expr) → ∀ x ∈ xs, IsCreated r p depth stack x
  | [] => fun _ hx => absurd hx List.not_mem_nil
  | x :: xs => List.forall_mem_cons.mpr ⟨isCreated h x, isCreated_args h xs⟩

theorem isCreated_chain (h : ExpandsCreated r p depth stack) : (cs : List (Invocation Expr)) →
    ∀ c ∈ cs, ∀ x ∈ c.args, IsCreated r p depth stack x
  | [] => fun _ hc => absurd hc List.not_mem_nil
  | ⟨_, _, args⟩ :: cs => List.forall_mem_cons.mpr ⟨isCreated_args h args, isCreated_chain h cs⟩

end

/-- What an expression builds is created. -/
theorem exists_creates (r : Registry) (p : Program) (depth : Nat) (stack : List String) {x : Expr}
    {e : Element} (h : (evaluateIn r p depth stack x).outcome = .ok e) :
    ∃ t, Creates r p depth stack x e t := by
  induction depth generalizing stack x e with
  | zero => exact isCreated (fun d e hd => by cases hd) x e h
  | succ depth ih =>
    refine isCreated (fun d e hd => ?_) x e (Build.evaluateIn_eq .. ▸ h)
    obtain ⟨t, ht⟩ := ih (stack ++ [d.name]) hd
    exact ⟨depth, t, rfl, ht⟩

end

end Build

/-- What a source text builds was created by signatures, one for each node, and every node resolves to
the one that made it. -/
theorem Element.resolves_of_ofSource {source : String} {e : Element}
    (h : (Element.ofSource .standard source).outcome = .ok e) :
    ∃ p, parse source = .ok p ∧
      (∃ t, Build.Creates .standard p p.definitions.length [] p.expr e t) ∧
      ∀ t, Build.Creates .standard p p.definitions.length [] p.expr e t →
        Build.Resolves .standard e t := by
  rw [ofSource, Logged.outcome_bind, Logged.outcome_ofExcept] at h
  obtain ⟨p, hp, h⟩ := exists_of_bind_eq_ok h
  exact ⟨p, hp, Build.exists_creates _ _ _ _ h, fun t ht => ht.resolves⟩

/-- A thread group in the body of a helper method, by the last form of its method. -/
theorem Element.resolves_of_ofSource_groupMethod :
    let source := "DslTestElement group() \x7b return threadGroup(2, 3); \x7d group()"
    let e : Element := ⟨"ThreadGroup", some "Thread Group", true, .ofList
      [("ThreadGroup.num_threads", "2"), (Catalog.Plan.loopCount, "3")], []⟩
    (Element.ofSource .standard source).outcome = .ok e ∧
      ∃ p, parse source = .ok p ∧
        (∃ t, Build.Creates .standard p p.definitions.length [] p.expr e t) ∧
        ∀ t, Build.Creates .standard p p.definitions.length [] p.expr e t →
          Build.Resolves .standard e t := by
  intro source e
  let body : Expr :=
    .call ⟨⟨1, 33⟩, "threadGroup", [.number ⟨1, 45⟩ "2", .number ⟨1, 48⟩ "3"]⟩ []
  let program : Program :=
    ⟨[⟨"group", "DslTestElement", body, 1⟩], .call ⟨⟨1, 54⟩, "group", []⟩ []⟩
  have hparse : parse source = .ok program := by
    subst source
    cbv
  have hgroup : (ofProgram .standard program).outcome = .ok e := by
    refine ofCall_of_makeCall (s := Catalog.Plan.threadGroup) (makeCall_of_forms Registry.forMethod_threadGroup
      (show _ = Except.ok ([.number ⟨1, 45⟩ "2", .number ⟨1, 48⟩ "3"], []) from rfl) ?_)
    rw [tryForms_of_refused _ _ _ _ rfl rfl, tryForms_of_refused _ _ _ _ rfl rfl,
      tryForms_of_refused _ _ _ _ rfl rfl]
    exact tryForms_of_met _ _ rfl rfl rfl ((Signature.unmet?_eq_none_iff _ _).mpr ⟨rfl, rfl⟩)
  have hbuilt : (Element.ofSource .standard source).outcome = .ok e :=
    (outcome_ofSource hparse).trans hgroup
  exact ⟨hbuilt, Element.resolves_of_ofSource hbuilt⟩

end FluentPlan
