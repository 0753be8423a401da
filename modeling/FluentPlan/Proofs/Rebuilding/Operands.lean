import FluentPlan.Proofs.Assembly.Outcome
import FluentPlan.Proofs.Rebuilding.Evaluation

/-!
The code of a call taken apart. What evaluates as the call of an element has the arguments of the
element in front, the calls of its modifiers first in the chain, and the children that have an effect
either behind the arguments or in a last chained call.
-/

namespace FluentPlan

open Build Script Element

namespace Call

theorem childExprs_eq_map (cs : List Call) :
    childExprs cs = (cs.filter fun c => !c.isEmpty).map toExpr := by
  induction cs with
  | nil => rw [childExprs, List.filter_nil, List.map_nil]
  | cons c cs ih => cases hc : c.isEmpty <;> simp [childExprs, hc, ih]

/-- Chained calls of other methods than that for children are said one by one. -/
theorem chainExprs_append {cs : List Call} (h : ∀ c ∈ cs, c.head.method ≠ childrenMethod)
    (ds : List Call) : chainExprs (cs ++ ds) =
      cs.map (fun c => ⟨.start, c.head.method, c.argExprs⟩) ++ chainExprs ds := by
  induction cs with
  | nil => rfl
  | cons c cs ih =>
    obtain ⟨head, children, chain⟩ := c
    have hc : head.method ≠ "children" := h _ List.mem_cons_self
    rw [List.cons_append, chainExprs, ih fun d hd => h d (List.mem_cons_of_mem _ hd)]
    simp [hc, argExprs]

theorem chainExprs_chainedChildren (cs : List Call) : chainExprs [chainedChildren cs] =
    if (childExprs cs).isEmpty then [] else [⟨.start, childrenMethod, childExprs cs⟩] := by
  rw [chainedChildren, chainExprs, chainExprs]
  simp [Arg.exprs, childrenMethod]

/-- A call with child calls in their place: among its arguments, or in a last chained call. -/
inductive Placed (head : CallHead) (chain kids : List Call) : Call → Prop
  | alone (h : kids = []) : Placed head chain kids ⟨head, [], chain⟩
  | among (h : .children ∈ head.args) : Placed head chain kids ⟨head, kids, chain⟩
  | chained : Placed head chain kids ⟨head, [], chain ++ [.chainedChildren kids]⟩

theorem placed_withChildren (o : Options) (s : Signature) (head : CallHead) (chain calls : List Call) :
    Placed head chain (Call.order o.categories calls) (withChildren o s head chain calls) := by
  rcases withChildren_cases o s head chain calls with ⟨rfl, he⟩ | ⟨-, he⟩ | ⟨-, hc, he⟩
  · exact he ▸ .alone (by simp [Call.order, orderBy])
  · exact he ▸ .chained
  · exact he ▸ .among hc

/-- A call says its children behind its arguments, or in a last chained call. -/
theorem Placed.toExpr {head : CallHead} {chain kids : List Call} {c : Call}
    (hc : Placed head chain kids c) (h : ∀ l ∈ chain, l.head.method ≠ childrenMethod) :
    ∃ behind link, c.toExpr = .call ⟨.start, head.method, head.args.flatMap Arg.exprs ++ behind⟩
        (chain.map (fun c => ⟨.start, c.head.method, c.argExprs⟩) ++ link) ∧
      ((link = [] ∧ behind = childExprs kids ∧ (kids ≠ [] → behind = [] ∨ .children ∈ head.args)) ∨
        (behind = [] ∧ kids ≠ [] ∧ link = [⟨.start, childrenMethod, childExprs kids⟩])) := by
  have hchain : chainExprs chain = chain.map fun c => ⟨.start, c.head.method, c.argExprs⟩ := by
    have happ := chainExprs_append h []
    rwa [List.append_nil, chainExprs, List.append_nil] at happ
  cases hc with
  | alone hk =>
    subst hk
    exact ⟨[], [], by simp only [Call.toExpr, hchain, childExprs, List.append_nil],
      .inl ⟨rfl, by rw [childExprs], fun hne => absurd rfl hne⟩⟩
  | among hp =>
    exact ⟨_, [], by rw [Call.toExpr, hchain, List.append_nil], .inl ⟨rfl, rfl, fun _ => .inr hp⟩⟩
  | chained =>
    cases hk : (childExprs kids).isEmpty with
    | true =>
      refine ⟨[], [], ?_, .inl ⟨rfl, (List.isEmpty_iff.mp hk).symm, fun _ => .inl rfl⟩⟩
      rw [Call.toExpr, chainExprs_append h, chainExprs_chainedChildren, if_pos hk, childExprs]
    | false =>
      refine ⟨[], _, ?_, .inr ⟨rfl, ?_, rfl⟩⟩
      · rw [Call.toExpr, chainExprs_append h, chainExprs_chainedChildren,
          if_neg (by rw [hk]; exact Bool.false_ne_true), childExprs]
      · rintro rfl
        rw [childExprs] at hk
        cases hk

end Call

namespace Build

theorem unplacedChain_eq_map (cs : List (Invocation Expr)) : Expr.unplacedChain cs =
    cs.map fun c => ⟨.start, c.name, c.args.map Expr.unplaced⟩ := by
  induction cs with
  | nil => rw [Expr.unplacedChain, List.map_nil]
  | cons c cs ih =>
    obtain ⟨pos, name, args⟩ := c
    rw [Expr.unplacedChain, ih, Expr.unplacedAll_eq_map, List.map_cons]

theorem operands_append (s : Scope) (es fs : List Expr) :
    operands s (es ++ fs) = operands s es ++ operands s fs := by
  rw [operands_eq_map, List.map_append, ← operands_eq_map, ← operands_eq_map]

theorem invocations_append (s : Scope) (cs ds : List (Invocation Expr)) :
    invocations s (cs ++ ds) = invocations s cs ++ invocations s ds := by
  rw [invocations_eq_map, List.map_append, ← invocations_eq_map, ← invocations_eq_map]

/-- What a call says, taken apart: its arguments, the calls of its modifiers, and its children either
behind the arguments or in a last chained call. -/
structure Apart (scope : Scope) (head : CallHead) (chain kids : List Call) (leading : List Expr)
    (children : List Operand) (invs tail : List (Invocation Operand)) : Prop where
  values : leading.map Expr.unplaced = head.args.flatMap Arg.exprs
  calls : List.Forall₂ Says invs chain
  last : IsTail tail
  place : children ≠ [] → .children ∈ head.args
  linked : tail ≠ [] → kids ≠ []
  operands : ∃ xs, children ++ tail.flatMap (·.args) = operands scope xs ∧
    xs.map Expr.unplaced = (kids.filter fun c => !c.isEmpty).map Call.toExpr

/-- What says the call of an element is evaluated with its arguments, its children and the calls of its
modifiers, wherever the children stand. -/
theorem exists_operands {head : CallHead} {chain kids : List Call} {c : Call}
    (hc : Call.Placed head chain kids c) (hchain : ∀ l ∈ chain, l.head.method ≠ childrenMethod)
    {scope : Scope} (hd : scope.program.definition? head.method = none) {x : Expr}
    (hx : x.unplaced = c.toExpr) :
    ∃ pos leading children invs tail,
      evaluate scope x = ofCall scope.registry
        ⟨pos, head.method, operands scope leading ++ children⟩ (invs ++ tail) ∧
      Apart scope head chain kids leading children invs tail := by
  obtain ⟨behind, link, hexpr, hlink⟩ := hc.toExpr hchain
  obtain ⟨pos, as, cs, heval, has, hcs⟩ := evaluate_of_unplaced (hx.trans hexpr) hd
  obtain ⟨leading, rest, rfl, hleading, hrest⟩ := List.map_eq_append_iff.mp has
  rw [unplacedChain_eq_map] at hcs
  obtain ⟨invs, last, rfl, hinvs, hlast⟩ := List.map_eq_append_iff.mp hcs
  rw [← unplacedChain_eq_map] at hinvs
  rw [operands_append, invocations_append] at heval
  refine ⟨pos, leading, operands scope rest, invocations scope invs, invocations scope last, heval, ?_⟩
  have hsaid := says_of_unplacedChain (s := scope) hinvs
  rcases hlink with ⟨rfl, rfl, hplace⟩ | ⟨rfl, hne, rfl⟩
  · obtain rfl := List.map_eq_nil_iff.mp hlast
    refine ⟨hleading, hsaid, .inl rfl, fun hsome => ?_, fun hsome => absurd rfl hsome, rest, ?_, ?_⟩
    · have hbehind : Call.childExprs kids ≠ [] := by
        rintro hnil
        rw [hnil] at hrest
        obtain rfl := List.map_eq_nil_iff.mp hrest
        exact hsome rfl
      refine (hplace ?_).resolve_left hbehind
      rintro rfl
      exact hbehind (by rw [Call.childExprs])
    · rw [invocations, List.flatMap_nil, List.append_nil]
    · rw [hrest, Call.childExprs_eq_map]
  · obtain rfl := List.map_eq_nil_iff.mp hrest
    obtain ⟨⟨_, name, args⟩, rfl, hinv⟩ := List.map_eq_singleton_iff.mp hlast
    simp only [Invocation.mk.injEq, true_and] at hinv
    refine ⟨hleading, hsaid, .inr ⟨_, rfl, hinv.1⟩, fun hsome => absurd rfl hsome, fun _ => hne,
      args, ?_, ?_⟩
    · rw [operands, invocations, invocations]
      simp
    · rw [hinv.2, Call.childExprs_eq_map]

/-- Arguments and children are told apart where the children are calls of builders or helper methods. -/
theorem Apart.divide {scope : Scope} {head : CallHead} {chain kids : List Call} {leading : List Expr}
    {children : List Operand} {invs tail : List (Invocation Operand)}
    (h : Apart scope head chain kids leading children invs tail)
    (hk : ∀ k ∈ kids, k.isEmpty = false → isPlainName k.head.method = true) :
    Build.divide (Build.operands scope leading ++ children) = .ok (leading, children) := by
  have hlead : ∀ a ∈ Build.operands scope leading, a.isChild = false := by
    intro a ha
    rw [operands_eq_map] at ha
    obtain ⟨y, hy, rfl⟩ := List.mem_map.mp ha
    have hmem : y.unplaced ∈ head.args.flatMap Arg.exprs := h.values ▸ List.mem_map_of_mem hy
    obtain ⟨arg, -, harg⟩ := List.mem_flatMap.mp hmem
    cases arg with
    | scalar p v =>
      rw [Arg.exprs] at harg
      split_ifs at harg
      · exact not_isChild_of_mem_exprs harg
      · cases harg
    | children => cases harg
  have hchild : ∀ a ∈ children, a.isChild = true := by
    obtain ⟨xs, hops, hxs⟩ := h.operands
    intro a ha
    have ha : a ∈ Build.operands scope xs := hops ▸ List.mem_append_left _ ha
    rw [operands_eq_map] at ha
    obtain ⟨y, hy, rfl⟩ := List.mem_map.mp ha
    have hmem := List.mem_map_of_mem (f := Expr.unplaced) hy
    rw [hxs] at hmem
    obtain ⟨c, hc, hyc⟩ := List.mem_map.mp hmem
    obtain ⟨hc, hne⟩ := List.mem_filter.mp hc
    exact isChild_toExpr (hk c hc (by simpa using hne)) hyc.symm
  have hleads : (Build.operands scope leading).map (·.expr) = leading := by
    rw [operands_eq_map, List.map_map]
    exact List.map_id' leading
  rw [divide_append hlead hchild, hleads]

end Build

end FluentPlan
