import Mathlib.Data.List.Perm.Subperm
import Mathlib.Logic.Relation
import FluentPlan.Proofs.Building.Origin

/-!
How helper methods are expanded. A body is evaluated anew wherever its method is called, inside the
bodies that are being evaluated there. No method comes twice among these, so bodies nest at most as
deep as there are methods, and what would happen below is never asked for. Two expansions of one
method inside each other are a cycle among the references of the bodies.
-/

namespace FluentPlan

open Script

/-! ### References -/

namespace Script

mutual

/-- The names that an expression calls, wherever the calls stand in it. -/
def Expr.calls : Expr → List String
  | .call ⟨_, method, args⟩ chain => method :: (Expr.callsAll args ++ Expr.chainCalls chain)
  | .text .. | .number .. | .bool .. | .null _ | .name .. => []

def Expr.callsAll : List Expr → List String
  | [] => []
  | x :: xs => x.calls ++ Expr.callsAll xs

def Expr.chainCalls : List (Invocation Expr) → List String
  | [] => []
  | ⟨_, _, args⟩ :: cs => Expr.callsAll args ++ Expr.chainCalls cs

end

/-- Whether an expression among arguments is a child: a call of a name without a point. -/
def Expr.isElement : Expr → Bool
  | .call head _ => !head.name.toList.contains '.'
  | .text .. | .number .. | .bool .. | .null _ | .name .. => false

namespace Program

/-- Whether the body of a helper method calls another one, or the method itself. -/
def Refers (p : Program) (a b : String) : Prop :=
  ∃ d, p.definition? a = some d ∧ b ∈ d.body.calls ∧ (p.definition? b).isSome = true

/-- Whether references lead from the expression of a program to a helper method. -/
def Reaches (p : Program) (a : String) : Prop :=
  ∃ b ∈ p.expr.calls, Relation.ReflTransGen p.Refers b a

/-- Whether references lead from the expression of a program to a cycle of helper methods. -/
def IsRecursive (p : Program) : Prop := ∃ a, p.Reaches a ∧ Relation.TransGen p.Refers a a

theorem name_of_definition? {p : Program} {name : String} {d : Definition}
    (h : p.definition? name = some d) : d.name = name := by
  simpa using List.find?_some h

end Program

theorem Expr.calls_subset_callsAll {x : Expr} {xs : List Expr} (hx : x ∈ xs) :
    x.calls ⊆ Expr.callsAll xs := by
  induction xs with
  | nil => cases hx
  | cons y ys ih =>
    rw [Expr.callsAll]
    rcases List.mem_cons.mp hx with rfl | hx
    · exact List.subset_append_left _ _
    · exact List.subset_append_of_subset_right _ (ih hx)

theorem Expr.calls_subset_chainCalls {x : Expr} {c : Invocation Expr} {cs : List (Invocation Expr)}
    (hc : c ∈ cs) (hx : x ∈ c.args) : x.calls ⊆ Expr.chainCalls cs := by
  induction cs with
  | nil => cases hc
  | cons d ds ih =>
    obtain ⟨pos, name, args⟩ := d
    rw [Expr.chainCalls]
    rcases List.mem_cons.mp hc with rfl | hc
    · exact List.subset_append_of_subset_left _ (Expr.calls_subset_callsAll hx)
    · exact List.subset_append_of_subset_right _ (ih hc)

end Script

namespace Build

/-! ### Nested expansions -/

/-- The expressions that a call has as children: those among its arguments, and the arguments of the
calls chained for children. -/
def childrenOf (args : List Expr) (chain : List (Invocation Expr)) : List Expr :=
  args.filter (·.isElement) ++ chainedChildren chain

/-- The expressions of a program that are evaluated, each with the helper methods inside whose
bodies it then stands, the outermost first. -/
inductive Expanding (p : Program) : List String → Expr → Prop
  | main : Expanding p [] p.expr
  | child {names : List String} {pos : Position} {name : String} {args : List Expr}
    {chain : List (Invocation Expr)} {x : Expr}
    (h : Expanding p names (.call ⟨pos, name, args⟩ chain)) (hx : x ∈ childrenOf args chain) :
    Expanding p names x
  | body {names : List String} {pos : Position} {name : String} {d : Definition}
    (h : Expanding p names (.call ⟨pos, name, []⟩ [])) (hd : p.definition? name = some d) :
    Expanding p (names ++ [name]) d.body

theorem mem_chainedChildren {α : Type} {chain : List (Invocation α)} {a : α} :
    a ∈ chainedChildren chain ↔ ∃ c ∈ chain, c.name = childrenMethod ∧ a ∈ c.args := by
  simp [chainedChildren, List.mem_flatMap, and_assoc]

theorem calls_subset_of_mem_childrenOf {pos : Position} {name : String} {args : List Expr}
    {chain : List (Invocation Expr)} {x : Expr} (hx : x ∈ childrenOf args chain) :
    x.calls ⊆ (Expr.call ⟨pos, name, args⟩ chain).calls := by
  rw [Expr.calls]
  refine List.subset_cons_of_subset _ ?_
  rcases List.mem_append.mp hx with hx | hx
  · exact List.subset_append_of_subset_left _
      (Expr.calls_subset_callsAll (List.mem_of_mem_filter hx))
  · obtain ⟨c, hc, -, hx⟩ := mem_chainedChildren.mp hx
    exact List.subset_append_of_subset_right _ (Expr.calls_subset_chainCalls hc hx)

/-- What is evaluated inside no body is part of the program's expression. What is evaluated inside a
body is part of that body, and the references of the bodies around it lead to its method. -/
theorem Expanding.refers {p : Program} {names : List String} {x : Expr} (h : Expanding p names x) :
    (names = [] ∧ x.calls ⊆ p.expr.calls) ∨
      ∃ outer a d, names = outer ++ [a] ∧ p.definition? a = some d ∧ x.calls ⊆ d.body.calls ∧
        p.Reaches a ∧ ∀ b ∈ outer, Relation.TransGen p.Refers b a := by
  induction h with
  | main => exact .inl ⟨rfl, List.Subset.refl _⟩
  | @child names pos name args chain x _ hx ih =>
    have hcalls : x.calls ⊆ (Expr.call ⟨pos, name, args⟩ chain).calls :=
      calls_subset_of_mem_childrenOf hx
    obtain ⟨rfl, hsub⟩ | ⟨outer, a, d, rfl, hd, hsub, hrest⟩ := ih
    · exact .inl ⟨rfl, List.Subset.trans hcalls hsub⟩
    · exact .inr ⟨outer, a, d, rfl, hd, List.Subset.trans hcalls hsub, hrest⟩
  | @body names pos name d h hd ih =>
    have hmem : name ∈ (Expr.call ⟨pos, name, []⟩ []).calls := by
      rw [Expr.calls]
      exact List.mem_cons_self
    refine .inr ⟨names, name, d, rfl, hd, List.Subset.refl _, ?_⟩
    obtain ⟨rfl, hsub⟩ | ⟨outer, a, d', rfl, hd', hsub, ⟨b, hb, hreach⟩, houter⟩ := ih
    · exact ⟨⟨name, hsub hmem, .refl⟩, nofun⟩
    · have hstep : p.Refers a name := ⟨d', hd', hsub hmem, by rw [hd]; rfl⟩
      refine ⟨⟨b, hb, hreach.tail hstep⟩, fun c hc => ?_⟩
      rcases List.mem_append.mp hc with hc | hc
      · exact (houter c hc).tail hstep
      · rw [List.mem_singleton.mp hc]
        exact .single hstep

/-- A helper method that is expanded inside its own expansion refers to itself, perhaps through
others. -/
theorem Expanding.nodup_or_isRecursive {p : Program} {names : List String} {x : Expr}
    (h : Expanding p names x) : names.Nodup ∨ p.IsRecursive := by
  induction h with
  | main => exact .inl List.nodup_nil
  | child _ _ ih => exact ih
  | @body names pos name d h hd ih =>
    obtain hnodup | hrec := ih
    · by_cases hmem : name ∈ names
      · obtain ⟨hnil, -⟩ | ⟨outer, a, -, hlast, -, -, hreach, houter⟩ := (h.body hd).refers
        · simp at hnil
        · obtain ⟨rfl, rfl⟩ := List.append_singleton_inj.mp hlast
          exact .inr ⟨name, hreach, houter name hmem⟩
      · exact .inl (by simpa using hnodup.concat hmem)
    · exact .inr hrec

/-! ### Depth -/

section

variable {r : Registry} {p : Program} {stack : List String} {f g : Definition → Logged Element}

/-- Two ways to evaluate bodies that agree for the helper methods that are not on the stack. -/
def AgreeOff (p : Program) (stack : List String) (f g : Definition → Logged Element) : Prop :=
  ∀ name d, p.definition? name = some d → name ∉ stack → f d = g d

theorem call_congr (h : AgreeOff p stack f g) (head : Invocation Operand)
    (chain : List (Invocation Operand)) :
    Scope.call ⟨r, p, stack, f⟩ head chain = Scope.call ⟨r, p, stack, g⟩ head chain := by
  simp only [Scope.call]
  split
  · next d hd =>
    split_ifs with hplain hstack
    · rfl
    · rfl
    · exact h head.name d hd (by simpa using hstack)
  · rfl

mutual

/-- Evaluation asks for the bodies of helper methods that are not on the stack, and for no others.
-/
theorem evaluate_congr (h : AgreeOff p stack f g) :
    (x : Expr) → evaluate ⟨r, p, stack, f⟩ x = evaluate ⟨r, p, stack, g⟩ x
  | .call ⟨pos, name, args⟩ chain => by
    rw [evaluate, evaluate, operands_congr h args, invocations_congr h chain, call_congr h]
  | .text .. | .number .. | .bool .. | .null _ | .name .. => rfl

theorem operands_congr (h : AgreeOff p stack f g) :
    (xs : List Expr) → operands ⟨r, p, stack, f⟩ xs = operands ⟨r, p, stack, g⟩ xs
  | [] => rfl
  | x :: xs => by rw [operands, operands, evaluate_congr h x, operands_congr h xs]

theorem invocations_congr (h : AgreeOff p stack f g) :
    (cs : List (Invocation Expr)) →
      invocations ⟨r, p, stack, f⟩ cs = invocations ⟨r, p, stack, g⟩ cs
  | [] => rfl
  | ⟨pos, name, args⟩ :: cs => by
    rw [invocations, invocations, operands_congr h args, invocations_congr h cs]

end

end

/-- Evaluates an expression inside the bodies of the helper methods on `stack`. Bodies nest `depth`
deep, and `bottom` stands for what they come to below. -/
def evaluateFrom (r : Registry) (p : Program) (bottom : List String → Definition → Logged Element) :
    (depth : Nat) → (stack : List String) → Expr → Logged Element
  | 0, stack, x => evaluate ⟨r, p, stack, bottom stack⟩ x
  | depth + 1, stack, x =>
    evaluate ⟨r, p, stack, fun d => evaluateFrom r p bottom depth (stack ++ [d.name]) d.body⟩ x

theorem evaluateIn_eq_evaluateFrom (r : Registry) (p : Program) (depth : Nat) (stack : List String)
    (x : Expr) :
    evaluateIn r p depth stack x = evaluateFrom r p
      (fun stack d => .fail (problem (.recursive d.line (stack ++ [d.name])))) depth stack x := by
  induction depth generalizing stack x with
  | zero => rfl
  | succ depth ih =>
    rw [evaluateIn, evaluateFrom]
    simp only [ih]

/-- The names of different helper methods. -/
structure IsStack (p : Program) (stack : List String) : Prop where
  nodup : stack.Nodup
  defined : ∀ name ∈ stack, (p.definition? name).isSome = true

theorem IsStack.nil (p : Program) : IsStack p [] := ⟨List.nodup_nil, nofun⟩

theorem IsStack.append {p : Program} {stack : List String} (h : IsStack p stack) {name : String}
    {d : Definition} (hd : p.definition? name = some d) (hn : name ∉ stack) :
    IsStack p (stack ++ [name]) where
  nodup := by simpa using h.nodup.concat hn
  defined := by
    intro n hm
    rcases List.mem_append.mp hm with hm | hm
    · exact h.defined n hm
    · rw [List.mem_singleton.mp hm, hd]
      rfl

/-- There are no more names on a stack than methods. -/
theorem IsStack.length_le {p : Program} {stack : List String} (h : IsStack p stack) :
    stack.length ≤ p.definitions.length := by
  have hsub : stack ⊆ p.definitions.map (·.name) := by
    intro name hn
    obtain ⟨d, hd⟩ := Option.isSome_iff_exists.mp (h.defined name hn)
    exact List.mem_map.mpr ⟨d, List.mem_of_find?_eq_some hd, Program.name_of_definition? hd⟩
  simpa using (List.subperm_of_subset h.nodup hsub).length_le

/-- A method that is not on the stack has room below it. -/
theorem IsStack.lt_length {p : Program} {stack : List String} (h : IsStack p stack) {name : String}
    {d : Definition} (hd : p.definition? name = some d) (hn : name ∉ stack) :
    stack.length < p.definitions.length := by
  have hle := (h.append hd hn).length_le
  rwa [List.length_append, List.length_singleton] at hle

/-- Where bodies may nest so deep that all methods fit on the stack, neither the depth nor what
stands below it matters. -/
theorem evaluateFrom_congr {r : Registry} {p : Program}
    {bottom bottom' : List String → Definition → Logged Element} {depth depth' : Nat}
    {stack : List String} (h : IsStack p stack) (hd : p.definitions.length ≤ stack.length + depth)
    (hd' : p.definitions.length ≤ stack.length + depth') (x : Expr) :
    evaluateFrom r p bottom depth stack x = evaluateFrom r p bottom' depth' stack x := by
  -- With all methods on the stack no body is asked for.
  have hfull {stack : List String} (h : IsStack p stack)
      (hle : p.definitions.length ≤ stack.length + 0) (f g : Definition → Logged Element) :
      AgreeOff p stack f g :=
    fun name d hdef hn => absurd (h.lt_length hdef hn) (Nat.not_lt.mpr hle)
  induction depth generalizing depth' stack x with
  | zero => cases depth' <;> exact evaluate_congr (hfull h hd _ _) x
  | succ depth ih =>
    cases depth' with
    | zero => exact evaluate_congr (hfull h hd' _ _) x
    | succ depth' =>
      refine evaluate_congr (fun name d hdef hn => ?_) x
      obtain rfl := Program.name_of_definition? hdef
      exact ih (h.append hdef hn) (by simp; omega) (by simp; omega) d.body

/-- However deep bodies may nest beyond the number of helper methods, and whatever stands below, a
program comes to the same. -/
theorem evaluateFrom_eq_ofProgram (r : Registry) (p : Program)
    (bottom : List String → Definition → Logged Element) {depth : Nat}
    (hd : p.definitions.length ≤ depth) :
    evaluateFrom r p bottom depth [] p.expr = ofProgram r p := by
  rw [ofProgram, evaluateIn_eq_evaluateFrom]
  exact evaluateFrom_congr (.nil p) (by simpa using hd) (by simp) p.expr

/-! ### What was built -/

theorem isChild_eq_isElement (a : Operand) : a.isChild = a.expr.isElement := by
  unfold Operand.isChild
  cases a.expr <;> rfl

/-- The children of a call are those among its arguments that can be. -/
theorem children_of_divide {as : List Operand} {leading : List Expr} {children : List Operand}
    (h : divide as = .ok (leading, children)) : children = as.filter (·.isChild) := by
  induction as generalizing leading with
  | nil =>
    cases h
    rfl
  | cons a as ih =>
    unfold divide at h
    split at h
    · next ha =>
      split at h
      · cases h
      · next hnone =>
        cases h
        have hall : ∀ b ∈ as, b.isChild = true := by simpa using hnone
        exact (List.filter_eq_self.mpr (List.forall_mem_cons.mpr ⟨ha, hall⟩)).symm
    · next ha =>
      obtain ⟨rest, hrest, h⟩ := exists_of_bind_eq_ok h
      cases h
      rw [List.filter_cons_of_neg ha]
      exact ih hrest

theorem exprs_of_divide {s : Scope} {args : List Expr} {leading : List Expr}
    {children : List Operand} (h : divide (operands s args) = .ok (leading, children)) :
    children.map (·.expr) = args.filter (·.isElement) := by
  rw [children_of_divide h, operands_eq_map]
  simp only [isChild_eq_isElement, List.filter_map, List.map_map]
  exact List.map_id _

section

variable {r : Registry} {p : Program}

theorem CreatesAll.exists_creates {depth : Nat} {stack : List String} {xs : List Expr}
    {es : List Element} {ts : List Origin} (h : CreatesAll r p depth stack xs es ts) {x : Expr}
    (hx : x ∈ xs) : ∃ e t, Creates r p depth stack x e t := by
  induction xs generalizing es ts with
  | nil => cases hx
  | cons y ys ih =>
    obtain _ | ⟨h, hs⟩ := h
    rcases List.mem_cons.mp hx with rfl | hx
    · exact ⟨_, _, h⟩
    · exact ih hs hx

/-- Whatever is evaluated where a program builds something builds something itself, inside the
bodies of different helper methods. -/
theorem Expanding.creates {depth : Nat} {e : Element} {t : Origin}
    (hbuilt : Creates r p depth [] p.expr e t) {names : List String} {x : Expr}
    (h : Expanding p names x) :
    names.Nodup ∧ ∃ depth e t, Creates r p depth names x e t := by
  induction h with
  | main => exact ⟨List.nodup_nil, depth, e, t, hbuilt⟩
  | child _ hx ih =>
    obtain ⟨hn, depth, e, t, hc⟩ := ih
    refine ⟨hn, depth, ?_⟩
    cases hc with
    | helper => cases hx
    | call _ hdiv _ hall =>
      rw [exprs_of_divide hdiv] at hall
      exact hall.exists_creates hx
  | body _ hd ih =>
    obtain ⟨hn, depth, e, t, hc⟩ := ih
    cases hc with
    | @helper depth _ _ _ d' _ _ hd' hs hc =>
      cases hd.symm.trans hd'
      rw [Program.name_of_definition? hd] at hc
      exact ⟨by simpa using hn.concat (by simpa using hs), depth, e, t, hc⟩
    | call hnone => cases hd.symm.trans hnone

/-- A program that builds an element expands no helper method inside its own expansion, and what it
evaluates builds elements. -/
theorem nodup_of_ofProgram {e : Element} (h : (ofProgram r p).outcome = .ok e)
    {names : List String} {x : Expr} (hx : Expanding p names x) :
    names.Nodup ∧ ∃ depth e, (evaluateIn r p depth names x).outcome = .ok e := by
  obtain ⟨t, ht⟩ := exists_creates _ _ _ _ h
  obtain ⟨hn, depth, e, t, hc⟩ := hx.creates ht
  exact ⟨hn, depth, e, hc.outcome_evaluateIn⟩

end

end Build

end FluentPlan
