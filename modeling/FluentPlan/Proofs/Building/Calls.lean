import FluentPlan.Proofs.Building.Lasting

/-!
The builder calls of a program. Every node of a built tree is the element of one, and what the calls
chained to it write is there in the node.
-/

namespace FluentPlan

open Build Script Catalog

namespace Build

/-- A builder call: the signature that took it, the calls chained to it, and the element that it made. -/
structure BuilderCall where
  signature : Signature
  chain : List (Invocation Operand)
  element : Element

/-- The builder calls from which an expression is built, inside the bodies of the helper methods on
`stack`. -/
inductive BuiltBy (r : Registry) (p : Program) :
    (depth : Nat) → (stack : List String) → Expr → BuilderCall → Prop
  | helper {depth : Nat} {stack : List String} {pos : Position} {name : String} {d : Definition}
    {b : BuilderCall} (hd : p.definition? name = some d) (hs : stack.contains name = false)
    (h : BuiltBy r p depth (stack ++ [d.name]) d.body b) :
    BuiltBy r p (depth + 1) stack (.call ⟨pos, name, []⟩ []) b
  | self {depth : Nat} {stack : List String} {pos : Position} {name : String} {args : List Expr}
    {chain : List (Invocation Expr)} {s : Signature} {e : Element} (hd : p.definition? name = none)
    (hm : (makeCall r ⟨pos, name, operands (scopeIn r p depth stack) args⟩
      (invocations (scopeIn r p depth stack) chain)).outcome = .ok (s, e)) :
    BuiltBy r p depth stack (.call ⟨pos, name, args⟩ chain)
      ⟨s, invocations (scopeIn r p depth stack) chain, e⟩
  | child {depth : Nat} {stack : List String} {pos : Position} {name : String} {args : List Expr}
    {chain : List (Invocation Expr)} {leading : List Expr} {children : List Operand} {x : Expr}
    {b : BuilderCall} (hd : p.definition? name = none)
    (ha : divide (operands (scopeIn r p depth stack) args) = .ok (leading, children))
    (hx : x ∈ children.map (·.expr) ++ chainedChildren chain) (h : BuiltBy r p depth stack x b) :
    BuiltBy r p depth stack (.call ⟨pos, name, args⟩ chain) b

mutual

/-- Every node of what an expression creates is the element of a builder call. -/
theorem Creates.exists_builtBy {r : Registry} {p : Program} {depth : Nat} {stack : List String}
    {x : Expr} {e : Element} {t : Origin} : Creates r p depth stack x e t → (parent : String) →
      ∀ y ∈ e.walk parent, ∃ b, BuiltBy r p depth stack x b ∧ b.element = y.2
  | .helper hd hs h, parent => fun y hy => by
    obtain ⟨b, hb, he⟩ := h.exists_builtBy parent y hy
    exact ⟨b, .helper hd hs hb, he⟩
  | .call (e := ⟨kind, name, enabled, props, children⟩) hd ha hm hc, parent => fun y hy => by
    rw [Element.walk] at hy
    rcases List.mem_cons.mp hy with rfl | hy
    · exact ⟨_, .self hd hm, rfl⟩
    · obtain ⟨x, hx, b, hb, he⟩ := hc.exists_builtBy _ y hy
      exact ⟨b, .child hd ha hx hb, he⟩

theorem CreatesAll.exists_builtBy {r : Registry} {p : Program} {depth : Nat} {stack : List String}
    {xs : List Expr} {es : List Element} {ts : List Origin} :
    CreatesAll r p depth stack xs es ts → (parent : String) →
      ∀ y ∈ Element.walkAll parent es, ∃ x ∈ xs, ∃ b, BuiltBy r p depth stack x b ∧ b.element = y.2
  | .nil, parent => fun y hy => by
    rw [Element.walkAll_nil] at hy
    cases hy
  | .cons h hs, parent => fun y hy => by
    rw [Element.walkAll] at hy
    rcases List.mem_append.mp hy with hy | hy
    · obtain ⟨b, hb, he⟩ := h.exists_builtBy parent y hy
      exact ⟨_, List.mem_cons_self, b, hb, he⟩
    · obtain ⟨x, hx, b, hb, he⟩ := hs.exists_builtBy parent y hy
      exact ⟨x, List.mem_cons_of_mem _ hx, b, hb, he⟩

end

/-- What the calls chained to a builder call write lasts. -/
theorem BuiltBy.lasting {p : Program} {depth : Nat} {stack : List String} {x : Expr}
    {b : BuilderCall} (h : BuiltBy .standard p depth stack x b) :
    Lasting b.signature b.chain b.element.properties := by
  induction h with
  | helper _ _ _ ih => exact ih
  | self _ hm =>
    obtain ⟨hs, leading, children, -, hmakes⟩ := makes_of_makeCall hm
    exact (Signature.steady_of_mem (Registry.mem_forMethod.mp hs).1).lasting hmakes
  | child _ _ _ _ ih => exact ih

end Build

/-- Every node of what a source text builds is the element of a builder call, and in it every property
that a call chained to that one wrote has the value that the last such call gave it. -/
theorem Element.lasting_of_ofSource {source : String} {e : Element}
    (h : (Element.ofSource .standard source).outcome = .ok e) :
    ∃ p, parse source = .ok p ∧
      (∀ y ∈ e.walk "", ∃ b,
        BuiltBy .standard p p.definitions.length [] p.expr b ∧ b.element = y.2) ∧
      ∀ b, BuiltBy .standard p p.definitions.length [] p.expr b →
        Lasting b.signature b.chain b.element.properties := by
  obtain ⟨p, hp, ⟨t, ht⟩, -⟩ := Element.resolves_of_ofSource h
  exact ⟨p, hp, ht.exists_builtBy "", fun b hb => hb.lasting⟩

/-- Two calls of one modifier, each with an entry of its own. -/
theorem Element.lasting_of_ofSource_vars :
    let source := "vars().set(\"a\", \"1\").set(\"b\", \"2\")"
    let e : Element := ⟨"Arguments", some "User Defined Variables", true, .ofList
      [("Arguments.arguments/0/Argument.name", "a"), ("Arguments.arguments/0/Argument.value", "1"),
        ("Arguments.arguments/1/Argument.name", "b"),
        ("Arguments.arguments/1/Argument.value", "2")], []⟩
    (Element.ofSource .standard source).outcome = .ok e ∧
      ∃ p, parse source = .ok p ∧
        (∀ y ∈ e.walk "", ∃ b,
          BuiltBy .standard p p.definitions.length [] p.expr b ∧ b.element = y.2) ∧
        ∀ b, BuiltBy .standard p p.definitions.length [] p.expr b →
          Lasting b.signature b.chain b.element.properties := by
  intro source e
  let program : Program := ⟨[], .call ⟨⟨1, 1⟩, "vars", []⟩
    [⟨⟨1, 8⟩, "set", [.text ⟨1, 12⟩ "a", .text ⟨1, 17⟩ "1"]⟩,
      ⟨⟨1, 22⟩, "set", [.text ⟨1, 26⟩ "b", .text ⟨1, 31⟩ "2"]⟩]⟩
  have hparse : parse source = .ok program := by
    subst source
    cbv
  have hbuilt : (ofProgram .standard program).outcome = .ok e :=
    ofCall_of_first (show _ = [Configuration.vars] from rfl)
      (show _ = Except.ok ([], []) from rfl) rfl rfl rfl
      ((Signature.unmet?_eq_none_iff _ _).mpr ⟨rfl, rfl⟩)
  have hmade : (Element.ofSource .standard source).outcome = .ok e :=
    (outcome_ofSource hparse).trans hbuilt
  exact ⟨hmade, Element.lasting_of_ofSource hmade⟩

/-- A call that is repeated is taken, and overwrites what the first one wrote. -/
theorem Element.overwritten_of_ofSource :
    let source := "dummySampler(\"r\").responseCode(\"1\").responseCode(\"2\")"
    ∃ p e b, parse source = .ok p ∧ (Element.ofSource .standard source).outcome = .ok e ∧
      BuiltBy .standard p p.definitions.length [] p.expr b ∧ b.element = e ∧
      WritesAt b.signature b.chain 0 "RESPONSE_CODE" "1" ∧
      e.properties.get? "RESPONSE_CODE" = some "2" := by
  intro source
  let chain : List (Invocation Expr) := [⟨⟨1, 19⟩, "responseCode", [.text ⟨1, 32⟩ "1"]⟩,
    ⟨⟨1, 37⟩, "responseCode", [.text ⟨1, 50⟩ "2"]⟩]
  let program : Program := ⟨[], .call ⟨⟨1, 1⟩, "dummySampler", [.text ⟨1, 14⟩ "r"]⟩ chain⟩
  let e : Element := ⟨"kg.apc.jmeter.samplers.DummySampler", some "jp@gc - Dummy Sampler", true,
    .ofList [("RESPONSE_DATA", "r"), ("RESPONSE_CODE", "2"), ("RESPONSE_TIME", "0")], []⟩
  let scope := scopeIn .standard program 0 []
  have hparse : parse source = .ok program := by
    subst source
    cbv
  have hmade : (makeCall .standard ⟨⟨1, 1⟩, "dummySampler", operands scope [.text ⟨1, 14⟩ "r"]⟩
      (invocations scope chain)).outcome = .ok (Sampler.dummySampler, e) :=
    makeCall_of_forms (show _ = [Sampler.dummySampler] from rfl)
      (show _ = Except.ok ([.text ⟨1, 14⟩ "r"], []) from rfl)
      (tryForms_of_met [] [] rfl rfl rfl ((Signature.unmet?_eq_none_iff _ _).mpr ⟨rfl, rfl⟩))
  have hbuilt : (ofProgram .standard program).outcome = .ok e := ofCall_of_makeCall hmade
  exact ⟨program, e, _, hparse, (outcome_ofSource hparse).trans hbuilt, .self rfl hmade, rfl,
    ⟨_, _, rfl, rfl, rfl⟩, rfl⟩

end FluentPlan
