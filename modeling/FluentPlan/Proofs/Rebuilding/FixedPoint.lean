import Mathlib
import FluentPlan.Proofs.Code.Helper
import FluentPlan.Proofs.Fault.Conversion
import FluentPlan.Proofs.Rebuilding.Tree

/-!
Converting, building and converting again. What is built from the code of a plan has the same code, to
the letter: the code of a plan is a fixed point.
-/

namespace FluentPlan

open Script Text Build Element

namespace Script

/-- A line break is no program. -/
theorem toOption_parse_break : (parse "\n").toOption = none := by
  cbv

end Script

namespace Build

/-- A program without helper methods is evaluated where nothing is defined. -/
theorem exists_scope {r : Registry} {p : Program} (hp : p.definitions = []) :
    ∃ scope : Scope, scope.registry = r ∧ scope.program.definitions = [] ∧
      ofProgram r p = evaluate scope p.expr := by
  unfold ofProgram
  rw [hp]
  exact ⟨_, rfl, hp, rfl⟩

end Build

namespace Generated

/-- Without helper methods the source is the code of the plan and a line break. -/
theorem toSource_ofCall (style : Style) (indent : List Char) (root : Call) :
    (ofCall style indent root []).toSource =
      String.ofList (root.code style indent false true ++ ['\n']) := by
  rw [toSource_eq, List.flatMap_nil, List.nil_append]

end Generated

/-- What is built from the code of a call is what an expression comes to that says the call. -/
theorem Element.exists_evaluate_of_ofSource {o : Options} {e : Element} (he : e.allEnabled = true)
    {path : String} {root : Call} (hroot : (e.assemble .standard o path).outcome = .ok root)
    (hd : root.HasDottedClasses) {style : Style} (hstyle : style.indent.all isIndent = true)
    {indent : List Char} (hi : indent.all isIndent = true) {e' : Element}
    (h : (Element.ofSource .standard
      (String.ofList (root.code style indent false true ++ ['\n']))).outcome = .ok e') :
    root.isEmpty = false ∧ ∃ scope : Scope, scope.registry = .standard ∧
      scope.program.definitions = [] ∧
      ∃ x, x.unplaced = root.toExpr ∧ (evaluate scope x).outcome = .ok e' := by
  cases hempty : root.isEmpty with
  | true =>
    rw [Call.code_of_isEmpty hempty, List.nil_append, Element.ofSource, Logged.outcome_bind,
      Logged.outcome_ofExcept] at h
    obtain ⟨p, hp, -⟩ := exists_of_bind_eq_ok h
    have hnone := toOption_parse_break
    rw [show parse "\n" = .ok p from hp] at hnone
    cases hnone
  | false =>
    have hlive := Element.live_assemble Registry.isProper_standard e he hroot hd
    obtain ⟨p, hp, hu⟩ := hlive.parse hempty hstyle hi (.inr rfl)
    obtain ⟨hdefs, hexpr⟩ := Program.mk.injEq .. ▸ hu
    obtain ⟨scope, hr, hdefs, heval⟩ := exists_scope (r := .standard) (List.map_eq_nil_iff.mp hdefs)
    rw [outcome_ofSource hp, heval] at h
    exact ⟨rfl, scope, hr, hdefs, p.expr, hexpr, h⟩

end FluentPlan
