import FluentPlan.Proofs.Fault.Within
import FluentPlan.Script.Parser

/-!
Parsing fails with problems only: each place where the tokens or the grammar give out has a report.
-/

namespace FluentPlan.Script

theorem failsWithin_grammarError {α : Type} (p : ParseProblem) (pos : Position) :
    FailsWithin [] (grammarError p pos : Except Failure α) := .report _

theorem failsWithin_scan (pos : Position) (cs : List Char) : FailsWithin [] (scan pos cs) := by
  induction pos, cs using scan.induct with
  | case1 pos =>
    rw [scan]
    exact .ok _
  | case2 pos c r p h =>
    rw [scan, h]
    exact .report _
  | case3 pos c r n h ih =>
    rw [scan, h]
    exact ih
  | case4 pos c r kind value n h ih =>
    rw [scan, h]
    exact ih.map _

theorem failsWithin_expectOp (value : String) (ts : List Token) :
    FailsWithin [] (expectOp value ts) := by
  unfold expectOp
  split
  · split
    · exact .ok _
    · exact failsWithin_grammarError _ _
  · exact failsWithin_grammarError _ _

theorem failsWithin_expectIdent (ts : List Token) : FailsWithin [] (expectIdent ts) := by
  unfold expectIdent
  split
  · split
    · exact .ok _
    · exact failsWithin_grammarError _ _
  · exact failsWithin_grammarError _ _

theorem failsWithin_expectWord (word : String) (ts : List Token) :
    FailsWithin [] (expectWord word ts) := by
  unfold expectWord
  split
  · split
    · exact .ok _
    · exact failsWithin_grammarError _ _
  · exact failsWithin_grammarError _ _

theorem failsWithin_primary (ts : List Token) : FailsWithin [] (primary ts) := by
  unfold primary
  split
  · exact failsWithin_grammarError _ _
  · split_ifs
    · exact .ok _
    · exact .ok _
    · split
      · split
        · exact .ok _
        · exact failsWithin_grammarError _ _
      · exact failsWithin_grammarError _ _
    · exact .ok _
    · exact .ok _
    · dsimp only
      split <;> exact .ok _
    · exact failsWithin_grammarError _ _

mutual

theorem failsWithin_expr : (fuel : Nat) → (ts : List Token) → FailsWithin [] (expr fuel ts)
  | 0, _ => failsWithin_grammarError _ _
  | fuel + 1, ts => by
    unfold expr
    split
    · next h => exact (failsWithin_primary ts).of_eq h
    · split
      · exact failsWithin_grammarError _ _
      · exact .ok _
    · split
      · next h => exact (failsWithin_args fuel _).of_eq h
      · split
        · next h => exact (failsWithin_chain fuel _).of_eq h
        · exact .ok _

theorem failsWithin_chain : (fuel : Nat) → (ts : List Token) → FailsWithin [] (chain fuel ts)
  | 0, _ => failsWithin_grammarError _ _
  | fuel + 1, ts => by
    unfold chain
    split
    · split
      · next h => exact (failsWithin_expectIdent _).of_eq h
      · split
        · next h => exact (failsWithin_expectOp _ _).of_eq h
        · split
          · next h => exact (failsWithin_args fuel _).of_eq h
          · split
            · next h => exact (failsWithin_chain fuel _).of_eq h
            · exact .ok _
    · exact .ok _

theorem failsWithin_args : (fuel : Nat) → (ts : List Token) → FailsWithin [] (args fuel ts)
  | 0, _ => failsWithin_grammarError _ _
  | fuel + 1, ts => by
    unfold args
    split
    · exact .ok _
    · exact failsWithin_someArgs fuel ts

theorem failsWithin_someArgs : (fuel : Nat) → (ts : List Token) →
    FailsWithin [] (someArgs fuel ts)
  | 0, _ => failsWithin_grammarError _ _
  | fuel + 1, ts => by
    unfold someArgs
    split
    · next h => exact (failsWithin_expr fuel ts).of_eq h
    · split
      · split
        · next h => exact (failsWithin_someArgs fuel _).of_eq h
        · exact .ok _
      · split
        · next h => exact (failsWithin_expectOp _ _).of_eq h
        · exact .ok _

end

theorem failsWithin_definition (ts : List Token) : FailsWithin [] (definition ts) := by
  unfold definition
  refine (failsWithin_expectIdent _).bind fun type _ => ?_
  refine (failsWithin_expectIdent _).bind fun name _ => ?_
  refine (failsWithin_expectOp _ _).bind fun r _ => ?_
  refine (failsWithin_expectOp _ _).bind fun r _ => ?_
  refine (failsWithin_expectOp _ _).bind fun r _ => ?_
  refine (failsWithin_expectWord _ _).bind fun r _ => ?_
  refine (failsWithin_expr _ _).bind fun body _ => ?_
  refine (failsWithin_expectOp _ _).bind fun r _ => ?_
  exact (failsWithin_expectOp _ _).bind fun r _ => .ok _

theorem failsWithin_definitions (fuel : Nat) (known : List Definition) (ts : List Token) :
    FailsWithin [] (definitions fuel known ts) := by
  induction fuel generalizing known ts with
  | zero => exact .ok _
  | succ fuel ih =>
    unfold definitions
    split
    · refine (failsWithin_definition ts).bind fun d _ => ?_
      dsimp only
      split
      · exact failsWithin_grammarError _ _
      · exact ih _ _
    · exact .ok _

/-- A source text that is no program is reported. -/
theorem failsWithin_parse (source : String) : FailsWithin [] (parse source) := by
  refine (failsWithin_scan _ _).bind fun ts _ => ?_
  refine (failsWithin_definitions _ _ _).bind fun ds _ => ?_
  refine (failsWithin_expr _ _).bind fun e _ => ?_
  dsimp only
  split
  · split
    · exact .ok _
    · exact failsWithin_grammarError _ _
  · split
    · exact .ok _
    · exact failsWithin_grammarError _ _

end FluentPlan.Script
