import Mathlib.Tactic.Common
import FluentPlan.CommandLine

/-!
Which operands a command line may have. Arguments are read as they are if and only if the options
and their values are by themselves, and of the operands all but the last one are the mark of the
standard input. Such a mark in front of a file name is not refused: it leaves no trace.
-/

namespace FluentPlan.CommandLine

/-! ### Arguments by their parts -/

/-- Whether an option takes the argument behind it as its value. -/
def Word.takesValue : Word → Bool
  | .format | .className | .config | .output => true
  | _ => false

/-- A part of an argument list: an operand, or an option with its value. -/
inductive Item where
  | operand (name : String)
  | setting (words : List String)
deriving DecidableEq, Repr

namespace Item

/-- An argument that stands alone. -/
def single (s : String) : Item :=
  if Word.ofText s = .operand then .operand s else .setting [s]

def words : Item → List String
  | operand s => [s]
  | setting ss => ss

def operand? : Item → Option String
  | operand s => some s
  | setting _ => none

def settingWords : Item → List String
  | operand _ => []
  | setting ss => ss

end Item

/-- The parts of an argument list. -/
def items : List String → List Item
  | [] => []
  | [s] => [.single s]
  | s :: v :: rest =>
    if (Word.ofText s).takesValue then .setting [s, v] :: items rest
    else .single s :: items (v :: rest)

/-- The operands: what is neither an option nor the value of one. -/
def operands (argv : List String) : List String := (items argv).filterMap Item.operand?

/-- The options and their values. -/
def settings (argv : List String) : List String := (items argv).flatMap Item.settingWords

namespace Args

/-! ### Reading part by part -/

/-- What an argument that stands alone does. -/
def takeSingle (a : Args) (s : String) : Except UsageProblem Args :=
  match Word.ofText s with
  | .help => .ok { a with help := true }
  | .testClass => .ok { a with testClass := true }
  | .build => .ok { a with build := true }
  | .verbose => .ok { a with verbose := true }
  | .operand => a.takeOperand s
  | _ => .error (.unknownOption s)

/-- What an option does with its value. -/
def takeValue (a : Args) (s v : String) : Except UsageProblem Args :=
  match Word.ofText s with
  | .format =>
    match PlanFormat.ofName? v with
    | some f => .ok { a with format := some f }
    | none => .error (.unknownFormat v)
  | .className => .ok { a with className := some v }
  | .config => .ok { a with config := some v }
  | .output => .ok { a with output := some v }
  | _ => .error (.unknownOption s)

/-- Reading takes the first argument, with its value if it has one, and then goes on. -/
theorem readAll_cons (a : Args) (s : String) (rest : List String) :
    readAll a (s :: rest) =
      if (Word.ofText s).takesValue then
        match rest with
        | [] => .error (.noValue s)
        | v :: rest => a.takeValue s v >>= (readAll · rest)
      else a.takeSingle s >>= (readAll · rest) := by
  cases h : Word.ofText s
  case operand =>
    simp only [readAll, h, Word.takesValue, takeSingle, Bool.false_eq_true, if_false]
    cases a.takeOperand s <;> rfl
  case format =>
    cases rest with
    | nil => simp only [readAll, h, Word.takesValue, if_true]
    | cons v rest =>
      simp only [readAll, h, Word.takesValue, takeValue, if_true]
      cases PlanFormat.ofName? v <;> rfl
  case className | config | output =>
    cases rest with
    | nil => simp only [readAll, h, Word.takesValue, if_true]
    | cons v rest =>
      simp only [readAll, h, Word.takesValue, takeValue, if_true]
      rfl
  all_goals
    simp only [readAll, h, Word.takesValue, takeSingle, Bool.false_eq_true, if_false]
    rfl

theorem readAll_single {s : String} (hs : (Word.ofText s).takesValue = false) (a : Args) :
    readAll a [s] = a.takeSingle s := by
  rw [readAll_cons, if_neg (by simp [hs])]
  cases a.takeSingle s <;> rfl

theorem readAll_single_cons {s : String} (hs : (Word.ofText s).takesValue = false) (a : Args)
    (rest : List String) : readAll a (s :: rest) = readAll a [s] >>= (readAll · rest) := by
  rw [readAll_cons, if_neg (by simp [hs]), readAll_single hs]

theorem readAll_valued {s : String} (hs : (Word.ofText s).takesValue = true) (a : Args) (v : String) :
    readAll a [s, v] = a.takeValue s v := by
  rw [readAll_cons, if_pos hs]
  change a.takeValue s v >>= (readAll · []) = _
  cases a.takeValue s v <;> rfl

theorem readAll_valued_cons {s : String} (hs : (Word.ofText s).takesValue = true) (a : Args)
    (v : String) (rest : List String) :
    readAll a (s :: v :: rest) = readAll a [s, v] >>= (readAll · rest) := by
  rw [readAll_cons, if_pos hs, readAll_valued hs]

/-- Words that are read one way whatever the input is, and leave it as it is. -/
def KeepsInput (ws : List String) : Prop :=
  ∀ (a : Args) (i : Option String),
    readAll { a with input := i } ws = (readAll a ws).map fun b => { b with input := i }

theorem keepsInput_single {s : String} (hs : (Word.ofText s).takesValue = false)
    (hword : Word.ofText s ≠ .operand) : KeepsInput [s] := by
  intro a i
  rw [readAll_single hs, readAll_single hs]
  unfold takeSingle
  cases h : Word.ofText s <;> first | rfl | exact absurd h hword

theorem keepsInput_valued {s : String} (hs : (Word.ofText s).takesValue = true) (v : String) :
    KeepsInput [s, v] := by
  intro a i
  rw [readAll_valued hs, readAll_valued hs]
  unfold takeValue
  cases h : Word.ofText s
  case format => cases PlanFormat.ofName? v <;> rfl
  all_goals rfl

theorem KeepsInput.input_eq {ws : List String} (hk : KeepsInput ws) {a b : Args}
    (h : readAll a ws = .ok b) : b.input = a.input := by
  have hself := hk a a.input
  rw [h] at hself
  have hb : b = { b with input := a.input } := Except.ok.inj hself
  rw [hb]

/-! ### Operands one after the other -/

/-- From an input so far, operands lead to an input: marks of the standard input and then perhaps
the name of a file, or nothing where a file is named already. -/
def Leads (input : Option String) (os : List String) (final : Option String) : Prop :=
  match input with
  | none => (∃ n, os = List.replicate n standardInput ++ final.toList) ∧ final ≠ some standardInput
  | some f => os = [] ∧ final = some f

theorem leads_nil_iff (input final : Option String) : Leads input [] final ↔ final = input := by
  cases input with
  | some f => simp [Leads]
  | none =>
    constructor
    · rintro ⟨⟨n, hn⟩, -⟩
      exact Option.toList_eq_nil_iff.mp (List.append_eq_nil_iff.mp hn.symm).2
    · rintro rfl
      exact ⟨⟨0, rfl⟩, nofun⟩

theorem leads_cons_iff (s : String) (os : List String) (final : Option String) :
    Leads none (s :: os) final ↔
      Leads (if s = standardInput then none else some s) os final := by
  constructor
  · rintro ⟨⟨n, hn⟩, hf⟩
    cases n with
    | zero =>
      cases final with
      | none => cases hn
      | some f =>
        obtain ⟨rfl, rfl⟩ := List.cons.inj hn
        rw [if_neg fun h => hf (congrArg some h)]
        exact ⟨rfl, rfl⟩
    | succ n =>
      rw [List.replicate_succ, List.cons_append] at hn
      obtain ⟨rfl, rfl⟩ := List.cons.inj hn
      rw [if_pos rfl]
      exact ⟨⟨n, rfl⟩, hf⟩
  · intro h
    split_ifs at h with hs
    · obtain ⟨⟨n, rfl⟩, hf⟩ := h
      exact ⟨⟨n + 1, by rw [hs, List.replicate_succ, List.cons_append]⟩, hf⟩
    · obtain ⟨rfl, rfl⟩ := h
      exact ⟨⟨0, rfl⟩, fun h => hs (Option.some.inj h)⟩

/-! ### Arguments as a whole -/

theorem items_cons {s : String} (hs : (Word.ofText s).takesValue = false) (rest : List String) :
    items (s :: rest) = .single s :: items rest := by
  cases rest with
  | nil => rfl
  | cons v rest => rw [items, if_neg (by simp [hs])]

/-- How reading depends on the operands, and on the options with their values. -/
def ReadsBy (argv : List String) : Prop :=
  ∀ a b : Args, readAll a argv = .ok b ↔
    Leads a.input (operands argv) b.input ∧
      readAll { a with input := none } (settings argv) = .ok { b with input := none }

theorem ReadsBy.setting {ws rest : List String} (hrest : ReadsBy rest) (hk : KeepsInput ws)
    (happ : ∀ (a : Args) (more : List String),
      readAll a (ws ++ more) = readAll a ws >>= (readAll · more)) (a b : Args) :
    readAll a (ws ++ rest) = .ok b ↔
      Leads a.input (operands rest) b.input ∧
        readAll { a with input := none } (ws ++ settings rest) = .ok { b with input := none } := by
  rw [happ, happ, hk a none]
  cases hw : readAll a ws with
  | error p =>
    constructor
    · exact nofun
    · rintro ⟨-, h⟩
      cases h
  | ok c =>
    rw [← hk.input_eq hw]
    exact hrest c b

/-- What stands alone is read by the rule if what is behind it is. -/
theorem ReadsBy.single {s : String} {rest : List String} (hrest : ReadsBy rest)
    (hs : (Word.ofText s).takesValue = false) : ReadsBy (s :: rest) := by
  intro a b
  have happ := readAll_single_cons hs
  have hitems := items_cons hs rest
  by_cases hword : Word.ofText s = .operand
  · rw [Item.single, if_pos hword] at hitems
    have ho : operands (s :: rest) = s :: operands rest := by rw [operands, hitems]; rfl
    have hw : settings (s :: rest) = settings rest := by rw [settings, hitems]; rfl
    have htake : readAll a [s] = a.takeOperand s := by rw [readAll_single hs, takeSingle, hword]
    rw [ho, hw, happ, htake, takeOperand]
    cases hi : a.input with
    | some f =>
      constructor
      · exact nofun
      · rintro ⟨⟨h, -⟩, -⟩
        cases h
    | none =>
      rw [leads_cons_iff]
      exact hrest _ b
  · rw [Item.single, if_neg hword] at hitems
    have ho : operands (s :: rest) = operands rest := by rw [operands, hitems]; rfl
    have hw : settings (s :: rest) = [s] ++ settings rest := by rw [settings, hitems]; rfl
    rw [ho, hw]
    exact hrest.setting (keepsInput_single hs hword) happ a b

theorem readsBy_nil : ReadsBy [] := by
  intro a b
  change Except.ok a = Except.ok b ↔ Leads a.input [] b.input ∧
    Except.ok { a with input := none } =
      (Except.ok { b with input := none } : Except UsageProblem Args)
  rw [leads_nil_iff, Except.ok.injEq, Except.ok.injEq]
  constructor
  · rintro rfl
    exact ⟨rfl, rfl⟩
  · rintro ⟨hi, h⟩
    cases a
    cases b
    simp_all

/-- An option without the value that it takes is refused, by itself as well. -/
theorem readsBy_of_takesValue {s : String} (hs : (Word.ofText s).takesValue = true) :
    ReadsBy [s] := by
  have hrefused (a : Args) : readAll a [s] = .error (.noValue s) := by
    rw [readAll_cons, if_pos hs]
  have hword : Word.ofText s ≠ .operand := fun h => by rw [h] at hs; cases hs
  have hw : settings [s] = [s] := by
    rw [settings, items, Item.single, if_neg hword]
    rfl
  intro a b
  rw [hw, hrefused, hrefused]
  exact ⟨nofun, fun h => nomatch h.2⟩

theorem readsBy (argv : List String) : ReadsBy argv := by
  induction argv using items.induct with
  | case1 => exact readsBy_nil
  | case2 s =>
    by_cases hs : (Word.ofText s).takesValue = true
    · exact readsBy_of_takesValue hs
    · exact readsBy_nil.single (by simpa using hs)
  | case3 s v rest hs ih =>
    intro a b
    have hitems : items (s :: v :: rest) = .setting [s, v] :: items rest := by rw [items, if_pos hs]
    have ho : operands (s :: v :: rest) = operands rest := by rw [operands, hitems]; rfl
    have hw : settings (s :: v :: rest) = [s, v] ++ settings rest := by rw [settings, hitems]; rfl
    rw [ho, hw]
    exact ih.setting (keepsInput_valued hs v) (fun c more => readAll_valued_cons hs c v more) a b
  | case4 s v rest hs ih => exact ih.single (by simpa using hs)

/-- Arguments have a meaning if they can be read, and do not combine building with the other way. -/
theorem parse_eq_ok_iff_readAll (argv : List String) (a : Args) :
    parse argv = .ok a ↔ readAll {} argv = .ok a ∧ a.buildsAndConverts = false := by
  unfold parse
  cases readAll {} argv with
  | error p => exact ⟨nofun, fun h => nomatch h.1⟩
  | ok b =>
    cases hb : b.buildsAndConverts with
    | true =>
      constructor
      · simp [hb, bind, Except.bind, throw, throwThe, MonadExceptOf.throw]
      · rintro ⟨h, hc⟩
        cases h
        rw [hb] at hc
        cases hc
    | false =>
      constructor
      · intro h
        simp only [hb, bind, Except.bind, pure, Except.pure] at h
        cases h
        exact ⟨rfl, hb⟩
      · rintro ⟨h, -⟩
        cases h
        simp [hb, bind, Except.bind, pure, Except.pure]

end Args

/-- Arguments have a meaning exactly if their options with the values have one without the operands,
and of the operands all but the last are marks of the standard input. The last one is the input,
unless it is such a mark as well. -/
theorem parse_eq_ok_iff (argv : List String) (a : Args) :
    Args.parse argv = .ok a ↔
      (∃ n, operands argv = List.replicate n standardInput ++ a.input.toList) ∧
        a.input ≠ some standardInput ∧
        Args.parse (settings argv) = .ok { a with input := none } := by
  rw [Args.parse_eq_ok_iff_readAll, Args.parse_eq_ok_iff_readAll, Args.readsBy argv {} a, and_assoc]
  exact ⟨fun ⟨⟨ho, hf⟩, h⟩ => ⟨ho, hf, h⟩, fun ⟨ho, hf, h⟩ => ⟨⟨ho, hf⟩, h⟩⟩

/-- A file name behind the mark of the standard input is taken, though it is a second operand. -/
theorem exists_two_operands :
    ∃ argv a, Args.parse argv = .ok a ∧ a.help = false ∧ (operands argv).length = 2 :=
  ⟨["-", "plan.json"], { input := some "plan.json" }, by decide, rfl, by decide⟩

end FluentPlan.CommandLine
