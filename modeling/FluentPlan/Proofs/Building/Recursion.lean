import FluentPlan.Proofs.Building.Expansion
import FluentPlan.Proofs.Fault.Misread

/-!
Which recursive helper methods are reported. Reading and storing the arguments of calls reports
none, nor does matching calls with signatures; only a call of a method inside its own body does. So
a program whose build reports recursion has a cycle among its references.
-/

namespace FluentPlan

open Script

/-! ### Reported recursions -/

mutual

/-- The recursions that a problem is about, as lists of names; those of its reasons included. -/
def BuildProblem.recursions : BuildProblem → List (List String)
  | .recursive _ names => [names]
  | .noForm _ _ reasons => BuildProblem.recursionsAll reasons
  | .notACall .. | .takesNothing .. | .unknownMethod .. | .argumentAfterChild ..
  | .takesNoChildren .. | .childrenOnlyChained .. | .arity .. | .noModifier .. | .leavesUnset ..
  | .setsTo .. | .mismatch .. | .badValue .. => []

def BuildProblem.recursionsAll : List BuildProblem → List (List String)
  | [] => []
  | p :: ps => p.recursions ++ BuildProblem.recursionsAll ps

end

/-- The recursions that a failure reports. -/
def Failure.recursions : Failure → List (List String)
  | .problem (.build p) _ => p.recursions
  | _ => []

theorem BuildProblem.mem_recursionsAll {names : List String} {ps : List BuildProblem} :
    names ∈ BuildProblem.recursionsAll ps ↔ ∃ p ∈ ps, names ∈ p.recursions := by
  induction ps with
  | nil => simp [recursionsAll]
  | cons p ps ih => simp [recursionsAll, ih]

/-- A computation that reports only recursions of some sort. -/
def ReportsOnly {α : Type} (P : List String → Prop) (x : Except Failure α) : Prop :=
  ∀ f, x = .error f → ∀ names ∈ f.recursions, P names

namespace ReportsOnly

variable {α β : Type} {P : List String → Prop}

theorem ok (a : α) : ReportsOnly P (.ok a : Except Failure α) := fun _ h => nomatch h

theorem fault (f : Fault) : ReportsOnly P (.error (.fault f) : Except Failure α) := by
  intro g h
  cases h
  exact nofun

theorem failed {p : BuildProblem} (h : ∀ names ∈ p.recursions, P names) :
    ReportsOnly P (Build.failed p : Except Failure α) := by
  intro f hf
  cases hf
  exact h

theorem of_eq {x : Except Failure α} (hx : ReportsOnly P x) {f : Failure} (h : x = .error f) :
    ReportsOnly P (.error f : Except Failure β) := by
  intro g hg
  cases hg
  exact hx f h

theorem bind {x : Except Failure α} {f : α → Except Failure β} (hx : ReportsOnly P x)
    (hf : ∀ a, x = .ok a → ReportsOnly P (f a)) : ReportsOnly P (x >>= f) := by
  cases x with
  | error e =>
    intro g h
    cases h
    exact hx _ rfl
  | ok a => exact hf a rfl

end ReportsOnly

/-! ### Arguments and properties -/

namespace Param

variable {P : List String → Prop}

theorem reportsOnly_mismatch {α : Type} (p : Param) (a : Expr) :
    ReportsOnly P (p.mismatch a : Except Failure α) :=
  .failed (p := .mismatch a.line a.describe p.kind.name p.propText) nofun

theorem reportsOnly_argValue (p : Param) (a : Expr) : ReportsOnly P (p.argValue a) := by
  have hread (m : Misread) : ReportsOnly P
      (.error (m.ofArgument a.line p.propText) : Except Failure (Option Value)) := by
    cases m with
    | problem q => exact .failed (p := .badValue a.line p.propText q) (List.forall_mem_nil _)
    | fault f => exact .fault f
  have hduration (ms : Int) : ReportsOnly P
      (if Duration.inRange ms then .ok (some (.duration ms)) else .error (.fault .durationRange) :
        Except Failure (Option Value)) := by
    split
    · exact .ok _
    · exact .fault _
  unfold argValue
  dsimp only
  split
  · exact .ok _
  · split
    · split
      · exact .ok _
      · exact hread _
    · exact p.reportsOnly_mismatch _
  · split
    · split
      · exact .ok _
      · exact hread _
    · exact p.reportsOnly_mismatch _
  · split
    · exact .ok _
    · exact hread _
  · split
    · exact .ok _
    · exact hread _
  · exact .ok _
  · exact .ok _
  · exact .ok _
  · exact .ok _
  · exact .ok _
  · exact .ok _
  · split
    · exact hduration _
    · exact p.reportsOnly_mismatch _
  · split
    · exact hduration _
    · exact p.reportsOnly_mismatch _
  · split
    · exact .ok _
    · exact p.reportsOnly_mismatch _
  · split
    · exact .ok _
    · split
      · exact .ok _
      · exact hread _
    · exact p.reportsOnly_mismatch _
  · split
    · exact .ok _
    · exact p.reportsOnly_mismatch _
  · exact p.reportsOnly_mismatch _

theorem reportsOnly_fromArg (p : Param) (a : Expr) : ReportsOnly P (p.fromArg a) := by
  unfold fromArg
  split
  · split
    · exact .ok _
    · exact p.reportsOnly_argValue _
  · exact p.reportsOnly_argValue _

theorem reportsOnly_fromArgs (p : Param) (as : List Expr) : ReportsOnly P (p.fromArgs as) := by
  have hgo (as : List Expr) (acc : List String) : ReportsOnly P (fromArgs.go p as acc) := by
    induction as generalizing acc with
    | nil => exact .ok _
    | cons a as ih =>
      cases a with
      | text pos s => exact ih (s :: acc)
      | _ => exact p.reportsOnly_mismatch _
  exact hgo as []

theorem reportsOnly_store (p : Param) (v : Option Value) (props : Properties) (lead : String) :
    ReportsOnly P (p.store v props lead) := by
  have hreport {α : Type} {x : Except Failure α} (hx : Unreported x) : ReportsOnly P x := by
    intro f hf
    cases f with
    | problem q path => exact absurd hf (hx q path)
    | fault f => exact nofun
  unfold store
  split
  · split
    · exact .ok _
    · exact .ok _
    · split
      · exact .fault _
      · exact .ok _
  · refine (hreport (unreported_offset? _ _ _ _)).bind fun d _ => ?_
    exact (hreport (unreported_moveBy _ _)).bind fun _ _ => .ok _
  · exact .ok _

end Param

namespace Build

section

variable {P : List String → Prop}

theorem reportsOnly_divide (as : List Operand) : ReportsOnly P (divide as) := by
  induction as with
  | nil => exact .ok _
  | cons a as ih =>
    unfold divide
    split
    · split
      · exact .failed nofun
      · exact .ok _
    · exact ih.bind fun _ _ => .ok _

theorem reportsOnly_bindValues (taken : Param → Bool) (ps : List Param) (args : List Expr) :
    ReportsOnly P (bindValues taken ps args) := by
  induction ps generalizing args with
  | nil => exact .ok _
  | cons p ps ih =>
    unfold bindValues
    split
    · exact (ih args).bind fun _ _ => .ok _
    · split
      · exact (p.reportsOnly_fromArgs args).bind fun _ _ => .ok _
      · split
        · exact (ih []).bind fun _ _ => .ok _
        · exact (p.reportsOnly_fromArg _).bind fun v _ => (ih _).bind fun _ _ => .ok _

theorem reportsOnly_bindAll (ps : List Param) (line : Nat) (name : String) (args : List Expr) :
    ReportsOnly P (bindAll ps line name args) := by
  unfold bindAll
  split
  · exact reportsOnly_bindValues _ ps args
  · exact .failed nofun

theorem reportsOnly_bindScalars (ps : List Param) (line : Nat) (name : String) (args : List Expr) :
    ReportsOnly P (bindScalars ps line name args) := by
  have hfull := reportsOnly_bindValues (P := P) (fun _ => true) ps args
  have hbrief := reportsOnly_bindValues (P := P) (·.mandatory) ps args
  unfold bindScalars
  dsimp only
  split
  · split
    · exact .ok _
    · next f hf =>
      split
      · split
        · exact .ok _
        · next g hg =>
          split
          · exact hfull.of_eq hf
          · exact hbrief.of_eq hg
      · exact hfull.of_eq hf
  · split
    · exact hbrief
    · exact .failed nofun

theorem reportsOnly_findModifier (s : Signature) (line : Nat) (name : String) :
    ReportsOnly P (findModifier s line name) := by
  unfold findModifier
  split
  · exact .ok _
  · exact .failed nofun

theorem reportsOnly_checkChain (s : Signature) (cs : List (Invocation Operand)) :
    ReportsOnly P (checkChain s cs) := by
  induction cs with
  | nil => exact .ok _
  | cons c cs ih =>
    unfold checkChain
    dsimp only
    split
    · exact (reportsOnly_findModifier _ _ _).bind fun _ _ => ih
    · split
      · exact (ReportsOnly.failed (List.forall_mem_nil _)).bind fun _ _ => ih
      · exact ih

theorem reportsOnly_storeAll (values : List (Param × Option Value)) (lead : String)
    (props : Properties) : ReportsOnly P (storeAll lead values props) := by
  induction values generalizing props with
  | nil => exact .ok _
  | cons x values ih => exact (x.1.reportsOnly_store _ _ _).bind fun _ _ => ih _

theorem reportsOnly_applyModifier (m : Modifier) (c : Invocation Operand) (d : Draft) :
    ReportsOnly P (applyModifier m c d) := by
  have hargs : ReportsOnly P (applyArgs m c d) := by
    refine (reportsOnly_bindAll _ _ _ _).bind fun values _ => ?_
    dsimp only
    split
    · exact (reportsOnly_storeAll _ _ _).bind fun _ _ => .ok _
    · exact (reportsOnly_storeAll _ _ _).bind fun _ _ => .ok _
  unfold applyModifier
  dsimp only
  split
  · exact (Param.reportsOnly_store _ _ _ _).bind fun _ _ => .ok _
  · exact hargs.bind fun _ _ => .ok _

theorem reportsOnly_storeUncalled (called : List String) (ms : List Modifier) (props : Properties) :
    ReportsOnly P (storeUncalled called ms props) := by
  induction ms generalizing props with
  | nil => exact .ok _
  | cons m ms ih =>
    unfold storeUncalled
    split
    · exact ih _
    · exact (reportsOnly_storeAll _ _ _).bind fun _ _ => ih _

theorem reportsOnly_checkLeading (s : Signature) (as : List Operand) :
    ReportsOnly P (checkLeading s as) := by
  unfold checkLeading
  split
  · exact .ok _
  · split_ifs
    · exact .failed nofun
    · exact .failed nofun
    · exact .ok _

/-! ### Elements -/

theorem reportsOnly_elements {as : List Operand}
    (h : ∀ a ∈ as, ReportsOnly P (a.element ()).outcome) : ReportsOnly P (elements as).outcome := by
  induction as with
  | nil => exact .ok _
  | cons a as ih =>
    obtain ⟨ha, h⟩ := List.forall_mem_cons.mp h
    unfold elements
    simp only [Logged.outcome_bind]
    exact ha.bind fun _ _ => (ih h).bind fun _ _ => .ok _

theorem reportsOnly_applyChain {s : Signature} {cs : List (Invocation Operand)}
    (h : ∀ a ∈ chainedChildren cs, ReportsOnly P (a.element ()).outcome) (d : Draft) :
    ReportsOnly P (applyChain s cs d).outcome := by
  induction cs generalizing d with
  | nil => exact .ok _
  | cons c cs ih =>
    have hrest : ∀ a ∈ chainedChildren cs, ReportsOnly P (a.element ()).outcome := by
      intro a ha
      obtain ⟨c', hc', hn, ha⟩ := mem_chainedChildren.mp ha
      exact h a (mem_chainedChildren.mpr ⟨c', List.mem_cons_of_mem c hc', hn, ha⟩)
    unfold applyChain
    split
    · next hn =>
      simp only [Logged.outcome_bind]
      have hargs : ReportsOnly P (elements c.args).outcome := reportsOnly_elements fun a ha =>
        h a (mem_chainedChildren.mpr ⟨c, List.mem_cons_self, hn, ha⟩)
      exact hargs.bind fun _ _ => (ih hrest d).bind fun _ _ => .ok _
    · simp only [Logged.outcome_bind, Logged.outcome_ofExcept]
      refine (reportsOnly_findModifier _ _ _).bind fun m _ => ?_
      exact (reportsOnly_applyModifier m c d).bind fun d _ => ih hrest d

section

variable {children : List Operand} (hk : ∀ a ∈ children, ReportsOnly P (a.element ()).outcome)
  {chain : List (Invocation Operand)}
  (hc : ∀ a ∈ chainedChildren chain, ReportsOnly P (a.element ()).outcome)

include hk hc

theorem reportsOnly_construct (s : Signature) (values : List (Param × Option Value)) :
    ReportsOnly P (construct s values children chain).outcome := by
  unfold construct
  simp only [Logged.outcome_bind, Logged.outcome_ofExcept]
  refine (reportsOnly_storeAll _ _ _).bind fun props _ => ?_
  refine (reportsOnly_checkLeading s children).bind fun _ _ => ?_
  refine (reportsOnly_elements hk).bind fun first _ => ?_
  refine (reportsOnly_applyChain hc _).bind fun applied _ => ?_
  exact (reportsOnly_storeUncalled _ _ _).bind fun _ _ => .ok _

/-- The reasons against the forms of a method report no recursion of their own. -/
theorem reportsOnly_tryForms (pos : Position) (name : String) (leading : List Expr)
    {failures : List BuildProblem} (hf : ∀ names ∈ BuildProblem.recursionsAll failures, P names)
    (forms : List Signature) :
    ReportsOnly P (tryForms pos name leading children chain failures forms).outcome := by
  have hmore {failures : List BuildProblem} {q : BuildProblem}
      (hf : ∀ names ∈ BuildProblem.recursionsAll failures, P names)
      (hq : ∀ names ∈ q.recursions, P names) :
      ∀ names ∈ BuildProblem.recursionsAll (failures ++ [q]), P names := by
    intro names hn
    obtain ⟨q', hq', hn⟩ := BuildProblem.mem_recursionsAll.mp hn
    rcases List.mem_append.mp hq' with hq' | hq'
    · exact hf names (BuildProblem.mem_recursionsAll.mpr ⟨q', hq', hn⟩)
    · exact hq names (List.mem_singleton.mp hq' ▸ hn)
  induction forms generalizing failures with
  | nil =>
    rcases failures with _ | ⟨q, _ | ⟨q', failures⟩⟩
    · exact .failed (List.forall_mem_nil _)
    · exact .failed fun names hn =>
        hf names (BuildProblem.mem_recursionsAll.mpr ⟨q, List.mem_cons_self, hn⟩)
    · exact .failed hf
  | cons s forms ih =>
    have hbound : ReportsOnly P (do
        let values ← bindScalars s.scalarParams pos.line name leading
        checkChain s chain
        return values) :=
      (reportsOnly_bindScalars _ _ _ _).bind fun _ _ =>
        (reportsOnly_checkChain s chain).bind fun _ _ => .ok _
    rw [tryForms]
    split
    · next f hfail =>
      split
      · next q hq =>
        refine ih (hmore hf fun names hn => hbound f hfail names ?_)
        unfold buildProblem? at hq
        split at hq
        · cases hq
          exact hn
        · cases hq
      · exact hbound.of_eq hfail
    · next values _ =>
      rw [Logged.outcome_bind]
      refine (reportsOnly_construct hk hc s values).bind fun e _ => ?_
      split
      · refine ih (hmore hf ?_)
        unfold unmetProblem
        split <;> exact List.forall_mem_nil _
      · exact .ok _

end

theorem reportsOnly_ofCall {r : Registry} {head : Invocation Operand}
    (hh : ∀ a ∈ head.args, a.isChild = true → ReportsOnly P (a.element ()).outcome)
    {chain : List (Invocation Operand)}
    (hc : ∀ a ∈ chainedChildren chain, ReportsOnly P (a.element ()).outcome) :
    ReportsOnly P (ofCall r head chain).outcome := by
  have hmade : ReportsOnly P (makeCall r head chain).outcome := by
    unfold makeCall
    split
    · exact .failed nofun
    · simp only [Logged.outcome_bind, Logged.outcome_ofExcept]
      refine (reportsOnly_divide _).bind fun divided hdiv => ?_
      have hk : ∀ a ∈ divided.2, ReportsOnly P (a.element ()).outcome := by
        rw [children_of_divide hdiv]
        exact fun a ha => hh a (List.mem_of_mem_filter ha) (List.mem_filter.mp ha).2
      exact reportsOnly_tryForms hk hc _ _ _ (by simp [BuildProblem.recursionsAll]) _
  unfold ofCall
  rw [Logged.outcome_bind]
  exact hmade.bind fun made _ => .ok made.2

end

/-! ### Programs -/

/-- A list of names that a program expands inside each other, one of them twice. -/
def IsRepeated (p : Program) (names : List String) : Prop :=
  (∃ body, Expanding p names body) ∧ ¬ names.Nodup

section

variable {r : Registry} {p : Program} {stack : List String} {expand : Definition → Logged Element}

/-- Whether bodies report only repeated expansions where the program expands them. -/
def ExpandsRepeated (p : Program) (stack : List String) (expand : Definition → Logged Element) :
    Prop :=
  ∀ d, Expanding p (stack ++ [d.name]) d.body → ReportsOnly (IsRepeated p) (expand d).outcome

/-- Whether an expression reports only repeated expansions where the program evaluates it. -/
def ReportsRepeated (s : Scope) (x : Expr) : Prop :=
  Expanding s.program s.stack x → ReportsOnly (IsRepeated s.program) (evaluate s x).outcome

theorem reportsRepeated_call (he : ExpandsRepeated p stack expand) {pos : Position} {name : String}
    {args : List Expr} (ha : ∀ x ∈ args, ReportsRepeated ⟨r, p, stack, expand⟩ x)
    {chain : List (Invocation Expr)}
    (hc : ∀ c ∈ chain, ∀ x ∈ c.args, ReportsRepeated ⟨r, p, stack, expand⟩ x) :
    ReportsRepeated ⟨r, p, stack, expand⟩ (.call ⟨pos, name, args⟩ chain) := by
  intro h
  rw [evaluate]
  unfold Scope.call
  split
  · next d hd =>
    split_ifs with hplain hstack
    · exact .failed nofun
    all_goals
      obtain ⟨rfl, rfl⟩ := eq_nil_of_plain hplain
      have hbody := h.body hd
    · refine .failed fun names hn => ?_
      rw [List.mem_singleton.mp hn]
      refine ⟨⟨_, hbody⟩, fun hnodup => ?_⟩
      have hmem : name ∈ stack := by simpa using hstack
      exact (List.nodup_append.mp hnodup).2.2 name hmem name (List.mem_singleton_self name) rfl
    · obtain rfl := Program.name_of_definition? hd
      exact he d hbody
  · refine reportsOnly_ofCall (fun a ham hchild => ?_) fun a ham => ?_
    · rw [operands_eq_map] at ham
      obtain ⟨x, hx, rfl⟩ := List.mem_map.mp ham
      exact ha x hx (h.child (List.mem_append_left _ (List.mem_filter.mpr ⟨hx, by
        rwa [← isChild_eq_isElement ⟨x, fun _ => evaluate ⟨r, p, stack, expand⟩ x⟩]⟩)))
    · rw [chainedChildren_invocations, operands_eq_map] at ham
      obtain ⟨x, hx, rfl⟩ := List.mem_map.mp ham
      obtain ⟨c, hcm, -, hxc⟩ := mem_chainedChildren.mp hx
      exact hc c hcm x hxc (h.child (List.mem_append_right _ hx))

mutual

theorem reportsRepeated (he : ExpandsRepeated p stack expand) :
    (x : Expr) → ReportsRepeated ⟨r, p, stack, expand⟩ x
  | .call ⟨_, _, args⟩ chain =>
    reportsRepeated_call he (reportsRepeated_args he args) (reportsRepeated_chain he chain)
  | .text .. | .number .. | .bool .. | .null _ | .name .. => fun _ => .failed nofun

theorem reportsRepeated_args (he : ExpandsRepeated p stack expand) :
    (xs : List Expr) → ∀ x ∈ xs, ReportsRepeated ⟨r, p, stack, expand⟩ x
  | [] => fun _ hx => absurd hx List.not_mem_nil
  | x :: xs => List.forall_mem_cons.mpr ⟨reportsRepeated he x, reportsRepeated_args he xs⟩

theorem reportsRepeated_chain (he : ExpandsRepeated p stack expand) :
    (cs : List (Invocation Expr)) →
      ∀ c ∈ cs, ∀ x ∈ c.args, ReportsRepeated ⟨r, p, stack, expand⟩ x
  | [] => fun _ hc => absurd hc List.not_mem_nil
  | ⟨_, _, args⟩ :: cs =>
    List.forall_mem_cons.mpr ⟨reportsRepeated_args he args, reportsRepeated_chain he cs⟩

end

end

/-- A program reports a recursion only where it expands a helper method inside its own expansion. -/
theorem isRepeated_of_ofProgram {r : Registry} {p : Program} {f : Failure} {names : List String}
    (h : (ofProgram r p).outcome = .error f) (hn : names ∈ f.recursions) : IsRepeated p names := by
  -- Nothing is asked for below the bodies, so that what stands there may as well report nothing.
  let bottom : List String → Definition → Logged Element := fun _ _ => .fail (.fault .alreadyRun)
  have hfrom (depth : Nat) (stack : List String) (x : Expr) (hx : Expanding p stack x) :
      ReportsOnly (IsRepeated p) (evaluateFrom r p bottom depth stack x).outcome := by
    induction depth generalizing stack x with
    | zero => exact reportsRepeated (fun _ _ => .fault _) x hx
    | succ depth ih => exact reportsRepeated (fun d hd => ih _ d.body hd) x hx
  rw [← evaluateFrom_eq_ofProgram r p bottom (Nat.le_refl _)] at h
  exact hfrom _ [] p.expr .main f h names hn

/-- Building ends: bodies of helper methods nest no deeper than there are methods, so that it does
not matter what stands below. A recursion is reported only where a method is expanded inside its own
expansion, and then references lead from the program's expression to a cycle. Where an element is
built, no method is, and all that is evaluated inside the bodies builds elements as well. -/
theorem expansion_of_ofProgram (r : Registry) (p : Program) :
    (∀ bottom depth, p.definitions.length ≤ depth →
      evaluateFrom r p bottom depth [] p.expr = ofProgram r p) ∧
    (∀ f names, (ofProgram r p).outcome = .error f → names ∈ f.recursions →
      IsRepeated p names ∧ p.IsRecursive) ∧
    ∀ e, (ofProgram r p).outcome = .ok e → ∀ names x, Expanding p names x →
      names.Nodup ∧ ∃ depth e, (evaluateIn r p depth names x).outcome = .ok e := by
  refine ⟨fun bottom _ hd => evaluateFrom_eq_ofProgram r p bottom hd, fun f names hf hn => ?_,
    fun e he names x hx => nodup_of_ofProgram he hx⟩
  have hrep := isRepeated_of_ofProgram hf hn
  obtain ⟨body, hbody⟩ := hrep.1
  exact ⟨hrep, hbody.nodup_or_isRecursive.resolve_left hrep.2⟩

/-- A call of a method without arguments. -/
def bareCall (name : String) : Expr := .call ⟨.start, name, []⟩ []

/-- A program with a helper method for a processor, and one that calls it. -/
def nestedProgram : Program :=
  ⟨[⟨"probe", "DslTestElement", bareCall "debugPostProcessor", 1⟩,
      ⟨"checked", "DslTestElement", bareCall "probe", 2⟩], bareCall "checked"⟩

/-- A program with two helper methods that call each other. -/
def circularProgram : Program :=
  ⟨[⟨"here", "DslTestElement", bareCall "there", 1⟩,
      ⟨"there", "DslTestElement", bareCall "here", 2⟩], bareCall "here"⟩

/-- The program with nested methods builds, expanding none inside itself; the one with methods that
call each other has a cycle, which is what it reports. -/
theorem expansion_of_ofProgram_nestedProgram :
    ((∃ e, (ofProgram .standard nestedProgram).outcome = .ok e) ∧
      Expanding nestedProgram ["checked", "probe"] (bareCall "debugPostProcessor") ∧
      ["checked", "probe"].Nodup ∧
      ∀ bottom, evaluateFrom .standard nestedProgram bottom 2 [] nestedProgram.expr =
        ofProgram .standard nestedProgram) ∧
    (∃ f, (ofProgram .standard circularProgram).outcome = .error f ∧
      ["here", "there", "here"] ∈ f.recursions) ∧ circularProgram.IsRecursive := by
  have hbuilt : (ofProgram .standard nestedProgram).outcome =
      .ok ⟨"DebugPostProcessor", some "Debug PostProcessor", true, .empty, []⟩ :=
    ofCall_of_first (s := Catalog.Processor.debugPostProcessor) rfl rfl rfl rfl rfl
      ((Signature.unmet?_eq_none_iff _ _).mpr ⟨rfl, rfl⟩)
  have hchecked : Expanding nestedProgram ["checked"] (bareCall "probe") :=
    @Expanding.body _ [] .start "checked" ⟨"checked", _, _, 2⟩ .main rfl
  have hprobe : Expanding nestedProgram ["checked", "probe"] (bareCall "debugPostProcessor") :=
    @Expanding.body _ ["checked"] .start "probe" ⟨"probe", _, _, 1⟩ hchecked rfl
  have hreport : (ofProgram .standard circularProgram).outcome =
      .error (problem (.recursive 1 ["here", "there", "here"])) := rfl
  have hmem : ["here", "there", "here"] ∈
      (problem (.recursive 1 ["here", "there", "here"])).recursions := List.mem_cons_self
  obtain ⟨hdepth, -, hnodup⟩ := expansion_of_ofProgram .standard nestedProgram
  obtain ⟨-, hrecursive, -⟩ := expansion_of_ofProgram .standard circularProgram
  exact ⟨⟨⟨_, hbuilt⟩, hprobe, (hnodup _ hbuilt _ _ hprobe).1,
      fun bottom => hdepth bottom 2 (by decide)⟩,
    ⟨_, hreport, hmem⟩, (hrecursive _ _ hreport hmem).2⟩

end Build

end FluentPlan
