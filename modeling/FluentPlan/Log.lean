import FluentPlan.Failure

/-!
Computations that keep a log. What was logged stays when a later step fails, and the outcome of a
composed computation is the composition of the outcomes.
-/

namespace FluentPlan

/-- The part of the program that logs a line. -/
inductive Logger where
  | program
  | conversion
  | registry
  | assembler
  | hoisting
  | builder
deriving DecidableEq, Repr

namespace Logger

def name : Logger → String
  | program => "jmdsl"
  | conversion => "jmdsl.convert"
  | registry => "jmdsl.catalog.registry"
  | assembler => "jmdsl.middleend.assembler"
  | hoisting => "jmdsl.middleend.hoisting"
  | builder => "jmdsl.forward.build"

end Logger

/-- A line of the log. -/
structure LogLine where
  logger : Logger
  warning : Bool
  text : String
deriving DecidableEq, Repr

namespace LogLine

def format (l : LogLine) : String :=
  l.logger.name ++ ": " ++ (if l.warning then "WARNING" else "DEBUG") ++ ": " ++ l.text

end LogLine

/-- The outcome of a computation and the lines it logged. -/
structure Logged (α : Type) where
  outcome : Except Failure α
  log : List LogLine

namespace Logged

def pure {α : Type} (a : α) : Logged α := ⟨.ok a, []⟩

def bind {α β : Type} (x : Logged α) (f : α → Logged β) : Logged β :=
  match x.outcome with
  | .error e => ⟨.error e, x.log⟩
  | .ok a =>
    let y := f a
    ⟨y.outcome, x.log ++ y.log⟩

instance : Monad Logged where
  pure := pure
  bind := bind

/-- A computation that logs nothing. -/
def ofExcept {α : Type} (x : Except Failure α) : Logged α := ⟨x, []⟩

def fail {α : Type} (e : Failure) : Logged α := ⟨.error e, []⟩

/-- Logs one line of detail. -/
def debug (logger : Logger) (text : String) : Logged Unit := ⟨.ok (), [⟨logger, false, text⟩]⟩

/-- Logs one warning. -/
def warn (logger : Logger) (text : String) : Logged Unit := ⟨.ok (), [⟨logger, true, text⟩]⟩

/-- Changes the failure of a computation. -/
def mapFailure {α : Type} (f : Failure → Failure) (x : Logged α) : Logged α :=
  ⟨x.outcome.mapError f, x.log⟩

@[simp] theorem outcome_pure {α : Type} (a : α) : (Pure.pure a : Logged α).outcome = .ok a := rfl

@[simp] theorem outcome_bind {α β : Type} (x : Logged α) (f : α → Logged β) :
    (x >>= f).outcome = x.outcome >>= fun a => (f a).outcome := by
  change (bind x f).outcome = _
  unfold bind
  cases x.outcome <;> rfl

@[simp] theorem outcome_ofExcept {α : Type} (x : Except Failure α) : (ofExcept x).outcome = x := rfl

@[simp] theorem outcome_fail {α : Type} (e : Failure) : (fail e : Logged α).outcome = .error e :=
  rfl

@[simp] theorem outcome_debug (logger : Logger) (text : String) :
    (debug logger text).outcome = .ok () := rfl

@[simp] theorem outcome_warn (logger : Logger) (text : String) :
    (warn logger text).outcome = .ok () := rfl

@[simp] theorem outcome_mapFailure {α : Type} (f : Failure → Failure) (x : Logged α) :
    (x.mapFailure f).outcome = x.outcome.mapError f := rfl

end Logged

end FluentPlan
