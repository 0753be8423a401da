import FluentPlan.CommandLine.Directory
import FluentPlan.Conversion
import FluentPlan.Element.Format
import FluentPlan.Options.Document
import FluentPlan.Script.Build

/-!
The command line. Its arguments say what to read, which way to convert, and where to write. What it
says on the two output channels and its exit code follow from the arguments and what was read.
-/

namespace FluentPlan.CommandLine

def usage : String :=
  "jmdsl [OPTIONS] [INPUT] [-o OUTPUT]\n\n" ++
  "Convert a test plan tree (JSON or JMX) into builder code, or with --build\n" ++
  "turn builder code back into a JSON tree. Reads stdin when INPUT is omitted.\n\n" ++
  "Options:\n" ++
  "  --from FORMAT       Input tree format: json, jmx (default: by extension)\n" ++
  "  --class             Wrap the code in a runnable test class\n" ++
  "  --class-name NAME   Test class name (default: PerformanceTest)\n" ++
  "  --build             Read builder code and write the JSON tree\n" ++
  "  --config FILE       Read conversion options from a TOML file\n" ++
  "  -o, --output FILE   Write output to FILE instead of stdout\n" ++
  "  -v, --verbose       Log debug details to stderr\n" ++
  "  --help              Show this help message\n"

/-! ### Arguments -/

/-- What is wrong with arguments. -/
inductive UsageProblem where
  | noValue (flag : String)
  | unknownFormat (name : String)
  | unknownOption (flag : String)
  | unexpected (operand : String)
  | buildCombined
deriving DecidableEq, Repr

namespace UsageProblem

def message : UsageProblem → String
  | noValue flag => flag ++ " requires an argument"
  | unknownFormat name => "unknown format '" ++ name ++ "', expected json or jmx"
  | unknownOption flag => "unknown option '" ++ flag ++ "'"
  | unexpected operand => "unexpected argument '" ++ operand ++ "'"
  | buildCombined => "--build cannot be combined with --from, --class or --class-name"

end UsageProblem

structure Args where
  format : Option PlanFormat := none
  testClass : Bool := false
  className : Option String := none
  build : Bool := false
  config : Option String := none
  input : Option String := none
  output : Option String := none
  verbose : Bool := false
  help : Bool := false
deriving DecidableEq, Repr, Inhabited

/-- What an argument is. -/
inductive Word where
  | help
  | format
  | testClass
  | className
  | build
  | config
  | output
  | verbose
  | unknown
  | operand
deriving DecidableEq, Repr

/-- The options by their spellings. -/
def spellings : List (String × Word) :=
  [("--help", .help), ("-h", .help), ("--from", .format), ("--class", .testClass),
    ("--class-name", .className), ("--build", .build), ("--config", .config), ("-o", .output),
    ("--output", .output), ("-v", .verbose), ("--verbose", .verbose)]

/-- The name that stands for the standard input. -/
def standardInput : String := "-"

/-- What an argument is by its spelling. -/
def Word.ofText (s : String) : Word :=
  match spellings.lookup s with
  | some w => w
  | none => if s.toList.head? = some '-' && s ≠ standardInput then .unknown else .operand

namespace Args

/-- Takes an operand. The mark of the standard input leaves room for another one. -/
def takeOperand (a : Args) (s : String) : Except UsageProblem Args :=
  match a.input with
  | none => .ok { a with input := if s = standardInput then none else some s }
  | some _ => .error (.unexpected s)

/-- Reads arguments one after the other. -/
def readAll (a : Args) : List String → Except UsageProblem Args
  | [] => .ok a
  | s :: rest =>
    match Word.ofText s, rest with
    | .help, rest => readAll { a with help := true } rest
    | .testClass, rest => readAll { a with testClass := true } rest
    | .build, rest => readAll { a with build := true } rest
    | .verbose, rest => readAll { a with verbose := true } rest
    | .format, v :: rest =>
      match PlanFormat.ofName? v with
      | some f => readAll { a with format := some f } rest
      | none => .error (.unknownFormat v)
    | .className, v :: rest => readAll { a with className := some v } rest
    | .config, v :: rest => readAll { a with config := some v } rest
    | .output, v :: rest => readAll { a with output := some v } rest
    | .format, [] | .className, [] | .config, [] | .output, [] => .error (.noValue s)
    | .unknown, _ => .error (.unknownOption s)
    | .operand, rest =>
      match a.takeOperand s with
      | .ok a => readAll a rest
      | .error p => .error p

/-- Whether building is combined with what concerns the other way only. -/
def buildsAndConverts (a : Args) : Bool :=
  a.build && (a.testClass || a.className.any (fun n => !n.isEmpty) || a.format.isSome)

/-- The meaning of a list of arguments. -/
def parse (argv : List String) : Except UsageProblem Args := do
  let a ← readAll {} argv
  if a.buildsAndConverts then throw .buildCombined
  return a

/-- The options file to read. -/
def configFile (a : Args) : Option String := a.config.filter fun n => !n.isEmpty

/-- The format of the input. -/
def inputFormat (a : Args) : PlanFormat :=
  match a.format, a.input with
  | some f, _ => f
  | none, some name => .ofFileName name
  | none, none => .json

end Args

/-! ### Running -/

/-- Why there is no output. -/
inductive Stop where
  | failure (f : Failure)
  | noInput
  | badEncoding
  | unreadable (name : String) (problem : FileProblem)
deriving Repr

/-- Whether a file name can be given to the system. -/
def isFileName (name : String) : Bool := !name.toList.contains '\x00'

/-- What came of opening a file under a name. -/
def opened (name : String) (result : Except FileProblem ByteArray) : Except Stop ByteArray :=
  if isFileName name then
    match result with
    | .ok bytes => .ok bytes
    | .error p => .error (.unreadable name p)
  else .error (.failure (.fault .brokenFileName))

/-- The options of a file that has been opened. -/
def readOptions (name : String) (result : Except FileProblem ByteArray) : Except Stop Options :=
  let source := plainPath name
  match opened source result with
  | .error (.unreadable _ p) =>
    .error (.failure (.report (.options source (.unreadable (p.describe source)))))
  | .error s => .error s
  | .ok bytes =>
    match String.fromUTF8? bytes with
    | none => .error .badEncoding
    | some text =>
      match Options.ofToml source text with
      | .ok o => .ok o
      | .error f => .error (.failure f)

/-- The options that the arguments ask for. -/
def optionsFor (a : Args) (config : Except FileProblem ByteArray) : Except Stop Options := do
  let o ← match a.configFile with
    | some name => readOptions name config
    | none => pure {}
  return match a.className with
    | some n => { o with className := n }
    | none => o

/-- The text of the input, which must not be blank. -/
def sourceText (a : Args) (input : Except FileProblem ByteArray) : Except Stop String := do
  let bytes ← opened (a.input.getD "") input
  match String.fromUTF8? bytes with
  | none => throw .badEncoding
  | some text => if text.toList.all Text.isBlank then throw .noInput else return text

/-- The element that builder code builds with the default registry. -/
def buildStandard (source : String) : Logged Element := do
  let p ← Logged.ofExcept (Script.parse source)
  Logged.debug .registry ("loaded catalog plugin " ++ Registry.jdbcPlugin)
  Build.ofProgram .standard p

/-- The output for a source text. -/
def convertText (a : Args) (o : Options) (source : String) : Logged String :=
  if a.build then do
    let e ← buildStandard source
    return e.dump
  else do
    let e ← Logged.ofExcept (a.inputFormat.read source)
    let g ← convert o e
    return if a.testClass || a.className.isSome then g.toTestClass o.className o.indent
      else g.toSource

/-- What running comes to: the output or why there is none, and the log. -/
structure Run where
  outcome : Except Stop String
  log : List LogLine

/-- Runs with what was found in the options file and in the input. -/
def run (a : Args) (config input : Except FileProblem ByteArray) : Run :=
  let texts := do
    let o ← optionsFor a config
    let source ← sourceText a input
    return (o, source)
  match texts with
  | .error s => ⟨.error s, []⟩
  | .ok (o, source) =>
    let x := convertText a o source
    ⟨x.outcome.mapError .failure, x.log⟩

/-! ### What is said -/

/-- What the command line says, and its exit code. -/
structure Report where
  exit : Nat
  stdout : String
  stderr : String
deriving DecidableEq, Repr, Inhabited

/-- A line with the name of the program. -/
def say (text : String) : String := "jmdsl: " ++ text ++ "\n"

/-- The report on arguments that mean nothing. -/
def usageReport (p : UsageProblem) : Report := ⟨2, "", say p.message ++ usage⟩

/-- The log lines that show: warnings, and the rest on request. -/
def shownLog (a : Args) (log : List LogLine) : String :=
  String.join ((log.filter fun l => a.verbose || l.warning).map fun l => l.format ++ "\n")

/-- The exit code and the words for a stop, unless it is a fault. -/
def stopReport : Stop → Except Fault (Nat × String)
  | .noInput => .ok (2, say "no input provided")
  | .badEncoding => .ok (1, say "invalid utf-8 in input")
  | .unreadable name p => .ok (1, say (p.reason ++ ": " ++ name))
  | .failure (.fault f) => .error f
  | .failure (.problem p path) =>
    let words := say (p.heading ++ ": " ++ (Failure.problem p path).format)
    match p with
    | .options .. | .unranked _ => .ok (2, words)
    | _ => .ok (1, words)

/-- The line that ends a log. -/
def wroteLine (text : String) : LogLine :=
  ⟨.program, false, "wrote " ++ toString text.length ++ " characters"⟩

/-- The report on a run; `written` says what came of writing the output file. -/
def report (a : Args) (r : Run) (written : Except FileProblem Unit) : Except Fault Report :=
  match r.outcome with
  | .error s => (stopReport s).map fun (exit, words) => ⟨exit, "", shownLog a r.log ++ words⟩
  | .ok text =>
    let done := shownLog a (r.log ++ [wroteLine text])
    match a.output with
    | none => .ok ⟨0, text, done⟩
    | some name =>
      if !isFileName name then .error .brokenFileName
      else match written with
        | .ok () => .ok ⟨0, "", done⟩
        | .error p =>
          let words := say ("cannot write '" ++ name ++ "': " ++ p.describe name)
          .ok ⟨1, "", shownLog a r.log ++ words⟩

/-- The whole command line in a working directory. -/
def execute (d : Directory) (argv : List String) (stdin : ByteArray) :
    Except Fault (Report × Directory) :=
  match Args.parse argv with
  | .error p => .ok (usageReport p, d)
  | .ok a =>
    if a.help then .ok (⟨0, usage, ""⟩, d)
    else
      let config := match a.configFile with
        | some name => d.read (plainPath name)
        | none => .error .missing
      let input := match a.input with
        | some name => d.read name
        | none => .ok stdin
      let r := run a config input
      let written := match r.outcome, a.output with
        | .ok text, some name => d.write name text.toUTF8
        | _, _ => .ok d
      match report a r (written.map fun _ => ()) with
      | .error f => .error f
      | .ok said =>
        match written with
        | .ok d => .ok (said, d)
        | .error _ => .ok (said, d)

end FluentPlan.CommandLine
