import FluentPlan.Json.Value
import FluentPlan.Script.Token

/-!
Everything that can go wrong, by cause. A `Problem` is reported to the user, with the path of the
element it concerns where there is one; a `Fault` is an operation that has no answer and that
nothing along the way turns into a report.
-/

namespace FluentPlan

open Text Script

/-- Why a document holds no plan. -/
inductive SchemaProblem where
  | notAnObject
  | noKind
  | nameNotText
  | enabledNotBool
  | propertiesNotObject
  | propertyNotText (key : String)
  | childrenNotList
  | unknownKeys (keys : List String)
  | repeatedKey (key : String)
  | malformedJson (line col : Nat) (problem : Json.Problem)
  | malformedMarkup
  | wrongRoot (tag : String)
  | noTopTree
  | planCount (count : Nat)
  | treeWithoutElement
  | unknownFormat (name : String)
deriving Repr

namespace SchemaProblem

def message : SchemaProblem → String
  | notAnObject => "node must be an object"
  | noKind => "node is missing a discriminator"
  | nameNotText => "node name must be a string"
  | enabledNotBool => "'enabled' must be a boolean"
  | propertiesNotObject => "'properties' must be an object"
  | propertyNotText key => "property '" ++ key ++ "' must have a string value"
  | childrenNotList => "'children' must be a list"
  | unknownKeys keys => "unknown node keys: " ++ String.intercalate ", " keys
  | repeatedKey key => "duplicate key '" ++ key ++ "'"
  | malformedJson line col p =>
    "invalid JSON at line " ++ toString line ++ " col " ++ toString col ++ ": " ++ p.message
  | malformedMarkup => "invalid JMX"
  | wrongRoot tag => "JMX root must be <jmeterTestPlan>, got <" ++ tag ++ ">"
  | noTopTree => "JMX document has no top-level hashTree"
  | planCount count => "JMX document must hold exactly one test plan, found " ++ toString count
  | treeWithoutElement => "hashTree without a preceding element"
  | unknownFormat name => "unknown input format '" ++ name ++ "'"

end SchemaProblem

/-- Why no signature reconstructs an element. -/
inductive ResolutionProblem where
  | unregistered
  | refused
  | missing (key : String)
  | valued (key value : String)
  | childOf (method : String)
deriving Repr

namespace ResolutionProblem

def message (kind : String) : ResolutionProblem → String
  | unregistered => "no builder registered for '" ++ kind ++ "'"
  | refused => "no builder for '" ++ kind ++ "' accepts this element"
  | missing key =>
    "no builder for '" ++ kind ++ "' accepts this element (missing property '" ++ key ++ "')"
  | valued key value =>
    "no builder for '" ++ kind ++ "' accepts this element (property '" ++ key ++ "' = " ++
      quoted value ++ ")"
  | childOf method => "'" ++ method ++ "' does not accept children"

/-- The property that decided. -/
def key? : ResolutionProblem → Option String
  | missing key | valued key _ => some key
  | _ => none

end ResolutionProblem

/-- Why a signature is not registered. -/
inductive RegistrationProblem where
  | sealed
  | unknownCategory (category : String)
  | unknownMode (mode : String)
deriving Repr

namespace RegistrationProblem

def message (method : String) : RegistrationProblem → String
  | sealed => "cannot register '" ++ method ++ "': registry is sealed after first conversion"
  | unknownCategory category =>
    "signature '" ++ method ++ "' has unknown category '" ++ category ++ "'"
  | unknownMode mode => "signature '" ++ method ++ "' has unknown children mode '" ++ mode ++ "'"

end RegistrationProblem

/-- Why a raw text is no value of a parameter. -/
inductive ValueProblem where
  | notABool
  | notAnInteger
  | outOfRange
  | notANumber (raw : String)
  | notFinite
  | notWhole (unit : String)
  | unknownMember (enum : String)
  | unknownCharset
  | brokenCharset
deriving Repr

namespace ValueProblem

def message : ValueProblem → String
  | notABool => "expected true or false"
  | notAnInteger => "not an integer"
  | outOfRange => "out of range"
  | notANumber raw => "could not convert string to float: " ++ quoted raw
  | notFinite => "not a finite number"
  | notWhole unit => "not a whole number of " ++ unit
  | unknownMember enum => "unknown " ++ enum ++ " property value"
  | unknownCharset => "unknown charset"
  | brokenCharset => "embedded null character"

end ValueProblem

/-- What is wrong with conversion options. -/
inductive OptionsProblem where
  | unknownKey (key : String)
  | notTexts (key : String)
  | notDistinct (key : String)
  | wrongType (key type : String)
  | badIndent
  | malformed
  | unreadable (reason : String)
deriving Repr

namespace OptionsProblem

def message : OptionsProblem → String
  | unknownKey key => "unknown option '" ++ key ++ "'"
  | notTexts key => "'" ++ key ++ "' must be a list of strings"
  | notDistinct key => "'" ++ key ++ "' must list distinct categories"
  | wrongType key type => "'" ++ key ++ "' must be of type " ++ type
  | badIndent => "'indent' must only contain spaces or tabs"
  | malformed => "invalid TOML"
  | unreadable reason => reason

end OptionsProblem

/-- Why a source text has no tokens. -/
inductive LexProblem where
  | openComment
  | openBlock
  | blockOnOneLine
  | openText
  | emptyExponent
  | unknownEscape (c : Char)
  | endInEscape
  | unexpected (c : Char)
deriving DecidableEq, Repr

namespace LexProblem

def message : LexProblem → String
  | openComment => "unterminated block comment"
  | openBlock => "unterminated text block"
  | blockOnOneLine => "text block must start on a new line"
  | openText => "unterminated string literal"
  | emptyExponent => "invalid float exponent"
  | unknownEscape c => "invalid escape: \\" ++ String.singleton c
  | endInEscape => "unexpected end of string in escape"
  | unexpected c => "unexpected character " ++ quoted (String.singleton c)

end LexProblem

/-- Why tokens form no program. -/
inductive ParseProblem where
  | expected (what : String) (got : Token)
  | numberAfterMinus
  | unexpected (got : Token)
  | afterExpression (got : Token)
  | chainOnValue
  | repeatedDefinition (name : String)
deriving DecidableEq, Repr

namespace ParseProblem

def message : ParseProblem → String
  | expected what got => "expected " ++ what ++ ", got " ++ got.shown
  | numberAfterMinus => "expected number after '-'"
  | unexpected got => "unexpected " ++ got.shown
  | afterExpression got => "unexpected " ++ got.shown ++ " after expression"
  | chainOnValue => "chained call on a non-call value"
  | repeatedDefinition name => "duplicate definition '" ++ name ++ "'"

end ParseProblem

/-- Why builder calls match no signature, each with the line of the call. -/
inductive BuildProblem where
  | notACall (line : Nat) (got : String)
  | takesNothing (line : Nat) (name : String)
  | recursive (line : Nat) (names : List String)
  | unknownMethod (line : Nat) (name : String)
  | argumentAfterChild (line : Nat)
  | noForm (line : Nat) (name : String) (reasons : List BuildProblem)
  | takesNoChildren (line : Nat) (method : String)
  | childrenOnlyChained (line : Nat) (method : String)
  | arity (line : Nat) (name : String) (count : Nat)
  | noModifier (line : Nat) (method name : String)
  | leavesUnset (line : Nat) (name key : String)
  | setsTo (line : Nat) (name key value : String)
  | mismatch (line : Nat) (got kind prop : String)
  | badValue (line : Nat) (prop : String) (problem : ValueProblem)
deriving Repr

namespace BuildProblem

def atLine (line : Nat) (text : String) : String := "line " ++ toString line ++ ": " ++ text

mutual

def message : BuildProblem → String
  | notACall line got => atLine line ("expected a builder call, got " ++ got)
  | takesNothing line name => atLine line ("'" ++ name ++ "' takes no arguments")
  | recursive line names =>
    atLine line ("recursive definition: " ++ String.intercalate " -> " names)
  | unknownMethod line name => atLine line ("unknown builder method '" ++ name ++ "'")
  | argumentAfterChild line => atLine line "argument after child elements"
  | noForm line name reasons =>
    atLine line ("no form of '" ++ name ++ "' accepts these arguments: " ++
      String.intercalate "; " (messages reasons))
  | takesNoChildren line method => atLine line ("'" ++ method ++ "' does not accept children")
  | childrenOnlyChained line method =>
    atLine line ("'" ++ method ++ "' takes child elements only through children()")
  | arity line name count =>
    atLine line ("'" ++ name ++ "' does not take " ++ toString count ++ " argument(s)")
  | noModifier line method name =>
    atLine line ("'" ++ method ++ "' has no method '" ++ name ++ "'")
  | leavesUnset line name key => atLine line ("'" ++ name ++ "' leaves '" ++ key ++ "' unset")
  | setsTo line name key value =>
    atLine line ("'" ++ name ++ "' sets '" ++ key ++ "' to " ++ quoted value)
  | mismatch line got kind prop =>
    atLine line ("unexpected " ++ got ++ " for " ++ kind ++ " '" ++ prop ++ "'")
  | badValue line prop problem =>
    atLine line ("invalid value for '" ++ prop ++ "': " ++ problem.message)

def messages : List BuildProblem → List String
  | [] => []
  | p :: ps => p.message :: messages ps

end

end BuildProblem

/-- What is reported to the user. -/
inductive Problem where
  | schema (problem : SchemaProblem)
  | unsupported (kind : String) (problem : ResolutionProblem)
  | ambiguous (method existing kind : String)
  | registration (method : String) (problem : RegistrationProblem)
  | value (raw : String) (prop : Option String) (problem : ValueProblem)
  | options (source : String) (problem : OptionsProblem)
  | unranked (categories : List String)
  | lexical (problem : LexProblem) (pos : Position)
  | grammar (problem : ParseProblem) (pos : Position)
  | build (problem : BuildProblem)
deriving Repr

namespace Problem

def atPosition (text : String) (pos : Position) : String :=
  text ++ " at line " ++ toString pos.line ++ " col " ++ toString pos.col

def message : Problem → String
  | schema p => p.message
  | unsupported kind p => p.message kind
  | ambiguous method existing kind =>
    "'" ++ method ++ "' collides with '" ++ existing ++ "' for discriminator '" ++ kind ++ "'"
  | registration method p => p.message method
  | value raw prop p =>
    "invalid value " ++ quoted raw ++ " for property '" ++ prop.getD "None" ++ "': " ++ p.message
  | options source p => source ++ ": " ++ p.message
  | unranked categories =>
    "category_order does not rank registered categories: " ++ String.intercalate ", " categories
  | lexical p pos => atPosition p.message pos
  | grammar p pos => atPosition p.message pos
  | build p => p.message

/-- The words under which the command line announces a problem. -/
def heading : Problem → String
  | schema _ => "schema error"
  | unsupported .. => "unsupported conversion"
  | ambiguous .. => "ambiguous registration"
  | registration .. => "registry error"
  | value .. => "parameter parse error"
  | options .. | unranked _ => "config error"
  | lexical .. => "tokenize error"
  | grammar .. => "parse error"
  | build _ => "build error"

end Problem

/-- An operation without an answer. -/
inductive Fault where
  /-- The digits of a collection index spell no number. -/
  | indexWithoutValue
  /-- A category outside the list is asked for its rank. -/
  | unrankedCategory
  /-- A duration is too long, in either direction. -/
  | durationRange
  /-- A conversion is asked to run a second time. -/
  | alreadyRun
  /-- Child elements are asked for their text as an argument. -/
  | childrenAsArgument
  /-- A value that is no list stands where a list is stored or compared. -/
  | notAList
  /-- One of two charsets to compare is not known. -/
  | unknownCharset
  /-- The options of a document are no table. -/
  | optionsNotATable
  /-- A file name holds a character that none can hold. -/
  | brokenFileName
deriving DecidableEq, Repr

/-- Why an operation fails. -/
inductive Failure where
  | problem (problem : Problem) (path : Option String)
  | fault (fault : Fault)
deriving Repr

namespace Failure

/-- A problem that concerns no element, or none known yet. -/
def report (p : Problem) : Failure := .problem p none

/-- Attaches a path to a problem unless it has one. -/
def withPath (path : String) : Failure → Failure
  | .problem p none => .problem p (some path)
  | f => f

/-- The text of a problem with its path. -/
def format : Failure → String
  | .problem p (some path) =>
    if path.isEmpty then p.message else p.message ++ " (at " ++ path ++ ")"
  | .problem p none => p.message
  | .fault _ => ""

@[simp] theorem withPath_problem_some (path q : String) (p : Problem) :
    withPath path (.problem p (some q)) = .problem p (some q) := rfl

@[simp] theorem withPath_problem_none (path : String) (p : Problem) :
    withPath path (.problem p none) = .problem p (some path) := rfl

@[simp] theorem withPath_fault (path : String) (f : Fault) :
    withPath path (.fault f) = .fault f := rfl

end Failure

end FluentPlan
