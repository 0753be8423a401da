import FluentPlan.Main
import FluentPlan.Proofs.Literal.TextBlock
import FluentPlan.Proofs.Literal.Reading
import FluentPlan.Proofs.Grammar.Derivation
import FluentPlan.Proofs.Grammar.Parsing
import FluentPlan.Proofs.Lexing.Spelling
import FluentPlan.Proofs.Lexing.Numeral
import FluentPlan.Proofs.Code.Argument
import FluentPlan.Proofs.Code.Expression
import FluentPlan.Proofs.Assembly.Outcome
import FluentPlan.Proofs.Assembly.Head
import FluentPlan.Proofs.Param.Kind
import FluentPlan.Proofs.Code.Assembled
import FluentPlan.Proofs.Code.Agreement
import FluentPlan.Proofs.Hoisting.Group
import FluentPlan.Proofs.Hoisting.Name
import FluentPlan.Proofs.Hoisting.Key
import FluentPlan.Proofs.Hoisting.Replace
import FluentPlan.Proofs.Hoisting.Run
import FluentPlan.Proofs.Hoisting.Expansion
import FluentPlan.Proofs.Hoisting.Meaning
import FluentPlan.Proofs.Hoisting.Count
import FluentPlan.Proofs.Hoisting.Minimal
import FluentPlan.Proofs.Hoisting.Naming
import FluentPlan.Proofs.Param.Raw
import FluentPlan.Proofs.Param.Reread
import FluentPlan.Proofs.Param.Echo
import FluentPlan.Proofs.Rebuilding.Entries
import FluentPlan.Proofs.Rebuilding.Region
import FluentPlan.Proofs.Rebuilding.Reading
import FluentPlan.Proofs.Rebuilding.Binding
import FluentPlan.Proofs.Rebuilding.Restorable
import FluentPlan.Proofs.Rebuilding.Chain
import FluentPlan.Proofs.Rebuilding.Construct
import FluentPlan.Proofs.Rebuilding.Own
import FluentPlan.Proofs.Rebuilding.Returned
import FluentPlan.Proofs.Rebuilding.Recalled
import FluentPlan.Proofs.Rebuilding.Repeated
import FluentPlan.Proofs.Rebuilding.Scalars
import FluentPlan.Proofs.Rebuilding.Restored
import FluentPlan.Proofs.Requirement.Import
import FluentPlan.Proofs.Requirement.SimpleName
import FluentPlan.Proofs.Fault.Conversion
import FluentPlan.Proofs.Fault.Parsing
import FluentPlan.Proofs.Fault.Building
import FluentPlan.Proofs.Fault.Within
import FluentPlan.Proofs.Code.Comment
import FluentPlan.Proofs.Code.Disabled
import FluentPlan.Proofs.Rebuilding.Evaluation
import FluentPlan.Proofs.Rebuilding.Look
import FluentPlan.Proofs.Rebuilding.FixedPoint
import FluentPlan.Proofs.Rebuilding.GroupForm
import FluentPlan.Proofs.Rebuilding.Retold
import FluentPlan.Proofs.Rebuilding.Kept
import FluentPlan.Proofs.Rebuilding.Named
import FluentPlan.Proofs.Rebuilding.Form
import FluentPlan.Proofs.Rebuilding.Told
import FluentPlan.Proofs.Rebuilding.Tree
import FluentPlan.Proofs.Rebuilding.RampAndHold
import FluentPlan.Proofs.Rebuilding.Operands
import FluentPlan.Proofs.Rebuilding.Rebuilt
import FluentPlan.Proofs.Rebuilding.Reproduced
import FluentPlan.Proofs.Rebuilding.ThreadGroup
import FluentPlan.Proofs.Param.Offset
import FluentPlan.Proofs.Registration.History
import FluentPlan.Proofs.Building.Written
import FluentPlan.Proofs.Building.Resolution
import FluentPlan.Proofs.Building.Origin
import FluentPlan.Proofs.Building.Readable
import FluentPlan.Proofs.Building.Times
import FluentPlan.Proofs.Building.Convertible
import FluentPlan.Proofs.Number.Rounding
import FluentPlan.Proofs.Number.Shortest
import FluentPlan.Proofs.Number.Text
import FluentPlan.Proofs.Relevance.Reading
import FluentPlan.Proofs.Relevance.Plan
import FluentPlan.Proofs.Assembly.Children
import FluentPlan.Proofs.Registration.Catalog
import FluentPlan.Proofs.Relevance.Order
import FluentPlan.Proofs.Assembly.Standing
import FluentPlan.Proofs.Requirement.Hoisting
import FluentPlan.Proofs.Code.Shift
import FluentPlan.Proofs.Code.TestClass
import FluentPlan.Proofs.Json.Reading
import FluentPlan.Proofs.Json.Record
import FluentPlan.Proofs.Param.Saying
import FluentPlan.Proofs.Rebuilding.Survival
import FluentPlan.Proofs.Rebuilding.Holding
import FluentPlan.Proofs.Building.Chained
import FluentPlan.Proofs.Building.Lasting
import FluentPlan.Proofs.Building.Calls
import FluentPlan.Proofs.Lexing.Name
import FluentPlan.Proofs.Relevance.RampTime
import FluentPlan.Proofs.Number.Comparison
import FluentPlan.Proofs.Code.Method
import FluentPlan.Proofs.Hoisting.Rendering
import FluentPlan.Proofs.Assembly.Lookup
import FluentPlan.Proofs.Assembly.Site
import FluentPlan.Proofs.Document.Flattening
import FluentPlan.Proofs.Document.Orphan
import FluentPlan.Proofs.Document.Tag
import FluentPlan.Proofs.Fault.Misread
import FluentPlan.Proofs.Fault.Path
import FluentPlan.Proofs.CommandLine.Operand
import FluentPlan.Proofs.Grammar.Writing
import FluentPlan.Proofs.Assembly.Entry
import FluentPlan.Proofs.Building.Recursion
import FluentPlan.Proofs.Lexing.LineBreak
import FluentPlan.Proofs.Grammar.Totality
import FluentPlan.Proofs.Code.Helper
import FluentPlan.Proofs.Rebuilding.Helping
