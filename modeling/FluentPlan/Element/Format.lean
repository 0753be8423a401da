import FluentPlan.Element.Document
import FluentPlan.Element.Record
import FluentPlan.Text.Lower

/-!
The formats in which plans are read.
-/

namespace FluentPlan

inductive PlanFormat where
  | json
  | markup
deriving DecidableEq, Repr, Inhabited

namespace PlanFormat

def name : PlanFormat → String
  | json => "json"
  | markup => "jmx"

def ofName? (name : String) : Option PlanFormat :=
  if name = "json" then some json else if name = "jmx" then some markup else none

/-- The format that the end of a file name shows, in any case. -/
def ofFileName (name : String) : PlanFormat :=
  if ".jmx".toList.isSuffixOf (name.toList.flatMap Text.lower) then markup else json

/-- The element that a text in a format holds. -/
def read : PlanFormat → String → Except Failure Element
  | json, text => Element.ofText text
  | markup, text => Element.ofMarkupText text

/-- The element that a text holds in the format of a given name. -/
def readAs (format : String) (text : String) : Except Failure Element :=
  match ofName? format with
  | some f => f.read text
  | none => .error (.report (.schema (.unknownFormat format)))

end PlanFormat

end FluentPlan
