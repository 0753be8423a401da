/-!
JSON documents. Objects keep their entries in order, and numbers their text.
-/

namespace FluentPlan

inductive Json where
  | null
  | bool (value : Bool)
  | number (text : String)
  | text (value : String)
  | list (items : List Json)
  | object (entries : List (String × Json))
deriving Repr, BEq, Inhabited

namespace Json

/-- The value of the first entry with a given key. -/
def get? (j : Json) (key : String) : Option Json :=
  match j with
  | .object entries => entries.lookup key
  | _ => none

/-- Why a text is no JSON document. -/
inductive Problem where
  | byteOrderMark
  | value
  | key
  | colon
  | comma
  | extra
  | openText
  | control
  | escape
  | codePoint
deriving DecidableEq, Repr

namespace Problem

def message : Problem → String
  | byteOrderMark => "Unexpected UTF-8 BOM (decode using utf-8-sig)"
  | value => "Expecting value"
  | key => "Expecting property name enclosed in double quotes"
  | colon => "Expecting ':' delimiter"
  | comma => "Expecting ',' delimiter"
  | extra => "Extra data"
  | openText => "Unterminated string starting at"
  | control => "Invalid control character at"
  | escape => "Invalid \\escape"
  | codePoint => "Invalid \\uXXXX escape"

end Problem

end Json

end FluentPlan
