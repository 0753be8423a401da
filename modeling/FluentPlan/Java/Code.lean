import FluentPlan.Call.Requirements
import FluentPlan.Java.Layout

/-!
Builder calls as code. Child calls stand on lines of their own, one step deeper, and so do chained
calls. The code of a disabled element is commented out with the comma behind it, so that what is
left stays well formed.
-/

namespace FluentPlan

open Text Java

/-- How code is laid out: the text of one indentation, and whether text blocks may be used. -/
structure Style where
  indent : List Char
  blocks : Bool

/-- The code of a child call, and whether it is commented out by itself. -/
structure ChildCode where
  code : List Char
  commented : Bool

namespace Style

/-- The comma behind something that is live. If only comments follow, the comma becomes part of the
first, unless all stands in a comment anyway. -/
def commaBefore (inComment : Bool) (rest : List ChildCode) : List Char :=
  if !inComment && rest.all (·.commented) then ['/', '/', ','] else [',']

/-- Child calls with commas between them, each on its own line. -/
def joinChildren (inComment : Bool) (indent : List Char) : List ChildCode → List Char
  | [] => []
  | [c] => c.code
  | c :: cs =>
    c.code ++ (if c.commented then [','] else commaBefore inComment cs) ++ '\n' :: indent ++
      joinChildren inComment indent cs

/-- What stands between the parentheses of a call. -/
def arguments (inComment : Bool) (indent childIndent : List Char) (args : List (List Char))
    (children : List ChildCode) : List Char :=
  joinWith [',', ' '] args ++
    if children.isEmpty then []
    else
      (if args.isEmpty then [] else commaBefore inComment children) ++ '\n' :: childIndent ++
        joinChildren inComment childIndent children ++ '\n' :: indent

/-- The code of the arguments that appear. -/
def scalars (style : Style) (indent : List Char) (args : List Arg) : List (List Char) :=
  args.filterMap fun a =>
    match a with
    | .scalar p v => if a.isRendered then some (p.render v indent style.blocks) else none
    | .children => none

end Style

namespace Call

mutual

/-- The code of a call whose first line stands at `indent`. A commented call is commented out unless
it stands in a comment already or `own` says that it must not be. -/
def code (style : Style) (indent : List Char) (inComment own : Bool) : Call → List Char
  | ⟨head, children, chain⟩ =>
    if head.role = .empty then []
    else
      let childIndent := indent ++ style.indent
      let commented := head.commented && own && !inComment
      let nested := inComment || commented
      let codes := childCodes style childIndent nested children
      let text := head.method.toList ++ '(' ::
        Style.arguments nested indent childIndent (style.scalars childIndent head.args) codes ++
        ')' :: chainCode style childIndent nested chain
      if commented then commentOut indent text else text

/-- The code of child calls, without those that leave no trace. -/
def childCodes (style : Style) (indent : List Char) (inComment : Bool) : List Call → List ChildCode
  | [] => []
  | c :: cs =>
    let rest := childCodes style indent inComment cs
    match code style indent inComment true c with
    | [] => rest
    | text => ⟨text, c.head.commented⟩ :: rest

/-- The code of chained calls. One that would take children but has none is left out. -/
def chainCode (style : Style) (indent : List Char) (inComment : Bool) : List Call → List Char
  | [] => []
  | c :: cs =>
    let text := code style indent inComment true c
    let rest := chainCode style indent inComment cs
    if c.head.method = "children" && text = "children()".toList then rest
    else '\n' :: indent ++ '.' :: text ++ rest

end

end Call

namespace Helper

/-- The code of a helper method. -/
def code (style : Style) (h : Helper) : List Char :=
  "private ".toList ++ (simpleName h.body.head.returnType).toList ++ ' ' :: h.name.toList ++
    "() \x7b\n".toList ++ style.indent ++ "return ".toList ++
    h.body.code style style.indent false false ++ ";\n\x7d".toList

end Helper

/-- Generated code: the plan as one expression, the helper methods that it calls by their names, and
what all of it needs. -/
structure Generated where
  code : String
  requirements : Requirements
  helpers : List (String × String)
deriving DecidableEq, Repr, Inhabited

namespace Generated

/-- The code of a call and its helper methods. -/
def ofCall (style : Style) (indent : List Char) (root : Call) (helpers : List Helper) :
    Generated where
  code := String.ofList (root.code style indent false true)
  requirements := FluentPlan.requirements root helpers
  helpers := helpers.map fun h => (h.name, String.ofList (h.code style))

/-- The helper methods and behind them the plan. -/
def toSource (g : Generated) : String :=
  String.intercalate "\n\n" (g.helpers.map Prod.snd ++ [g.code]) ++ "\n"

end Generated

end FluentPlan
