import FluentPlan.Catalog.Signature

/-!
Shapes that signatures of several families share.
-/

namespace FluentPlan.Catalog

open FluentPlan.Param (text textOr)

/-- The package of the builders that come without plugins. -/
def corePackage : String := "us.abstracta.jmeter.javadsl.core"

/-- An element that holds a name and children. -/
def named (kind method returnType name : String) : Signature where
  kind := kind
  method := method
  returnType := corePackage ++ returnType
  category := "executable"
  params := [.name name, .children]
  childrenMode := "param"
  defaultName := some name

/-- An element that runs a script in a language. -/
def scripted (kind method returnType category name : String) : Signature where
  kind := kind
  method := method
  returnType := corePackage ++ returnType
  category := category
  params := [.name name, (text "script").require]
  modifiers := [.ofParams "language" [textOr "scriptLanguage" "groovy"]]
  defaultName := some name

end FluentPlan.Catalog
