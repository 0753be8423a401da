import FluentPlan.Catalog.Shape

/-!
Signatures of controllers, which group what runs.
-/

namespace FluentPlan.Catalog.Controller

open FluentPlan.Param (text int bool)

def transaction : Signature :=
  { named "TransactionController" "transaction" ".controllers.DslTransactionController"
      "Transaction Controller" with
    params := [(Param.name "Transaction Controller").always, .children]
    modifiers :=
      [.ofFlag "generateParentSample" (bool "TransactionController.parent"),
        .ofFlag "includeTimersAndProcessorsTime" (bool "TransactionController.includeTimers")]
    childrenMode := "auto" }

def simpleController : Signature :=
  named "GenericController" "simpleController" ".controllers.DslSimpleController"
    "Simple Controller"

def ifController : Signature :=
  { named "IfController" "ifController" ".controllers.DslIfController" "If Controller" with
    params := [(text "IfController.condition").require, .children] }

def whileController : Signature :=
  { named "WhileController" "whileController" ".controllers.DslWhileController"
      "While Controller" with
    params := [(text "WhileController.condition").require, .children] }

def forLoopController : Signature :=
  { named "LoopController" "forLoopController" ".controllers.ForLoopController"
      "Loop Controller" with
    params := [.name "Loop Controller", (int "LoopController.loops").require, .children] }

def onceOnlyController : Signature :=
  { named "OnceOnlyController" "onceOnlyController" ".controllers.DslOnceOnlyController"
      "Once Only Controller" with
    params := [.children] }

def fragment : Signature :=
  named "TestFragmentController" "fragment" ".controllers.DslTestFragmentController"
    "Test Fragment"

def signatures : List Signature :=
  [transaction, simpleController, ifController, whileController, forLoopController,
    onceOnlyController, fragment]

end FluentPlan.Catalog.Controller
