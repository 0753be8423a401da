import FluentPlan.Catalog.Shape

/-!
Signatures of what looks at results: assertions and listeners.
-/

namespace FluentPlan.Catalog.Result

open FluentPlan.Param (text bool)

/-- What an assertion tests. -/
def assertionField : EnumType :=
  ⟨"AssertionField",
    [("RESPONSE_BODY", "Assertion.response_data"),
      ("RESPONSE_BODY_AS_DOCUMENT", "Assertion.response_data_as_document"),
      ("RESPONSE_CODE", "Assertion.response_code"),
      ("RESPONSE_MESSAGE", "Assertion.response_message"),
      ("RESPONSE_HEADERS", "Assertion.response_headers"),
      ("REQUEST_HEADERS", "Assertion.request_headers"),
      ("REQUEST_URL", "Assertion.sample_label"), ("REQUEST_BODY", "Assertion.request_data")]⟩

def testType : String := "Assertion.test_type"

/-- A call that gives the strings of an assertion and says how they are compared. -/
def strings (method type : String) : Modifier :=
  (Modifier.ofParams method [.ofKind .textList "Asserion.test_strings"]).guarded
    (.equals testType type)

def responseAssertion : Signature where
  kind := "ResponseAssertion"
  method := "responseAssertion"
  returnType := corePackage ++ ".assertions.DslResponseAssertion"
  category := "assertion"
  params := [.name "Response Assertion"]
  modifiers :=
    [.ofParams "fieldToTest"
        [.ofEnum "Assertion.test_field" assertionField "RESPONSE_BODY"
          (corePackage ++ ".assertions.DslResponseAssertion.TargetField")],
      .ofFlag "ignoreStatus" (bool "Assertion.assume_success"),
      strings "containsSubstrings" "16", strings "equalsToStrings" "8",
      strings "containsRegexes" "2", strings "matchesRegexes" "1"]
  guard := some (.isIn testType ["16", "8", "2", "1"])
  defaultName := some "Response Assertion"

def resultsTree : Signature where
  kind := "ResultCollector"
  method := "resultsTreeVisualizer"
  returnType := corePackage ++ ".listeners.DslViewResultsTree"
  category := "listener"
  guard := some (.equals editorClass "ViewResultsFullVisualizer")
  defaultName := some "View Results Tree"

def jtlWriter : Signature where
  kind := "ResultCollector"
  method := "jtlWriter"
  returnType := corePackage ++ ".listeners.JtlWriter"
  category := "listener"
  params := [(text "filename").require]
  guard := some (.equals editorClass "SimpleDataWriter")
  defaultName := some "Simple Data Writer"

def signatures : List Signature := [responseAssertion, resultsTree, jtlWriter]

end FluentPlan.Catalog.Result
