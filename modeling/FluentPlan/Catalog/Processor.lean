import FluentPlan.Catalog.Shape

/-!
Signatures of what runs before and after a sampler.
-/

namespace FluentPlan.Catalog.Processor

open FluentPlan.Param (text int textOr)

/-- What a regular expression is looked for in. -/
def targetField : EnumType :=
  ⟨"TargetField",
    [("RESPONSE_BODY", "false"), ("RESPONSE_BODY_UNESCAPED", "unescaped"),
      ("RESPONSE_BODY_AS_DOCUMENT", "as_document"), ("RESPONSE_HEADERS", "true"),
      ("REQUEST_HEADERS", "request_headers"), ("REQUEST_URL", "URL"), ("RESPONSE_CODE", "code"),
      ("RESPONSE_MESSAGE", "message")]⟩

def jsr223PreProcessor : Signature :=
  scripted "JSR223PreProcessor" "jsr223PreProcessor" ".preprocessors.DslJsr223PreProcessor"
    "preprocessor" "JSR223 PreProcessor"

def jsr223PostProcessor : Signature :=
  scripted "JSR223PostProcessor" "jsr223PostProcessor" ".postprocessors.DslJsr223PostProcessor"
    "postprocessor" "JSR223 PostProcessor"

def regexExtractor : Signature where
  kind := "RegexExtractor"
  method := "regexExtractor"
  returnType := corePackage ++ ".postprocessors.DslRegexExtractor"
  category := "postprocessor"
  params := [(text "RegexExtractor.refname").require, (text "RegexExtractor.regex").require]
  modifiers :=
    [.ofParams "fieldToCheck"
        [.ofEnum "RegexExtractor.useHeaders" targetField "RESPONSE_BODY"
          (corePackage ++ ".postprocessors.DslRegexExtractor.TargetField")],
      .ofParams "matchNumber" [(int "RegexExtractor.match_number").withDefault (.integer 1)],
      .ofParams "template" [textOr "RegexExtractor.template" "$1$"],
      .ofParams "defaultValue" [text "RegexExtractor.default"]]
  defaultName := some "Regular Expression Extractor"

def jsonExtractor : Signature where
  kind := "JSONPostProcessor"
  method := "jsonExtractor"
  returnType := corePackage ++ ".postprocessors.DslJsonExtractor"
  category := "postprocessor"
  params :=
    [(text "JSONPostProcessor.referenceNames").require,
      (text "JSONPostProcessor.jsonPathExprs").require]
  modifiers :=
    [.ofParams "matchNumber" [(int "JSONPostProcessor.match_numbers").withDefault (.integer 1)],
      .ofParams "defaultValue" [text "JSONPostProcessor.defaultValues"]]
  defaultName := some "JSON Extractor"

def debugPostProcessor : Signature where
  kind := "DebugPostProcessor"
  method := "debugPostProcessor"
  returnType := corePackage ++ ".postprocessors.DslDebugPostProcessor"
  category := "postprocessor"
  defaultName := some "Debug PostProcessor"

def signatures : List Signature :=
  [jsr223PreProcessor, jsr223PostProcessor, regexExtractor, jsonExtractor, debugPostProcessor]

end FluentPlan.Catalog.Processor
