import FluentPlan.Catalog.Shape

/-!
Signatures of samplers that need no protocol.
-/

namespace FluentPlan.Catalog.Sampler

open FluentPlan.Param (text millis textOr)

def jsr223Sampler : Signature :=
  { scripted "JSR223Sampler" "jsr223Sampler" ".samplers.DslJsr223Sampler" "executable"
      "JSR223 Sampler" with
    childrenMode := "chain" }

def dummySampler : Signature where
  kind := "kg.apc.jmeter.samplers.DummySampler"
  method := "dummySampler"
  returnType := corePackage ++ ".samplers.DslDummySampler"
  category := "executable"
  params := [.name "jp@gc - Dummy Sampler", (text "RESPONSE_DATA").require]
  modifiers :=
    [.ofParams "responseCode" [textOr "RESPONSE_CODE" "200"],
      .ofParams "responseTime" [millis "RESPONSE_TIME"]]
  childrenMode := "chain"
  defaultName := some "jp@gc - Dummy Sampler"

def signatures : List Signature := [jsr223Sampler, dummySampler]

end FluentPlan.Catalog.Sampler
