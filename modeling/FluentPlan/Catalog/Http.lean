import FluentPlan.Catalog.Signature

/-!
Signatures of the HTTP elements.
-/

namespace FluentPlan.Catalog.Http

open FluentPlan.Param (text bool millis)

def package : String := "us.abstracta.jmeter.javadsl.http"

/-- The request methods, each stored under its own name. -/
def httpMethod : EnumType :=
  ⟨"HttpMethod",
    ["GET", "POST", "PUT", "DELETE", "PATCH", "HEAD", "OPTIONS"].map fun m => (m, m)⟩

def arguments : String := "HTTPsampler.Arguments/Arguments.arguments"

/-- Holds of requests whose body is given as one text. -/
def rawBody : Guard := .equals "HTTPSampler.postBodyRaw" "true"

def url : Param := .ofKind .url "HTTPSampler.path"

def encoding : Modifier := .ofParams "encoding" [.ofKind .charset "HTTPSampler.contentEncoding"]

def embeddedResources : Modifier :=
  .ofFlag "downloadEmbeddedResources" (bool "HTTPSampler.image_parser")

def sampler : Signature where
  kind := "HTTPSamplerProxy"
  method := "httpSampler"
  returnType := package ++ ".DslHttpSampler"
  category := "executable"
  params := [.name "HTTP Request", url.require]
  modifiers :=
    [.ofParams "method"
        [.ofEnum "HTTPSampler.method" httpMethod "GET"
          "org.apache.jmeter.protocol.http.util.HTTPConstants"],
      encoding,
      ((Modifier.ofParams "param" [text "Argument.name", text "Argument.value"]).guarded
        (.not rawBody)).forEach arguments,
      (Modifier.ofParams "body" [text (arguments ++ "/0/Argument.value")]).guarded rawBody,
      .ofParams "followRedirects"
        [(bool "HTTPSampler.follow_redirects").withDefault (.bool true)],
      embeddedResources]
  childrenMode := "chain"
  defaultName := some "HTTP Request"

def defaults : Signature where
  kind := "ConfigTestElement"
  method := "httpDefaults"
  returnType := package ++ ".DslHttpDefaults"
  category := "config"
  modifiers :=
    [.ofParams "url" [url], encoding,
      .ofParams "connectionTimeout" [millis "HTTPSampler.connect_timeout"],
      .ofParams "responseTimeout" [millis "HTTPSampler.response_timeout"],
      embeddedResources]
  guard := some (.equals editorClass "HttpDefaultsGui")
  defaultName := some "HTTP Request Defaults"

def headers : Signature where
  kind := "HeaderManager"
  method := "httpHeaders"
  returnType := package ++ ".HttpHeaders"
  category := "config"
  modifiers :=
    [(Modifier.ofParams "header" [text "Header.name", text "Header.value"]).forEach
      "HeaderManager.headers"]
  defaultName := some "HTTP Header Manager"

def cookies : Signature where
  kind := "CookieManager"
  method := "httpCookies"
  returnType := package ++ ".DslCookieManager"
  category := "config"
  modifiers :=
    [.ofParams "clearCookiesBetweenIterations"
      [(bool "CookieManager.clearEachIteration").withDefault (.bool true)]]
  defaultName := some "HTTP Cookie Manager"

def cache : Signature where
  kind := "CacheManager"
  method := "httpCache"
  returnType := package ++ ".DslCacheManager"
  category := "config"
  defaultName := some "HTTP Cache Manager"

def signatures : List Signature := [sampler, defaults, headers, cookies, cache]

end FluentPlan.Catalog.Http
