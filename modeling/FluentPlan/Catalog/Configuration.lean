import FluentPlan.Catalog.Shape

/-!
Signatures of variables, data files and timers.
-/

namespace FluentPlan.Catalog.Configuration

open FluentPlan.Param (text bool millis textOr)

/-- Which threads share the lines of a data file. -/
def sharing : EnumType :=
  ⟨"Sharing",
    [("ALL_THREADS", "shareMode.all"), ("THREAD_GROUP", "shareMode.group"),
      ("THREAD", "shareMode.thread")]⟩

def vars : Signature where
  kind := "Arguments"
  method := "vars"
  returnType := corePackage ++ ".configs.DslVariables"
  category := "variables"
  modifiers :=
    [(Modifier.ofParams "set" [text "Argument.name", text "Argument.value"]).forEach
      "Arguments.arguments"]
  defaultName := some "User Defined Variables"

def csvDataSet : Signature where
  kind := "CSVDataSet"
  method := "csvDataSet"
  returnType := corePackage ++ ".configs.DslCsvDataSet"
  category := "config"
  params := [(text "filename").require]
  modifiers :=
    [.ofParams "delimiter" [textOr "delimiter" ","],
      .ofParams "encoding" [.ofKind .charset "fileEncoding"],
      .ofParams "variableNames" [.ofKind .textArray "variableNames"],
      .ofFlag "ignoreFirstLine" (bool "ignoreFirstLine"),
      .ofFlag "stopThreadOnEOF" (bool "stopThread"),
      .ofParams "sharedIn"
        [.ofEnum "shareMode" sharing "ALL_THREADS"
          (corePackage ++ ".configs.DslCsvDataSet.Sharing")]]
  defaultName := some "CSV Data Set Config"

def constantTimer : Signature where
  kind := "ConstantTimer"
  method := "constantTimer"
  returnType := corePackage ++ ".timers.DslConstantTimer"
  category := "timer"
  params := [millis "ConstantTimer.delay"]
  defaultName := some "Constant Timer"
  emptyWhenDefault := true

def throughputTimer : Signature where
  kind := "ConstantThroughputTimer"
  method := "throughputTimer"
  returnType := corePackage ++ ".timers.DslThroughputTimer"
  category := "timer"
  params := [(Param.ofKind .double "throughput").require]
  defaultName := some "Constant Throughput Timer"

def signatures : List Signature := [vars, csvDataSet, constantTimer, throughputTimer]

end FluentPlan.Catalog.Configuration
