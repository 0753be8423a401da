import FluentPlan.Catalog.Shape

/-!
Signatures of plans and thread groups. An ordinary thread group has four forms, which guards and
required properties tell apart.
-/

namespace FluentPlan.Catalog.Plan

open FluentPlan.Param (int bool seconds)

def testPlan : Signature where
  kind := "TestPlan"
  method := "testPlan"
  returnType := corePackage ++ ".DslTestPlan"
  category := "executable"
  params := [.children]
  modifiers :=
    [.ofFlag "sequentialThreadGroups" (bool "TestPlan.serialize_threadgroups"),
      .ofFlag "tearDownOnlyAfterMainThreadsDone"
        ((bool "TestPlan.tearDown_on_shutdown").withDefault (.bool true))]
  childrenMode := "auto"
  defaultName := some "Test Plan"

def threadCount : Param := (int "ThreadGroup.num_threads").require

def rampTime : String := "ThreadGroup.ramp_time"

def loopCount : String := "ThreadGroup.main_controller/LoopController.loops"

/-- Holds of thread groups that ramp up. One second is what the engine takes by itself. -/
def hasRamp : Guard := .not (.isIn rampTime ["", "0", "1"])

def rampParams : List Param := [threadCount, (seconds rampTime).require]

def threadGroupName : Param := .name "Thread Group"

/-- What all forms of thread groups share. -/
def anyThreadGroup : Signature where
  kind := "ThreadGroup"
  method := "threadGroup"
  returnType := corePackage ++ ".threadgroups.DslDefaultThreadGroup"
  category := "executable"
  defaultName := some "Thread Group"

def rampHoldThreadGroup : Signature :=
  { anyThreadGroup with
    params := [threadGroupName]
    modifiers :=
      [.ofParams "rampToAndHold" (rampParams ++
        [(Param.ofKind (.holdDuration .seconds rampTime) "ThreadGroup.duration").require])]
    childrenMode := "chain"
    guard := some (.all
      [hasRamp, .equals "ThreadGroup.scheduler" "true",
        .not (.isIn "ThreadGroup.duration" ["", "0"])]) }

def rampThreadGroup : Signature :=
  { anyThreadGroup with
    params := [threadGroupName]
    modifiers := [.ofParams "rampTo" rampParams, .ofParams "holdIterating" [int loopCount]]
    childrenMode := "chain"
    guard := some hasRamp }

def durationThreadGroup : Signature :=
  { anyThreadGroup with
    params :=
      [threadGroupName, threadCount, (seconds "ThreadGroup.duration").require, .children]
    childrenMode := "param"
    guard := some (.equals "ThreadGroup.scheduler" "true") }

def threadGroup : Signature :=
  { anyThreadGroup with
    params := [threadGroupName, threadCount, (int loopCount).require, .children]
    childrenMode := "param" }

def setupThreadGroup : Signature :=
  named "SetupThreadGroup" "setupThreadGroup" ".threadgroups.DslSetupThreadGroup"
    "setUp Thread Group"

def teardownThreadGroup : Signature :=
  named "PostThreadGroup" "teardownThreadGroup" ".threadgroups.DslTeardownThreadGroup"
    "tearDown Thread Group"

/-- Of the forms of a thread group the narrower ones come first. -/
def signatures : List Signature :=
  [testPlan, rampHoldThreadGroup, rampThreadGroup, durationThreadGroup, threadGroup,
    setupThreadGroup, teardownThreadGroup]

end FluentPlan.Catalog.Plan
