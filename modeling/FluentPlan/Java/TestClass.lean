import FluentPlan.Java.Code

/-!
A runnable test class around generated code: the libraries to fetch, the imports, the helper methods
and one test that runs the plan.
-/

namespace FluentPlan.Generated

open Text Java

/-- The libraries that run the test. -/
def testDependencies : List String :=
  ["org.junit.jupiter:junit-jupiter-engine:5.9.1",
    "org.junit.platform:junit-platform-launcher:1.9.1", "org.assertj:assertj-core:3.23.1"]

def testImports : List String :=
  ["java.io.IOException", "org.junit.jupiter.api.Test",
    "us.abstracta.jmeter.javadsl.core.TestPlanStats"]

def testStaticImports : List String := ["org.assertj.core.api.Assertions.assertThat"]

/-- A line at a level. An empty one has no indentation. -/
def lineAt (indent : String) (level : Nat) (text : String) : String :=
  if text.isEmpty then "" else String.join (List.replicate level indent) ++ text

/-- The lines of a helper method, with an empty one behind them. -/
def helperLines (indent : String) (source : String) : List String :=
  (lines source.toList).map (fun l => lineAt indent 1 (String.ofList l)) ++ [""]

/-- The test class around code that is laid out for two levels of indentation already. -/
def wrap (g : Generated) (className indent : String) : String :=
  let body (level : Nat) (text : String) : String := lineAt indent level text
  String.intercalate "\n"
    (["///usr/bin/env jbang \"$0\" \"$@\" ; exit $?"] ++
      (testDependencies ++ g.requirements.dependencies).map ("//DEPS " ++ ·) ++ [""] ++
      testStaticImports.map (fun n => "import static " ++ n ++ ";") ++
      (sortedDistinct g.requirements.staticImports).map (fun n => "import static " ++ n ++ ".*;") ++
      [""] ++
      (sortedDistinct (testImports ++ g.requirements.imports)).map
        (fun n => "import " ++ n ++ ";") ++
      ["", "public class " ++ className ++ " \x7b", ""] ++
      g.helpers.flatMap (fun h => helperLines indent h.2) ++
      [body 1 "@Test", body 1 "public void test() throws IOException \x7b",
        body 2 ("TestPlanStats stats = " ++ g.code ++ ".run();"),
        body 2 "assertThat(stats.overall().errorsCount()).isEqualTo(0);",
        body 1 "\x7d", "", "\x7d"]) ++ "\n"

/-- The test class around code that is laid out without indentation. -/
def toTestClass (g : Generated) (className indent : String) : String :=
  let twice := indent.toList ++ indent.toList
  { g with code := String.ofList (shift twice g.code.toList) }.wrap className indent

end FluentPlan.Generated
