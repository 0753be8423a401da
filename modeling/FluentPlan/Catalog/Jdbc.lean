import FluentPlan.Catalog.Signature

/-!
Signatures of the JDBC elements, which come as a plugin.
-/

namespace FluentPlan.Catalog.Jdbc

open FluentPlan.Param (text bool int millis seconds)

def package : String := "us.abstracta.jmeter.javadsl.jdbc"

def connectionPool : Signature where
  kind := "JDBCDataSource"
  method := "jdbcConnectionPool"
  returnType := package ++ ".DslJdbcConnectionPool"
  category := "config"
  params :=
    [(text "dataSource").require, (Param.ofKind .classRef "driver").require,
      (text "dbUrl").require]
  modifiers :=
    [.ofParams "user" [text "username"], .ofParams "password" [text "password"],
      .ofParams "autoCommit" [(bool "autocommit").withDefault (.bool true)],
      .ofParams "maxConnections" [(int "poolMax").withDefault (.integer 0)],
      .ofParams "maxConnectionWait" [(millis "timeout").withDefault (.duration 10000)]]
  defaultName := some "JDBC Connection Configuration"
  staticImport := some (package ++ ".JdbcJmeterDsl")
  dependency := some "us.abstracta.jmeter:jmeter-java-dsl-jdbc"

def sampler : Signature where
  kind := "JDBCSampler"
  method := "jdbcSampler"
  returnType := package ++ ".DslJdbcSampler"
  category := "executable"
  params := [.name "JDBC Request", (text "dataSource").require, (text "query").require]
  modifiers := [.ofParams "timeout" [seconds "queryTimeout"]]
  childrenMode := "chain"
  defaultName := some "JDBC Request"
  staticImport := some (package ++ ".JdbcJmeterDsl")
  dependency := some "us.abstracta.jmeter:jmeter-java-dsl-jdbc"

def signatures : List Signature := [connectionPool, sampler]

end FluentPlan.Catalog.Jdbc
