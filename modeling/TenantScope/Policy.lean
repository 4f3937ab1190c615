import TenantScope.Pattern.Reader
import TenantScope.Rejection

/-!
# Policies

A policy says which statements may run: how they may begin, which keywords, functions and patterns
must not occur in them, and how complex they may be.
-/

namespace TenantScope

/-- Which statements may run. -/
structure Policy where
  /-- Greatest number of `SELECT` outside literals. -/
  selectLimit : Nat := 5
  /-- Greatest number of `JOIN` outside literals. -/
  joinLimit : Nat := 10
  /-- A statement has to limit its rows or to count them. -/
  rowLimitRequired : Bool := false
  /-- The words with which a statement may begin. -/
  openings : List Text :=
    ["SELECT", "WITH", "SHOW", "EXPLAIN"].map Text.ascii
  /-- Words that must not occur, distinct and in bytewise order. -/
  keywords : List Text :=
    ["ALTER", "CALL", "COMMENT", "COPY", "CREATE", "DELETE", "DROP", "EXEC", "EXECUTE", "GRANT",
      "INSERT", "LOCK", "MERGE", "RENAME", "REPLACE INTO", "REVOKE", "TRUNCATE", "UNLOCK",
      "UPDATE"].map Text.ascii
  /-- Names that must not be called. -/
  functions : List Text :=
    ["pg_read_file", "pg_write_file", "pg_ls_dir", "pg_execute_server_program", "dblink",
      "dblink_exec", "lo_import", "lo_export"].map Text.ascii
  /-- Written patterns that must not occur. -/
  patterns : List Text :=
    ["SLEEP\\s*\\(", "BENCHMARK\\s*\\(", "LOAD_FILE\\s*\\(", "INTO\\s+OUTFILE", "INTO\\s+DUMPFILE",
      "'\\s*OR\\s+['\"\\d]"].map Text.ascii
  deriving DecidableEq, Repr

namespace Policy

/-- The patterns that can be read, each with its written form. -/
def readPatterns (policy : Policy) : List (Text × Pattern) :=
  policy.patterns.filterMap fun written => (Pattern.ofText? written).map fun read => (written, read)

/-- All patterns that are forbidden by default can be read. -/
theorem readPatterns_default :
    ({} : Policy).readPatterns.map Prod.fst = ({} : Policy).patterns := by
  decide +kernel

/-- Patterns are given and none of them can be read; such a policy allows nothing. -/
def failsClosed (policy : Policy) : Bool :=
  !policy.patterns.isEmpty && policy.readPatterns.isEmpty

/-- The forbidden keywords in upper case. -/
def upperKeywords (policy : Policy) : List Text :=
  policy.keywords.map Text.upper

end Policy

end TenantScope
