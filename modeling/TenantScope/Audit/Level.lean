import TenantScope.Text

/-!
# Levels of the log

A message has a severity, and a log writes the messages from some severity on.  The level of a log
is a number, so that it may lie beyond all severities.
-/

namespace TenantScope

namespace Audit

/-- How grave a message is. -/
inductive Severity
  | debug
  | info
  | warning
  | error
  deriving DecidableEq, Repr

/-- Place of a severity among all of them. -/
def Severity.rank : Severity → Nat
  | debug => 0
  | info => 1
  | warning => 2
  | error => 3

/-- The least severity that a log writes, by its rank. -/
structure Level where
  rank : Nat
  deriving DecidableEq, Repr

namespace Level

def ofSeverity (severity : Severity) : Level :=
  ⟨severity.rank⟩

/-- The level that a name stands for in any case; any other name stands for `info`. -/
def ofName (name : Text) : Level :=
  let lower := name.lower
  if lower == Text.ascii "debug" || lower == Text.ascii "trace" then ofSeverity .debug
  else if lower == Text.ascii "warn" || lower == Text.ascii "warning" then ofSeverity .warning
  else if lower == Text.ascii "error" || lower == Text.ascii "critical" then ofSeverity .error
  else ofSeverity .info

/-- A record of this severity is written: the level does not lie above it. -/
def keepsRecord (level : Level) (severity : Severity) : Bool :=
  level.rank ≤ severity.rank

/-- A message of this severity is written.  A level beyond all severities counts as `info` here. -/
def keepsMessage (level : Level) (severity : Severity) : Bool :=
  (if level.rank ≤ Severity.error.rank then level.rank else Severity.info.rank) ≤ severity.rank

end Level

end Audit

end TenantScope
