import TenantScope.Audit.Level
import TenantScope.Audit.Object
import TenantScope.Audit.Timestamp

/-!
# Events of the audit log

Every rewritten and every rejected statement is recorded on a line of its own, with the statement as
it was received; plain messages stand between the records.
-/

namespace TenantScope

namespace Audit

/-- A statement that was rewritten. -/
structure Rewritten where
  request : Text := []
  tenant : Text := []
  received : Text := []
  result : Text := []
  /-- Repair has changed the statement. -/
  repaired : Bool := false
  moment : Moment := ⟨0⟩
  /-- Microseconds that the rewriting took. -/
  duration : Int := 0
  deriving DecidableEq, Repr

/-- A statement that was rejected. -/
structure Rejected where
  request : Text := []
  tenant : Text := []
  received : Text := []
  /-- Whether the statement was not allowed or could not be scoped. -/
  kind : Text := []
  code : Text := []
  /-- What the caller was told. -/
  reason : Text := []
  moment : Moment := ⟨0⟩
  deriving DecidableEq, Repr

def Rewritten.line (record : Rewritten) : Text :=
  object [
    .string "event" (Text.ascii "sql_rewritten"),
    .string "request_id" record.request,
    .string "tenant_id" record.tenant,
    .string "raw_sql" record.received,
    .string "final_sql" record.result,
    .boolean "repaired" record.repaired,
    .string "timestamp" record.moment.text,
    .number "duration_us" record.duration]

def Rejected.line (record : Rejected) : Text :=
  object [
    .string "event" (Text.ascii "sql_rejected"),
    .string "request_id" record.request,
    .string "tenant_id" record.tenant,
    .string "raw_sql" record.received,
    .string "error_kind" record.kind,
    .string "reason_code" record.code,
    .string "reason" record.reason,
    .string "timestamp" record.moment.text]

/-- Something that may be logged. -/
inductive Event
  | message (severity : Severity) (text : Text)
  | rewritten (record : Rewritten)
  | rejected (record : Rejected)
  deriving DecidableEq, Repr

/-- The line that a log of the given level writes for an event, if it writes one. -/
def Event.line? (level : Level) : Event → Option Text
  | message severity text => if level.keepsMessage severity then some text else none
  | rewritten record => if level.keepsRecord .info then some record.line else none
  | rejected record => if level.keepsRecord .warning then some record.line else none

end Audit

end TenantScope
