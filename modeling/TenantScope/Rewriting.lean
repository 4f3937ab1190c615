import TenantScope.NormalForm
import TenantScope.Policy.Verdict
import TenantScope.Repair
import TenantScope.Scope.Injection

/-!
# Rewriting a statement for a tenant

A received statement is sanitized and judged; if it may run, it is repaired, scoped to the tenant
and judged once more.  The second judgment guards against repairs and predicates that make a
harmless statement harmful.
-/

namespace TenantScope

/-- Settings of the rewriting. -/
structure Rules where
  /-- Which statements may run. -/
  policy : Policy := {}
  /-- The scope columns. -/
  scope : ScopeRules := {}
  /-- The bounds of repair. -/
  repair : RepairRules := {}
  deriving DecidableEq, Repr

/-- Why a statement was not rewritten. -/
inductive RewriteError
  /-- The policy does not allow it. -/
  | rejected (rejection : Rejection)
  /-- It cannot be scoped. -/
  | refused (refusal : Scope.Refusal)
  deriving DecidableEq, Repr

/-- What the caller is told. -/
def RewriteError.message : RewriteError → Text
  | rejected rejection => rejection.message
  | refused refusal => Scope.describe refusal.fault.code refusal.fault.message

/-- What came of a received statement. -/
structure Outcome where
  /-- The statement in normal form, before it was judged. -/
  sanitized : Text
  /-- The repaired statement differs from the sanitized one. -/
  repaired : Bool
  /-- The statement to run. -/
  result : Except RewriteError Text

namespace Rules

/-- The tenant, with the default scope column filled in. -/
def completed (rules : Rules) (tenant : Tenant) : Tenant :=
  if tenant.column.isEmpty then { tenant with column := rules.scope.column } else tenant

/-- The repaired form of a sanitized statement. -/
def repaired (rules : Rules) (tenant : Tenant) (received sanitized : Text) : Statement :=
  Statement.repair rules.repair rules.scope tenant
    ⟨received, TableName.unqualify rules.scope.database sanitized⟩

/-- A statement scoped to the tenant, if it can be scoped and may run. -/
def scopeFor (rules : Rules) (tenant : Tenant) (statement : Statement) : Except RewriteError Text :=
  match Scope.inject rules.scope tenant statement with
  | .error refusal => .error (.refused refusal)
  | .ok injected =>
      match rules.policy.rejection? injected.text with
      | some rejection => .error (.rejected rejection)
      | none => .ok injected.text

/-- What comes of a received statement for a tenant. -/
def rewrite (rules : Rules) (tenant : Tenant) (received : Text) : Outcome :=
  let sanitized := received.sanitize
  match rules.policy.rejection? sanitized with
  | some rejection => ⟨sanitized, false, .error (.rejected rejection)⟩
  | none =>
      let tenant := rules.completed tenant
      let statement := rules.repaired tenant received sanitized
      ⟨sanitized, statement.text != sanitized, rules.scopeFor tenant statement⟩

end Rules

end TenantScope
