import TenantScope.Clause

/-!
# Why a statement cannot be scoped

A fault says what about the shape of a statement stands against scoping it to a tenant.  Faults are
recorded under fewer codes, and two codes stand for no fault of a statement.
-/

namespace TenantScope

namespace Scope

/-- The codes under which refusals are recorded. -/
inductive Code
  | emptyTenant
  | noFromClause
  | compoundStatement
  | clauseOrderViolation
  /-- A failure of the program itself. -/
  | internalInvariant
  /-- A code without a meaning. -/
  | unspecified
  deriving DecidableEq, Repr

/-- Name of a code in records. -/
def Code.name : Code → Text
  | emptyTenant => Text.ascii "empty_tenant"
  | noFromClause => Text.ascii "no_from_clause"
  | compoundStatement => Text.ascii "compound_statement"
  | clauseOrderViolation => Text.ascii "clause_order_violation"
  | internalInvariant => Text.ascii "internal_invariant"
  | unspecified => Text.ascii "unknown"

/-- Why a statement cannot be scoped to a tenant. -/
inductive Fault
  /-- The identifier of the tenant is blank. -/
  | emptyTenant
  /-- The outermost query reads from nothing. -/
  | noSource
  /-- The statement combines queries, and one predicate cannot scope them all. -/
  | compound
  /-- A clause comes before `FROM`. -/
  | beforeSource (clause : Clause)
  /-- The clauses do not stand in the canonical order. -/
  | outOfOrder
  /-- The `WHERE` comes after something that has to follow it. -/
  | filterAfterTail
  /-- The scoped statement has no `WHERE` in its place. -/
  | orderLost
  deriving DecidableEq, Repr

namespace Fault

def code : Fault → Code
  | emptyTenant => .emptyTenant
  | noSource => .noFromClause
  | compound => .compoundStatement
  | beforeSource _ | outOfOrder | filterAfterTail | orderLost => .clauseOrderViolation

def message : Fault → Text
  | emptyTenant => Text.ascii "tenant id is empty, cannot scope query"
  | noSource => Text.ascii "no FROM clause found, cannot scope query"
  | compound => Text.ascii "UNION/INTERSECT/EXCEPT cannot be scoped by a single predicate"
  | beforeSource clause => clause.keyword ++ Text.ascii " appears before FROM"
  | outOfOrder => Text.ascii "clauses are not in canonical order"
  | filterAfterTail => Text.ascii "WHERE appears after a trailing clause"
  | orderLost => Text.ascii "clause order violated after injection"

end Fault

/-- A fault with a part of the statement for the records. -/
structure Refusal where
  /-- What stands against scoping the statement. -/
  fault : Fault
  /-- The beginning of the statement. -/
  context : Text
  deriving DecidableEq, Repr

/-- What the caller is told about a refusal under a code. -/
def describe (code : Code) (message : Text) : Text :=
  Text.ascii "Cannot scope query to tenant (" ++ code.name ++ Text.ascii "): " ++ message

end Scope

end TenantScope
