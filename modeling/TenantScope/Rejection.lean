import TenantScope.Decimal

/-!
# Why a statement is rejected

A rejection is a cause.  Its code is for records and its message for the caller; the message never
says which pattern was found, since that would help whoever is trying patterns out.
-/

namespace TenantScope

/-- Why a policy does not allow a statement. -/
inductive Rejection
  /-- The statement does not begin like one that only reads. -/
  | notReadOnly
  /-- A forbidden keyword or function occurs. -/
  | dangerousKeyword (keyword : Text)
  /-- More follows the semicolon that ends the statement. -/
  | stackedStatement
  /-- Something occurs that marks injected text; `detail` is for records only. -/
  | suspectedInjection (detail : Text)
  /-- A count exceeds its limit. -/
  | excessiveComplexity (metric : Text) (limit observed : Nat)
  /-- A limit on the number of rows is required and missing. -/
  | missingLimit
  /-- A cause that was recorded under a code without a meaning. -/
  | unspecified
  deriving DecidableEq, Repr

namespace Rejection

/-- Name of the cause in records. -/
def code : Rejection → Text
  | notReadOnly => Text.ascii "not_read_only"
  | dangerousKeyword _ => Text.ascii "dangerous_keyword"
  | stackedStatement => Text.ascii "stacked_statement"
  | suspectedInjection _ => Text.ascii "suspected_injection_pattern"
  | excessiveComplexity _ _ _ => Text.ascii "excessive_complexity"
  | missingLimit => Text.ascii "missing_limit"
  | unspecified => Text.ascii "unknown"

/-- What the caller is told: that a pattern was found, but not which one. -/
def message : Rejection → Text
  | notReadOnly => Text.ascii "Query must start with SELECT, WITH, SHOW or EXPLAIN"
  | dangerousKeyword keyword =>
      Text.ascii "Forbidden keyword detected: " ++ keyword ++
        Text.ascii ". Only read-only queries are allowed"
  | stackedStatement => Text.ascii "Multiple statements are not allowed"
  | suspectedInjection _ => Text.ascii "Potential SQL injection pattern detected"
  | excessiveComplexity metric limit observed =>
      Text.ascii "Query too complex: " ++ metric ++ Text.ascii " = " ++
        Text.decimal observed ++ Text.ascii " exceeds limit " ++ Text.decimal limit
  | missingLimit =>
      Text.ascii "Query must include a LIMIT clause to prevent excessive result sets"
  | unspecified => Text.ascii "Query rejected"

end Rejection

end TenantScope
