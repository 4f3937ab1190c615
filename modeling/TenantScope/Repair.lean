import TenantScope.NormalForm
import TenantScope.Repair.ColumnAlias
import TenantScope.Repair.MisplacedFilter
import TenantScope.Repair.TrailingCondition

/-!
# Repair

A pass of repair cuts trailing conditions, moves a misplaced `WHERE`, puts the text in normal form
and names the scope column of the table.  Passes follow one another until one of them changes
nothing or their number is used up.
-/

namespace TenantScope

/-- Settings of repair. -/
structure RepairRules where
  /-- Greatest number of passes; there is always one. -/
  passes : Nat := 4
  deriving DecidableEq, Repr

namespace Repair

/-- The statement in normal form. -/
def normalize (statement : Statement) : Statement :=
  statement.withText statement.text.normalize

/-- One pass of all repairs. -/
def pass (rules : ScopeRules) (tenant : Tenant) (statement : Statement) : Statement :=
  aliasColumn rules tenant (normalize (relocateFilter (cutTrailingConditions statement)))

/-- Passes until one of them changes nothing, at most `passes` of them. -/
def run (rules : ScopeRules) (tenant : Tenant) : (passes : Nat) → Statement → Statement
  | 0, statement => statement
  | passes + 1, statement =>
      let repaired := pass rules tenant statement
      if repaired.text == statement.text then repaired else run rules tenant passes repaired

end Repair

/-- The repaired statement. -/
def Statement.repair (limits : RepairRules) (rules : ScopeRules) (tenant : Tenant)
    (statement : Statement) : Statement :=
  Repair.run rules tenant (max 1 limits.passes) statement

end TenantScope
