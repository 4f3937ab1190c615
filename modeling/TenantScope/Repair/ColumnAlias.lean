import TenantScope.Statement
import TenantScope.Tenant

/-!
# Conditions on the default column of another table

A table may have a scope column of its own.  In its `WHERE` region a condition on the default
column, written as a term of the conjunction, means the table's own column.
-/

namespace TenantScope

namespace Repair

/-- The place follows the keyword `WHERE` or `AND`, with nothing but white space between. -/
def followsConjunction (text : Text) (site : Site) : Bool :=
  let offset := site.offset - (site.back.takeWhile Byte.isSpace).length
  Word.endsAt (Text.ascii "WHERE") text offset || Word.endsAt (Text.ascii "AND") text offset

/-- Length of the occurrence of a column, given in upper case, at a place where it is compared as a
term of a conjunction. -/
def comparedColumn? (text column : Text) (stop : Nat) (site : Site) : Option Nat :=
  if site.atQuote || site.afterDot then none
  else
    (site.word? column).filter fun length =>
      followsConjunction text site && site.equalsBefore stop length

/-- Width of the unit at a place when a column is replaced: a compared occurrence, a
literal or one byte. -/
def comparingWidth (text column : Text) (stop : Nat) (site : Site) : Nat :=
  (comparedColumn? text column stop site).getD (site.lexemeWidth .standard)

/-- The units of a text that begin between two offsets. -/
def comparingUnits (text column : Text) (start stop : Nat) : List Site :=
  ((Site.atOffset text start).tour (comparingWidth text column stop)).takeWhile (·.offset < stop)

/-- What stands for the unit at a place once the column is replaced. -/
def renamedUnit (text column replacement : Text) (stop : Nat) (site : Site) : Text :=
  if (comparedColumn? text column stop site).isSome then replacement
  else site.rest.take (site.lexemeWidth .standard)

/-- The text with each compared occurrence of a column between two offsets replaced.  A literal that
runs over the second offset is copied whole, and so is all that follows that offset. -/
def renameCompared (text column replacement : Text) (start stop : Nat) : Text :=
  text.take start ++
    (comparingUnits text column start stop).flatMap (renamedUnit text column replacement stop) ++
    text.drop stop

/-- The statement with its conditions on one column turned into conditions on another, from the
`WHERE` at `start` on. -/
def renameColumn (statement : Statement) (column replacement : Text) (start : Nat) : Statement :=
  let text := statement.text
  let stop := statement.regionEnd start
  if (comparingUnits text column start stop).any
      fun site => (comparedColumn? text column stop site).isSome then
    statement.withText (renameCompared text column replacement start stop)
  else
    statement

/-- The statement with its conditions on the default column turned into conditions on the scope
column of the table it reads from. -/
def aliasColumn (rules : ScopeRules) (tenant : Tenant) (statement : Statement) : Statement :=
  let outline := statement.outline
  let column := rules.defaultColumn tenant
  let replacement := rules.columnOf tenant outline.table
  if outline.table.isEmpty || column == replacement then statement
  else
    match outline.find? .filter with
    | none => statement
    | some start => renameColumn statement column.upper replacement start

end Repair

end TenantScope
