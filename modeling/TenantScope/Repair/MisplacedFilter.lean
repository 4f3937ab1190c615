import TenantScope.Statement

/-!
# A `WHERE` after the clauses it belongs before

The condition of a misplaced `WHERE` moves to the front of the earliest clause that comes after a
`WHERE` in the canonical order.  It joins a condition that stands there already, in parentheses if
an `OR` would otherwise take the other one in.
-/

namespace TenantScope

namespace Repair

/-- A condition as one term of a conjunction. -/
def conjunct (condition : Text) : Text :=
  if (Word.firstTopLevel? (Text.ascii "OR") condition 0 condition.length).isSome then
    [Byte.openParen] ++ condition ++ [Byte.closeParen]
  else
    condition

/-- The text with a condition in front of the clause at `offset`, introduced by `AND` after another
condition and by `WHERE` otherwise. -/
def insertCondition (text condition : Text) (offset : Nat) (filterAt? : Option Nat) : Text :=
  let introduction := if filterAt?.any (· < offset) then " AND " else " WHERE "
  Text.trimRight (text.take offset) ++ Text.ascii introduction ++ conjunct condition ++
    [Byte.blank] ++
    text.drop offset

/-- The statement whose `WHERE` at `start` is taken from behind the earliest other clause and
put in front of it. -/
def moveFilter (statement : Statement) (start : Nat) : Statement :=
  let length := ((Site.atOffset statement.text start).word? Clause.filter.keyword).getD 0
  let stop := statement.regionEnd start
  let condition := Text.trim (Statement.slice statement.text (start + length) stop)
  let without := statement.withText (statement.text.take start ++ statement.text.drop stop)
  if condition.isEmpty then without
  else
    match without.outline.earliestTail? with
    | none => statement
    | some offset =>
        statement.withText
          (insertCondition without.text condition offset (without.outline.find? .filter))

/-- The statement with its `WHERE` in front of every other clause. -/
def relocateFilter (statement : Statement) : Statement :=
  match statement.outline.find? .filter, statement.outline.earliestTail? with
  | some start, some tail => if start < tail then statement else moveFilter statement start
  | _, _ => statement

end Repair

end TenantScope
