import TenantScope.Statement

/-!
# Conditions that trail a later clause

A condition that was written after the clauses it should have come before shows itself by an `AND`,
an `OR` or a second `WHERE` in the region of `GROUP BY`, `ORDER BY` or `LIMIT`.  The rest of the
region is cut from there.  Parentheses and `CASE ... END` may hold such words.
-/

namespace TenantScope

namespace Repair

/-- The clauses whose regions hold no condition. -/
def conditionless : List Clause :=
  [.grouping, .ordering, .limit]

/-- A keyword may begin at the place: it lies in no parentheses and not directly after a full
stop. -/
def mayBeginKeyword (site : Site) : Bool :=
  site.depth == 0 && !site.afterDot

/-- A word at the place that no clause without a condition has, unless it is the `WHERE` at
`filterAt?`. -/
def beginsCondition (filterAt? : Option Nat) (site : Site) : Bool :=
  site.hasWord (Text.ascii "AND") || site.hasWord (Text.ascii "OR") ||
    (site.hasWord (Text.ascii "WHERE") && filterAt? != some site.offset)

/-- Offset of the first place that begins a condition outside `CASE ... END`, where `cases` of these
are open already. -/
def conditionStart? (filterAt? : Option Nat) : (cases : Nat) → List Site → Option Nat
  | _, [] => none
  | cases, site :: sites =>
      if !mayBeginKeyword site then conditionStart? filterAt? cases sites
      else if site.hasWord (Text.ascii "CASE") then conditionStart? filterAt? (cases + 1) sites
      else if site.hasWord (Text.ascii "END") then conditionStart? filterAt? (cases - 1) sites
      else if cases == 0 && beginsCondition filterAt? site then some site.offset
      else conditionStart? filterAt? cases sites

/-- The bytes of the text outside literals that lie between two offsets. -/
def codeBetween (text : Text) (start stop : Nat) : List Site :=
  (Site.atOffset text start).code.takeWhile (·.offset < stop)

/-- The statement without the condition in the region of a clause. -/
def cutConditionOf (statement : Statement) (clause : Clause) : Statement :=
  match statement.outline.find? clause with
  | none => statement
  | some offset =>
      let length := ((Site.atOffset statement.text offset).word? clause.keyword).getD 0
      let stop := statement.regionEnd offset
      match conditionStart? (statement.outline.find? .filter) 0
          (codeBetween statement.text (offset + length) stop) with
      | none => statement
      | some start => statement.withText (statement.text.take start ++ statement.text.drop stop)

/-- The statement without conditions in the regions of clauses that hold none. -/
def cutTrailingConditions (statement : Statement) : Statement :=
  conditionless.foldl cutConditionOf statement

end Repair

end TenantScope
