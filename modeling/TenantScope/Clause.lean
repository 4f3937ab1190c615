import TenantScope.Text

/-!
# Clauses of a query

A query may hold each of five clauses once, and they may stand in one order only, the order in which
they are listed here.
-/

namespace TenantScope

/-- A clause that a query may hold after its `FROM`. -/
inductive Clause
  /-- The condition on rows, `WHERE`. -/
  | filter
  /-- The grouping of rows, `GROUP BY`. -/
  | grouping
  /-- The condition on groups, `HAVING`. -/
  | having
  /-- The order of the result, `ORDER BY`. -/
  | ordering
  /-- The greatest number of rows, `LIMIT`. -/
  | limit
  deriving DecidableEq, Repr

namespace Clause

/-- The clauses in the order in which a query holds them. -/
def all : List Clause :=
  [filter, grouping, having, ordering, limit]

/-- The keyword that begins a clause. -/
def keyword : Clause → Text
  | filter => Text.ascii "WHERE"
  | grouping => Text.ascii "GROUP BY"
  | having => Text.ascii "HAVING"
  | ordering => Text.ascii "ORDER BY"
  | limit => Text.ascii "LIMIT"

/-- Place of a clause in the canonical order. -/
def rank : Clause → Nat
  | filter => 0
  | grouping => 1
  | having => 2
  | ordering => 3
  | limit => 4

/-- The clause at a place of the canonical order. -/
def ofRank? (rank : Nat) : Option Clause :=
  all[rank]?

theorem ofRank?_rank (clause : Clause) : ofRank? clause.rank = some clause := by
  cases clause <;> rfl

/-- The clause that a keyword begins. -/
def ofKeyword? (keyword : Text) : Option Clause :=
  all.find? fun clause => clause.keyword == keyword

theorem ofKeyword?_keyword (clause : Clause) : ofKeyword? clause.keyword = some clause := by
  cases clause <;> decide

/-- The keyword at a place of the canonical order, for reports. -/
def nameOfRank (rank : Nat) : Text :=
  ((ofRank? rank).map keyword).getD (Text.ascii "UNKNOWN")

end Clause

/-- A clause and the offset of its keyword. -/
structure ClauseAt where
  /-- Which clause. -/
  clause : Clause
  /-- Offset of its keyword. -/
  offset : Nat
  deriving DecidableEq, Repr

namespace ClauseAt

/-- Clauses that stand in the canonical order. -/
def InOrder (earlier later : ClauseAt) : Prop :=
  earlier.clause.rank < later.clause.rank → earlier.offset < later.offset

instance (earlier later : ClauseAt) : Decidable (InOrder earlier later) :=
  inferInstanceAs (Decidable (_ → _))

/-- The offset of a clause among those found. -/
def find? (clause : Clause) (clauses : List ClauseAt) : Option Nat :=
  (clauses.find? fun found => found.clause == clause).map (·.offset)

end ClauseAt

/-- The clauses stand in the canonical order, in whatever order they are listed. -/
def Canonical (clauses : List ClauseAt) : Prop :=
  ∀ earlier ∈ clauses, ∀ later ∈ clauses, earlier.InOrder later

instance (clauses : List ClauseAt) : Decidable (Canonical clauses) :=
  inferInstanceAs (Decidable (∀ earlier ∈ clauses, ∀ later ∈ clauses, earlier.InOrder later))

end TenantScope
