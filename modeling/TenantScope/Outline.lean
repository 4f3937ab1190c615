import TenantScope.Clause
import TenantScope.TableName
import TenantScope.Word

/-!
# The outline of a query

The outline says where the clauses of the outermost query begin, what it reads from and whether it
combines several queries.  Keywords count outside literals and parentheses, and not directly after a
full stop, where they are parts of a qualified name.
-/

namespace TenantScope

/-- What the outermost query reads from. -/
structure Source where
  /-- Offset of the keyword `FROM`. -/
  offset : Nat
  /-- Name of the table after it, without quotation marks; empty for a query in parentheses. -/
  table : Text
  deriving DecidableEq, Repr

/-- The shape of the outermost query of a text. -/
structure Outline where
  /-- The first occurrence of each clause, in the order of the text. -/
  clauses : List ClauseAt
  /-- What the query reads from, if anything. -/
  source? : Option Source
  /-- The text combines queries with `UNION`, `INTERSECT` or `EXCEPT`. -/
  compound : Bool
  deriving DecidableEq, Repr

namespace Outline

/-- The outline of a text without keywords. -/
def empty : Outline :=
  ⟨[], none, false⟩

/-- The keyword that names what a query reads from. -/
def sourceKeyword : Text :=
  Text.ascii "FROM"

/-- The keywords that combine queries. -/
def setOperators : List Text :=
  [Text.ascii "UNION", Text.ascii "INTERSECT", Text.ascii "EXCEPT"]

/-- The clause whose keyword occurs at a place. -/
def clauseAt? (site : Site) : Option Clause :=
  Clause.all.find? fun clause => site.hasWord clause.keyword

/-- Offset of a clause of the outline. -/
def find? (outline : Outline) (clause : Clause) : Option Nat :=
  ClauseAt.find? clause outline.clauses

/-- Offset of the earliest clause other than `WHERE`. -/
def earliestTail? (outline : Outline) : Option Nat :=
  ((outline.clauses.filter fun found => found.clause != .filter).map (·.offset)).min?

/-- Name of the table that the query reads from, empty without one. -/
def table (outline : Outline) : Text :=
  (outline.source?.map (·.table)).getD []

/-- A clause begins at the place, the first of its kind. -/
def addClause (outline : Outline) (clause : Clause) (offset : Nat) : Outline :=
  if outline.clauses.any fun found => found.clause == clause then outline
  else { outline with clauses := outline.clauses ++ [⟨clause, offset⟩] }

/-- The keyword `FROM` of the given length occurs at the place. -/
def addSource (outline : Outline) (site : Site) (length : Nat) : Outline :=
  match outline.source? with
  | some _ => outline
  | none =>
      { outline with source? := some ⟨site.offset, TableName.read (site.rest.drop length)⟩ }

/-- What one more place of the text adds to the outline. -/
def note (outline : Outline) (site : Site) : Outline :=
  match clauseAt? site with
  | some clause => outline.addClause clause site.offset
  | none =>
      match site.word? sourceKeyword with
      | some length => outline.addSource site length
      | none =>
          if setOperators.any site.hasWord then { outline with compound := true } else outline

/-- Keywords of the outline count at the place. -/
def counts (site : Site) : Bool :=
  site.isTopLevel && !site.afterDot

/-- The outline of a text, whose literals are read in the given dialect. -/
def ofText (text : Text) (dialect : Dialect := .standard) : Outline :=
  (((Site.start text).code dialect).filter counts).foldl note empty

end Outline

end TenantScope
