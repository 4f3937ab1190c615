import TenantScope.Word

/-!
# Conditions on the scope column

A region of a condition holds a scope predicate when the scope column, perhaps qualified, is
compared by an equals sign as a term of the outermost conjunction.
-/

namespace TenantScope

namespace Scope

/-- What stands before the last qualifier of the name that a place continues, given the bytes before
the place, nearest first: a word, or a quoted identifier, and the full stop after it. -/
def dropQualifier? : Text → Option Text
  | stop :: last :: before =>
      if stop != Byte.dot then none
      else if last == Byte.quotation || last == Byte.backtick then
        match before.dropWhile (· != last) with
        | [] => none
        | _ :: rest => some rest
      else if last.isIdentifier then some (before.dropWhile Byte.isIdentifier)
      else none
  | _ => none

/-- What stands before all the qualifiers of a name, of which there are at most `count`. -/
def dropQualifiers : (count : Nat) → Text → Text
  | 0, before => before
  | count + 1, before =>
      match dropQualifier? before with
      | none => before
      | some rest => dropQualifiers count rest

/-- A term of a conjunction begins just after the bytes `before`, given nearest first, which reach
back to `start`: nothing comes before it there, or an `AND` or `WHERE`. -/
def beginsTerm (text : Text) (start : Nat) (before : Text) : Bool :=
  let spoken := before.dropWhile Byte.isSpace
  let stop := start + spoken.length
  spoken.isEmpty || Word.endsAt (Text.ascii "AND") text stop ||
    Word.endsAt (Text.ascii "WHERE") text stop

/-- The scope column, given in upper case, is compared at a place as a term of the conjunction
between `start` and `stop`. -/
def isPredicateAt (text column : Text) (start stop : Nat) (site : Site) : Bool :=
  !site.atQuote && site.isTopLevel &&
    (site.word? column).any fun length =>
      let before := site.back.take (site.offset - start)
      site.equalsBefore stop length &&
        beginsTerm text start (dropQualifiers before.length before)

/-- Width of the unit at a place when predicates are looked for: a literal, a column outside
parentheses or one byte. -/
def predicateWidth (column : Text) (site : Site) : Nat :=
  if site.atQuote then Literal.width .standard site
  else if site.isTopLevel then (site.word? column).getD 1
  else 1

/-- The text between `start` and `stop` holds a condition on the column as a term of its
outermost conjunction. -/
def hasPredicate (text column : Text) (start stop : Nat) : Bool :=
  let name := column.upper
  let stop := min stop text.length
  (((Site.atOffset text start).tour (predicateWidth name)).takeWhile (·.offset < stop)).any
    (isPredicateAt text name start stop)

end Scope

end TenantScope
