import TenantScope.Literal

/-!
# Names of tables

A table is named by one or more parts joined by full stops.  Two names that differ in case, in
quotation marks or in the parts before the last one have the same key.
-/

namespace TenantScope

namespace TableName

/-- A quotation mark or a backtick, between which an identifier is quoted. -/
def isMark (byte : Byte) : Bool :=
  byte == Byte.quotation || byte == Byte.backtick

/-- A byte that continues the name of a table. -/
def continues (byte : Byte) : Bool :=
  byte.isIdentifier || byte == Byte.dot || isMark byte

/-- The name at the head of a text, without its quotation marks; nothing in front of a
parenthesis. -/
def read (text : Text) : Text :=
  ((text.dropWhile Byte.isSpace).takeWhile continues).filter fun byte => !isMark byte

/-- The last part of a name, unquoted and in lower case. -/
def key (name : Text) : Text :=
  let unquoted := name.filter fun byte => !isMark byte
  Text.lower ((unquoted.reverse.takeWhile (· != Byte.dot)).reverse)

/-- The place begins with a database name and the full stop after it, so that what follows them is a
table name or the next part of one. -/
def isQualifiedBy (database : Text) (site : Site) : Bool :=
  !site.atQuote && !site.afterIdentifier && !site.afterDot &&
    Text.lower (site.rest.take database.length) == Text.lower database &&
    match site.rest.drop database.length with
    | stop :: next :: _ => stop == Byte.dot && (next.isIdentifier || isMark next)
    | _ => false

/-- Width of the unit at a place when a database name is taken off: a qualifier with its full stop,
a literal or one byte. -/
def unqualifyingWidth (database : Text) (site : Site) : Nat :=
  if isQualifiedBy database site then database.length + 1 else site.lexemeWidth .standard

/-- The text without the qualifiers that name the database; literals stay as they are. -/
def unqualify (database text : Text) : Text :=
  if database.isEmpty then text
  else
    ((Site.start text).tour (unqualifyingWidth database)).flatMap fun site =>
      if isQualifiedBy database site then []
      else site.rest.take (site.lexemeWidth .standard)

end TableName

end TenantScope
