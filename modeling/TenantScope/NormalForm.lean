import TenantScope.Literal
import TenantScope.Markup
import TenantScope.Spacing

/-!
# The normal form of a statement

In normal form a statement has one blank wherever its words are separated, keeps its
literals byte for byte, and ends in exactly one semicolon.  Sanitizing also takes off
fences, comments and tags first.
-/

namespace TenantScope

namespace NormalForm

/-- Length of the comment or tag at a place. -/
def markup? (site : Site) : Option Nat :=
  (Markup.comment? site.rest).or (Markup.tag? site.rest)

/-- Width of the unit at a place when markup is taken out: a literal, a comment, a tag or one
byte. -/
def plainWidth (site : Site) : Nat :=
  if site.atQuote then Literal.width .standard site else (markup? site).getD 1

/-- What stays of the unit at a place when markup is taken out. -/
def plainFragment (site : Site) : Fragment :=
  if site.atQuote then .kept (site.rest.take (Literal.width .standard site))
  else
    match markup? site, site.byte? with
    | none, some byte => .ofByte byte
    | _, _ => .gap

/-- What stays of the lexeme at a place. -/
def fragment (site : Site) : Fragment :=
  match site.byte? with
  | none => .gap
  | some byte =>
      if byte.isQuote then .kept (site.rest.take (Literal.width .standard site))
      else .ofByte byte

/-- The text with the semicolons and white space at its end replaced by one semicolon; nothing if
nothing else is there. -/
def terminate (text : Text) : Text :=
  match Text.dropRightWhile (fun byte => byte == Byte.semicolon || byte.isSpace) text with
  | [] => []
  | body => body ++ [Byte.semicolon]

end NormalForm

namespace Text

/-- The normal form of a statement without markup. -/
def normalize (text : Text) : Text :=
  NormalForm.terminate (Fragment.join ((Site.start text).lexemes.map NormalForm.fragment))

/-- The normal form of a statement with its comments and tags taken out. -/
def normalizePlain (text : Text) : Text :=
  NormalForm.terminate (Fragment.join
    (((Site.start text).tour NormalForm.plainWidth).map NormalForm.plainFragment))

/-- The normal form of a statement as it was received, with its fences, comments
and tags taken out. -/
def sanitize (text : Text) : Text :=
  normalizePlain (Markup.unfence text)

end Text

end TenantScope
