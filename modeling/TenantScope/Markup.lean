import TenantScope.Site

/-!
# Markup around a statement

A statement may arrive inside a code fence of three backticks, with comments in it or with tags of a
markup language around its parts.  This file says how long each of these is.
-/

namespace TenantScope

namespace Markup

def fenceMark : Text :=
  List.replicate 3 Byte.backtick

/-- Names of the query language that may follow a fence on the same line. -/
def fenceLanguages : List Text :=
  [Text.ascii "sql", Text.ascii "postgresql", Text.ascii "postgres", Text.ascii "psql",
    Text.ascii "mysql"]

/-- The letters after a fence name a language: they end the line, or are a known name with white
space after it. -/
def isLanguage (letters after : Text) : Bool :=
  match after with
  | [] => true
  | byte :: _ =>
      byte == Byte.lineFeed || byte == Byte.carriageReturn ||
        (fenceLanguages.contains (Text.lower letters) && byte.isSpace)

/-- Length of the fence at the head of a text, with the language it names. -/
def fence? (text : Text) : Option Nat :=
  if fenceMark.isPrefixOf text then
    let after := text.drop fenceMark.length
    let letters := after.takeWhile Byte.isAlpha
    if isLanguage letters (after.dropWhile Byte.isAlpha) then
      some (fenceMark.length + letters.length)
    else some fenceMark.length
  else
    none

/-- The text with every fence replaced by a blank. -/
def unfence (text : Text) : Text :=
  ((Site.start text).tour fun site => (fence? site.rest).getD 1).flatMap fun site =>
    if (fence? site.rest).isSome then [Byte.blank] else site.rest.take 1

/-- Length of the comment at the head of a text: two hyphens up to the line feed, or a block that
runs to the end of the text when nothing closes it. -/
def comment? (text : Text) : Option Nat :=
  if (Text.ascii "--").isPrefixOf text then
    some (text.takeWhile (· != Byte.lineFeed)).length
  else if (Text.ascii "/*").isPrefixOf text then
    match Text.through? (Text.ascii "*/") (text.drop 2) with
    | some length => some (length + 2)
    | none => some text.length
  else
    none

/-- How far a tag has been read. -/
inductive TagState
  /-- Just after the angle bracket. -/
  | opened
  /-- After the slash of a closing tag. -/
  | closing
  /-- In the name of the tag. -/
  | name
  /-- In white space before an attribute or the end. -/
  | blank
  /-- In the name of an attribute. -/
  | parameter
  /-- Between the name of an attribute and its equals sign. -/
  | beforeEquals
  /-- Between the equals sign and the mark that opens the value. -/
  | afterEquals
  /-- In a value that the given mark closes. -/
  | value (mark : Byte)
  /-- Just after the mark that closes a value. -/
  | afterValue
  /-- After the slash of a tag without content. -/
  | selfClosing
  deriving DecidableEq, Repr

namespace TagState

/-- The state after white space, a slash or a letter has followed the name or a value. -/
def separated? (byte : Byte) : Option TagState :=
  if byte.isSpace then some blank
  else if byte == Byte.slash then some selfClosing
  else none

/-- The state after one more byte that does not end the tag, unless no tag has that byte there. -/
def step? : TagState → Byte → Option TagState
  | opened, byte =>
      if byte == Byte.slash then some closing else if byte.isAlpha then some name else none
  | closing, byte => if byte.isAlpha then some name else none
  | name, byte => if byte.isAlphanumeric || byte == Byte.hyphen then some name else separated? byte
  | blank, byte => if byte.isAlpha then some parameter else separated? byte
  | parameter, byte =>
      if byte.isAlphanumeric || byte == Byte.hyphen || byte == Byte.underscore then some parameter
      else if byte.isSpace then some beforeEquals
      else if byte == Byte.equals then some afterEquals
      else none
  | beforeEquals, byte =>
      if byte.isSpace then some beforeEquals
      else if byte == Byte.equals then some afterEquals
      else none
  | afterEquals, byte =>
      if byte.isSpace then some afterEquals
      else if byte == Byte.quotation || byte == Byte.apostrophe then some (value byte)
      else none
  | value mark, byte => if byte == mark then some afterValue else some (value mark)
  | afterValue, byte => separated? byte
  | selfClosing, _ => none

/-- A closing angle bracket ends the tag in this state. -/
def mayEnd : TagState → Bool
  | name | blank | afterValue | selfClosing => true
  | _ => false

/-- Number of bytes from this state through the end of the tag. -/
def length? : TagState → Text → Option Nat
  | _, [] => none
  | state, byte :: rest =>
      if byte == Byte.greaterThan && state.mayEnd then some 1
      else
        match state.step? byte with
        | none => none
        | some next => (length? next rest).map (· + 1)

end TagState

/-- Length of the tag at the head of a text: a name and attributes with quoted values,
between angle brackets. -/
def tag? : Text → Option Nat
  | [] => none
  | byte :: rest =>
      if byte == Byte.lessThan then (TagState.opened.length? rest).map (· + 1) else none

end Markup

end TenantScope
