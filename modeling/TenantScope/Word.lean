import TenantScope.Literal

/-!
# Keywords as whole words

A keyword is written in upper case, and a blank in it stands for one or more bytes of white
space.  It occurs at a place when the text spells it there in any case and no byte of a word
touches it on either side.
-/

namespace TenantScope

namespace Word

/-- Number of bytes that spell a keyword at the head of a text, with the text after them. -/
def spelled? : Text → Text → Option (Nat × Text)
  | [], text => some (0, text)
  | letter :: keyword, text =>
      if letter == Byte.blank then
        match text.takeWhile Byte.isSpace with
        | [] => none
        | blanks =>
            (spelled? keyword (text.dropWhile Byte.isSpace)).map fun (length, rest) =>
              (blanks.length + length, rest)
      else
        match text with
        | [] => none
        | byte :: rest =>
            if byte.toUpper == letter then
              (spelled? keyword rest).map fun (length, rest) => (length + 1, rest)
            else
              none

end Word

namespace Site

/-- Length of the occurrence of a keyword at a place, if it occurs there. -/
def word? (keyword : Text) (site : Site) : Option Nat :=
  if keyword.isEmpty || site.rest.isEmpty || site.afterIdentifier then none
  else
    match Word.spelled? keyword site.rest with
    | none => none
    | some (length, after) => if after.head?.any Byte.isIdentifier then none else some length

/-- A keyword occurs at the place. -/
def hasWord (keyword : Text) (site : Site) : Bool :=
  (site.word? keyword).isSome

/-- An equals sign stands `length` bytes after the place, or after the white space
there, and before `stop`. -/
def equalsBefore (stop length : Nat) (site : Site) : Bool :=
  let after := site.rest.drop length
  decide (site.offset + length + (after.takeWhile Byte.isSpace).length < stop) &&
    (after.dropWhile Byte.isSpace).head? == some Byte.equals

/-- The place lies in no parentheses and on none. -/
def isTopLevel (site : Site) : Bool :=
  site.depth == 0 && !site.atParen

end Site

namespace Word

/-- A keyword ends just before the place `offset` of a text and is spelled without white space. -/
def endsAt (keyword : Text) (text : Text) (offset : Nat) : Bool :=
  decide (keyword.length ≤ offset) &&
    (Site.atOffset text (offset - keyword.length)).word? keyword == some keyword.length

/-- Offset of the first occurrence of a keyword at or after `start`, inside literals too. -/
def first? (keyword text : Text) (start : Nat) : Option Nat :=
  ((Site.atOffset text start).everywhere.find? (Site.hasWord keyword)).map (·.offset)

/-- Offset of the first occurrence of a keyword that lies between `start` and `stop`, outside
literals and outside the parentheses opened after `start`. -/
def firstTopLevel? (keyword text : Text) (start stop : Nat) : Option Nat :=
  let stop := min stop text.length
  let sites := (Site.atOffset text start).code.takeWhile (·.offset < stop)
  (sites.find? fun site =>
    site.isTopLevel && (site.word? keyword).any (site.offset + · ≤ stop)).map (·.offset)

/-- Width of the unit at a place when the occurrences of a keyword are counted: a literal, an
occurrence or one byte. -/
def countingWidth (keyword : Text) (site : Site) : Nat :=
  if site.atQuote then Literal.width .standard site
  else (site.word? keyword).getD 1

/-- Number of occurrences of a keyword outside literals, none of them overlapping the one before. -/
def count (keyword text : Text) : Nat :=
  ((Site.start text).tour (countingWidth keyword)).countP fun site =>
    !site.atQuote && site.hasWord keyword

end Word

end TenantScope
