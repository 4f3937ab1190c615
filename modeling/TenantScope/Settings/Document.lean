import TenantScope.Decimal

/-!
# Settings documents

A settings document is a tree of named and listed scalars.  A scalar is a text; where a number or a
truth value is wanted, only some texts are one.  Which texts those are, and which part has a name,
is a matter of conventions.
-/

namespace TenantScope

/-- A settings document, or a part of one. -/
inductive Document
  /-- A part that is named and left empty. -/
  | null
  | scalar (text : Text)
  | sequence (items : List Document)
  | mapping (entries : List (Text × Document))
  deriving Repr

namespace Document

/-- The text of a scalar. -/
def text? : Document → Option Text
  | scalar text => some text
  | _ => none

/-- The scalars among the items of a sequence; no other part has items. -/
def scalars : Document → List Text
  | sequence items => items.filterMap text?
  | _ => []

/-- How parts of a document are found and its scalars are read as values.  Whoever reads the
document settles it. -/
structure Conventions where
  /-- The part of a mapping with a name. -/
  find? : String → Document → Option Document
  /-- The text of a part, where the program needs one. -/
  plainText? : Document → Option Text
  /-- The number of 32 bits that a scalar writes. -/
  word? : Text → Option UInt32
  /-- The truth value that a scalar writes. -/
  truth? : Text → Option Bool

/-! ## The conventions of the program -/

/-- The first part of a mapping with a name. -/
def find? (name : String) : Document → Option Document
  | mapping entries => (entries.find? fun entry => entry.1 == Text.ascii name).map Prod.snd
  | _ => none

/-- The text of a part that is no collection; an empty part has a name for its text. -/
def plainText? : Document → Option Text
  | scalar text => some text
  | null => some (Text.ascii "null")
  | _ => none

/-- The base of a number without a sign, and its digits: `0x` announces hexadecimal digits, and a
zero before other digits octal ones. -/
def based (digits : Text) : Nat × Text :=
  if digits.head? != some (Byte.ofChar '0') || digits.length == 1 then (10, digits)
  else if (digits.drop 1).head?.any (·.toUpper == Byte.ofChar 'X') then (16, digits.drop 2)
  else (8, digits)

/-- The number that a scalar writes, perhaps with a plus before it and white space after it, if it
fits in 32 bits. -/
def word? (text : Text) : Option UInt32 :=
  let (base, digits) := based (if text.head? == some Byte.plus then text.tail else text)
  let isDigit := fun digit : Byte => digit.digitValue?.any (· < base)
  let value := Text.ofDigits base (digits.takeWhile isDigit)
  if digits.head?.any isDigit && (digits.dropWhile isDigit).all Byte.isSpace &&
      value < UInt32.size then
    some (UInt32.ofNat value)
  else
    none

/-- The text is a word in lower case, in upper case or with a capital letter. -/
def isCaseOf (word text : Text) : Bool :=
  text == word || text == word.upper || text == (word.take 1).map Byte.toUpper ++ word.drop 1

/-- The truth value that a scalar writes. -/
def truth? (text : Text) : Option Bool :=
  if (["y", "yes", "true", "on"].map Text.ascii).any (isCaseOf · text) then some true
  else if (["n", "no", "false", "off"].map Text.ascii).any (isCaseOf · text) then some false
  else none

/-- The conventions of the program. -/
def Conventions.standard : Conventions where
  find? := Document.find?
  plainText? := Document.plainText?
  word? := Document.word?
  truth? := Document.truth?

/-! ## Values with a fallback -/

namespace Conventions

variable (conventions : Conventions)

/-- A value read from the scalar with a name, or a fallback if there is none that can be read. -/
def readOr {α : Type} (read? : Text → Option α) (name : String) (fallback : α)
    (document : Document) : α :=
  (((conventions.find? name document).bind text?).bind read?).getD fallback

def wordOr (name : String) (fallback : Nat) (document : Document) : Nat :=
  conventions.readOr (fun text => (conventions.word? text).map UInt32.toNat) name fallback document

/-- The scalars listed under a name, or a fallback if the name does not occur. -/
def scalarsOr (name : String) (fallback : List Text) (document : Document) : List Text :=
  ((conventions.find? name document).map scalars).getD fallback

end Conventions

end Document

end TenantScope
