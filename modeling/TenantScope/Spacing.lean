import TenantScope.Text

/-!
# Runs of blanks

A text is read as fragments: bytes to keep and gaps between them.  Joined again, each run of gaps
between kept bytes is one blank, and gaps at either end are gone.
-/

namespace TenantScope

/-- A piece of a text whose spacing is being settled. -/
inductive Fragment
  /-- Bytes that stay as they are. -/
  | kept (bytes : Text)
  /-- Something that separates words and has no other meaning. -/
  | gap
  deriving DecidableEq, Repr

namespace Fragment

/-- The fragment of a byte that is no part of a literal. -/
def ofByte (byte : Byte) : Fragment :=
  if byte.isSpace then gap else kept [byte]

/-- The text of the fragments that follow a kept one; `pending` tells that gaps have come
between. -/
def joinAfter : (pending : Bool) → List Fragment → Text
  | _, [] => []
  | _, gap :: fragments => joinAfter true fragments
  | pending, kept bytes :: fragments =>
      (if pending then [Byte.blank] else []) ++ bytes ++ joinAfter false fragments

/-- The text of a list of fragments. -/
def join : List Fragment → Text
  | [] => []
  | gap :: fragments => join fragments
  | kept bytes :: fragments => bytes ++ joinAfter false fragments

end Fragment

namespace Text

/-- The text with every run of white space as one blank and none at either end. -/
def squeeze (text : Text) : Text :=
  Fragment.join (text.map Fragment.ofByte)

/-- A squeezed text for a report, cut to `limit` bytes with three full stops after the cut. -/
def excerpt (limit : Nat) (text : Text) : Text :=
  let squeezed := squeeze text
  if squeezed.length ≤ limit then squeezed else squeezed.take limit ++ ascii "..."

end Text

end TenantScope
