import TenantScope.Text

/-!
# Places in a text

A site is a place in a text together with the bytes on both sides of it and the number of
parentheses that are open there.  A tour visits the successive units of a text: the width function
says how many bytes the unit at a site takes, and the next site visited is the one after them.
Every reading of a statement in this library is a tour with a width of its own, followed by an
ordinary operation on the list of sites.
-/

namespace TenantScope

/-- A place in a text. -/
structure Site where
  /-- The bytes before the place, the nearest one first. -/
  back : Text
  /-- The bytes from the place on. -/
  rest : Text
  /-- Number of bytes before the place. -/
  offset : Nat
  /-- Number of parentheses open at the place; a closing one that opens nothing is not counted. -/
  depth : Nat
  deriving DecidableEq, Repr

namespace Site

/-- The place `offset` bytes into a text, from where parentheses are counted afresh. -/
def atOffset (text : Text) (offset : Nat) : Site where
  back := (text.take offset).reverse
  rest := text.drop offset
  offset := offset
  depth := 0

/-- The first place of a text. -/
def start (text : Text) : Site where
  back := []
  rest := text
  offset := 0
  depth := 0

theorem atOffset_zero (text : Text) : Site.atOffset text 0 = start text := by
  simp [atOffset, start]

/-- The byte just before the place. -/
def previous? (site : Site) : Option Byte :=
  site.back.head?

/-- The byte at the place. -/
def byte? (site : Site) : Option Byte :=
  site.rest.head?

/-- The byte just before the place belongs to a word. -/
def afterIdentifier (site : Site) : Bool :=
  site.previous?.any Byte.isIdentifier

/-- The place follows a full stop directly, as the later parts of a qualified name do. -/
def afterDot (site : Site) : Bool :=
  site.previous? == some Byte.dot

/-- A quotation mark of some kind stands at the place. -/
def atQuote (site : Site) : Bool :=
  site.byte?.any Byte.isQuote

/-- A parenthesis stands at the place. -/
def atParen (site : Site) : Bool :=
  site.byte? == some Byte.openParen || site.byte? == some Byte.closeParen

/-- Number of open parentheses after one more byte outside literals. -/
def depthAfter (byte : Byte) (depth : Nat) : Nat :=
  if byte == Byte.openParen then depth + 1
  else if byte == Byte.closeParen then depth - 1
  else depth

/-- The sites of a tour from a place on; the next `skip` bytes belong to a unit visited already. -/
def walk (width : Site → Nat) (back : Text) (offset depth : Nat) : Nat → Text → List Site
  | _, [] => []
  | skip + 1, byte :: rest => walk width (byte :: back) (offset + 1) depth skip rest
  | 0, byte :: rest =>
      let here : Site := ⟨back, byte :: rest, offset, depth⟩
      here :: walk width (byte :: back) (offset + 1) (depthAfter byte depth) (width here - 1) rest

/-- The sites at which the successive units of a text begin, from a place to the end. -/
def tour (width : Site → Nat) (site : Site) : List Site :=
  walk width site.back site.offset site.depth 0 site.rest

/-- Every site from a place to the end. -/
def everywhere (site : Site) : List Site :=
  site.tour fun _ => 1

/-- Bytes that belong to a unit visited already are passed over. -/
theorem walk_skip (width : Site → Nat) (back : Text) (offset depth skip : Nat) (rest : Text) :
    walk width back offset depth skip rest =
      walk width ((rest.take skip).reverse ++ back) (offset + min skip rest.length) depth 0
        (rest.drop skip) := by
  induction rest generalizing skip back offset with
  | nil => cases skip <;> simp [walk]
  | cons byte rest ih =>
      cases skip with
      | zero => simp
      | succ skip =>
          rw [walk, ih]
          simp only [List.take_succ_cons, List.reverse_cons, List.append_assoc,
            List.singleton_append, List.length_cons, List.drop_succ_cons]
          congr 1
          omega

/-- The bytes before a visited site and those after it make up the text toured. -/
theorem back_rest_of_mem_walk {width : Site → Nat} {back rest : Text} {offset depth skip : Nat}
    {site : Site} (member : site ∈ walk width back offset depth skip rest) :
    site.back.reverse ++ site.rest = back.reverse ++ rest := by
  induction rest generalizing back offset depth skip with
  | nil => simp [walk] at member
  | cons byte rest ih =>
      cases skip with
      | succ skip =>
          rw [walk] at member
          simpa using ih member
      | zero =>
          simp only [walk, List.mem_cons] at member
          rcases member with rfl | member
          · rfl
          · simpa using ih member

/-- The offset of a visited site grows with the bytes before it. -/
theorem offset_of_mem_walk {width : Site → Nat} {back rest : Text} {offset depth skip : Nat}
    {site : Site} (member : site ∈ walk width back offset depth skip rest) :
    site.offset + back.length = offset + site.back.length := by
  induction rest generalizing back offset depth skip with
  | nil => simp [walk] at member
  | cons byte rest ih =>
      cases skip with
      | succ skip =>
          rw [walk] at member
          have grown := ih member
          simp only [List.length_cons] at grown
          omega
      | zero =>
          simp only [walk, List.mem_cons] at member
          rcases member with rfl | member
          · rfl
          · have grown := ih member
            simp only [List.length_cons] at grown
            omega

/-- A site visited by a tour of a text is the place of its own offset. -/
theorem of_mem_tour_start {width : Site → Nat} {text : Text} {site : Site}
    (member : site ∈ (start text).tour width) :
    site.back = (text.take site.offset).reverse ∧ site.rest = text.drop site.offset := by
  have whole := back_rest_of_mem_walk member
  have counted := offset_of_mem_walk member
  simp only [start, List.reverse_nil, List.nil_append] at whole
  have offset_eq : site.offset = site.back.reverse.length := by
    simp only [start, List.length_nil] at counted
    simp only [List.length_reverse]
    omega
  rw [offset_eq, ← whole]
  simp

end Site

end TenantScope
