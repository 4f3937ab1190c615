import TenantScope.Site

/-!
# Quoted literals

A literal begins at an apostrophe, a quotation mark or a backtick and runs through the next mark of
the same kind; a mark written twice stands for itself, and a literal that is never closed runs to
the end of the text.  In an escape string, written `E'...'`, a backslash takes the byte after it
into the literal.  The lexemes of a text are its literals and the single bytes between them.
-/

namespace TenantScope

/-- Which single-quoted literals read a backslash as an escape. -/
inductive Dialect
  /-- Escape strings alone do, as the standard has it. -/
  | standard
  /-- All of them do. -/
  | backslashes
  deriving DecidableEq, Repr

namespace Literal

/-- Length of the rest of a literal through its closing mark, or nothing if no mark closes it. -/
def closing? (mark : Byte) (escapes : Bool) : Text → Option Nat
  | [] => none
  | byte :: rest =>
      if escapes && byte == Byte.backslash then
        match rest with
        | [] => none
        | _ :: rest => (closing? mark escapes rest).map (· + 2)
      else if byte == mark then
        match rest with
        | [] => some 1
        | next :: rest => if next == mark then (closing? mark escapes rest).map (· + 2) else some 1
      else
        (closing? mark escapes rest).map (· + 1)

/-- The bytes before an apostrophe, nearest first, end in an `E` that begins a word. -/
def endsInEscapeLetter : Text → Bool
  | [] => false
  | letter :: before =>
      (letter == Byte.ofChar 'E' || letter == Byte.ofChar 'e') &&
        !before.head?.any Byte.isIdentifier

/-- An escape string begins at the place: its apostrophe follows the `E` directly. -/
def opensEscapeString (site : Site) : Bool :=
  site.byte? == some Byte.apostrophe && endsInEscapeLetter site.back

/-- A literal that begins at the place reads a backslash as an escape. -/
def escapesAt (dialect : Dialect) (site : Site) : Bool :=
  match dialect with
  | .standard => opensEscapeString site
  | .backslashes => site.byte? == some Byte.apostrophe

/-- The literal that begins at the place is closed. -/
def closedAt (dialect : Dialect) (site : Site) : Bool :=
  match site.rest with
  | [] => false
  | mark :: rest => (closing? mark (escapesAt dialect site) rest).isSome

/-- Width of the literal that begins at the place. -/
def width (dialect : Dialect) (site : Site) : Nat :=
  match site.rest with
  | [] => 0
  | mark :: rest =>
      match closing? mark (escapesAt dialect site) rest with
      | some length => length + 1
      | none => rest.length + 1

theorem closing?_le {mark : Byte} {escapes : Bool} {rest : Text} {length : Nat}
    (closed : closing? mark escapes rest = some length) : length ≤ rest.length := by
  fun_induction closing? mark escapes rest generalizing length with
  | case1 => simp at closed
  | case2 => simp at closed
  | case3 _ _ _ _ ih =>
      obtain ⟨inner, found, rfl⟩ := Option.map_eq_some_iff.mp closed
      have bounded := ih found
      simp only [List.length_cons]
      omega
  | case4 => simp_all
  | case5 _ _ _ _ _ _ ih =>
      obtain ⟨inner, found, rfl⟩ := Option.map_eq_some_iff.mp closed
      have bounded := ih found
      simp only [List.length_cons]
      omega
  | case6 => simp_all
  | case7 _ _ _ _ ih =>
      obtain ⟨inner, found, rfl⟩ := Option.map_eq_some_iff.mp closed
      have bounded := ih found
      simp only [List.length_cons]
      omega

/-- The content of a literal as it is written: marks, and backslashes where they escape, twice. -/
def encode (mark : Byte) (escapes : Bool) : Text → Text
  | [] => []
  | byte :: content =>
      if byte == mark || (escapes && byte == Byte.backslash) then
        byte :: byte :: encode mark escapes content
      else
        byte :: encode mark escapes content

theorem closing?_cons {mark byte : Byte} {escapes : Bool} (byte_ne : byte ≠ mark)
    (plain : escapes = true → byte ≠ Byte.backslash) (rest : Text) :
    closing? mark escapes (byte :: rest) = (closing? mark escapes rest).map (· + 1) := by
  conv => lhs; unfold closing?
  cases escapes <;> simp_all

/-- A written literal ends at its closing mark. -/
theorem closing?_encode (mark : Byte) (escapes : Bool) (mark_ne : mark ≠ Byte.backslash)
    (content rest : Text) (open_rest : rest.head? ≠ some mark) :
    closing? mark escapes (encode mark escapes content ++ mark :: rest) =
      some ((encode mark escapes content).length + 1) := by
  induction content with
  | nil =>
      cases rest with
      | nil => simp [encode, closing?, mark_ne]
      | cons next rest =>
          have next_ne : next ≠ mark := by simpa using open_rest
          simp [encode, closing?, mark_ne, next_ne]
  | cons byte content ih =>
      by_cases doubled : byte == mark || (escapes && byte == Byte.backslash)
      · rw [encode, if_pos doubled]
        by_cases same : byte = mark
        · subst same
          simp [closing?, mark_ne, ih]
        · have escaped : escapes = true ∧ byte = Byte.backslash := by simpa [same] using doubled
          obtain ⟨rfl, rfl⟩ := escaped
          simp [closing?, ih]
      · rw [encode, if_neg doubled]
        simp only [Bool.or_eq_true, Bool.and_eq_true, beq_iff_eq, not_or, not_and] at doubled
        rw [List.cons_append, closing?_cons doubled.1 doubled.2, ih]
        rfl

/-- A literal never runs past the end of its text. -/
theorem width_le (dialect : Dialect) (site : Site) : width dialect site ≤ site.rest.length := by
  unfold width
  split
  · simp
  · rename_i mark rest rest_eq
    rw [rest_eq]
    split
    · rename_i length closed
      have bounded := closing?_le closed
      simp only [List.length_cons]
      omega
    · simp

end Literal

namespace Site

/-- Width of the lexeme at a place: a whole literal, or one byte. -/
def lexemeWidth (dialect : Dialect) (site : Site) : Nat :=
  if site.atQuote then Literal.width dialect site else 1

/-- The lexemes from a place to the end. -/
def lexemes (site : Site) (dialect : Dialect := .standard) : List Site :=
  site.tour (lexemeWidth dialect)

/-- The bytes outside literals from a place to the end. -/
def code (site : Site) (dialect : Dialect := .standard) : List Site :=
  (site.lexemes dialect).filter fun lexeme => !lexeme.atQuote

/-- The literals from a place to the end. -/
def literals (site : Site) (dialect : Dialect := .standard) : List Site :=
  (site.lexemes dialect).filter fun lexeme => lexeme.atQuote

end Site

namespace Literal

/-- Offset, in a run of bytes, of the first backslash that stands directly before an apostrophe. -/
def backslashBeforeApostrophe? : Text → Option Nat
  | first :: second :: rest =>
      if first == Byte.backslash && second == Byte.apostrophe then some 0
      else (backslashBeforeApostrophe? (second :: rest)).map (· + 1)
  | _ => none

/-- Offset of the first backslash on which the two dialects may disagree: one directly before an
apostrophe inside a single-quoted literal that is no escape string. -/
def ambiguousBackslash? (text : Text) : Option Nat :=
  (Site.start text).literals.findSome? fun site =>
    if site.byte? == some Byte.apostrophe && !opensEscapeString site then
      (backslashBeforeApostrophe? ((site.rest.take (width .standard site)).drop 1)).map
        (site.offset + 1 + ·)
    else
      none

/-- For every quotation mark of a text, its offset, where a literal that begins there would end, and
whether that literal would be an escape string. -/
def spans (text : Text) : List (Nat × Nat × Bool) :=
  ((Site.start text).everywhere.filter Site.atQuote).map fun site =>
    (site.offset, site.offset + width .standard site, opensEscapeString site)

end Literal

end TenantScope
