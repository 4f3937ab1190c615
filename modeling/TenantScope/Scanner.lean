import TenantScope.Outline

/-!
# Scanning for an outline

The outline of a text can be found in one pass over its bytes.  The scanner remembers whether it is
inside a literal and how many parentheses are open, and it takes a word, or a keyword with all the
words in it, in one step.
-/

namespace TenantScope

/-- What the scanner is reading. -/
inductive ScanMode
  /-- Bytes outside literals. -/
  | code
  /-- A literal with the given mark, in which a backslash may be an escape. -/
  | literal (mark : Byte) (escapes : Bool)
  deriving DecidableEq, Repr

/-- What the scanner remembers between two steps. -/
structure Scanner where
  /-- What it is reading. -/
  mode : ScanMode
  /-- Number of open parentheses. -/
  depth : Nat
  /-- What it has found so far. -/
  outline : Outline
  deriving DecidableEq, Repr

namespace Scanner

/-- The keywords that the scanner looks for, in the order in which it tries them. -/
def keywords : List Text :=
  Clause.all.map Clause.keyword ++ Outline.sourceKeyword :: Outline.setOperators

/-- Length of the keyword of the outline at a place. -/
def keyword? (site : Site) : Option Nat :=
  keywords.findSome? site.word?

/-- A step at the beginning of a word: the scanner, and the number of bytes it has read. -/
def stepWord (scanner : Scanner) (site : Site) : Scanner × Nat :=
  let word := (scanner, (site.rest.takeWhile Byte.isIdentifier).length)
  if scanner.depth == 0 && !site.afterDot then
    match keyword? site with
    | some length => ({ scanner with outline := scanner.outline.note site }, length)
    | none => word
  else
    word

/-- A step outside literals. -/
def stepCode (scanner : Scanner) (site : Site) (byte : Byte) : Scanner × Nat :=
  if byte.isQuote then ({ scanner with mode := .literal byte (Literal.opensEscapeString site) }, 1)
  else if byte.isIdentifier then scanner.stepWord site
  else ({ scanner with depth := Site.depthAfter byte scanner.depth }, 1)

/-- A step inside a literal, with the byte after the one it stands on. -/
def stepLiteral (scanner : Scanner) (mark : Byte) (escapes : Bool) (byte : Byte)
    (next? : Option Byte) : Scanner × Nat :=
  if escapes && byte == Byte.backslash then (scanner, 2)
  else if byte == mark then
    if next? == some mark then (scanner, 2) else ({ scanner with mode := .code }, 1)
  else
    (scanner, 1)

/-- What the scanner finds in a text after the bytes `back`; the next `skip` bytes are read
already. -/
def run (scanner : Scanner) (back : Text) (offset : Nat) : (skip : Nat) → Text → Outline
  | _, [] => scanner.outline
  | skip + 1, byte :: rest => run scanner (byte :: back) (offset + 1) skip rest
  | 0, byte :: rest =>
      let (next, width) := match scanner.mode with
        | .code => scanner.stepCode ⟨back, byte :: rest, offset, scanner.depth⟩ byte
        | .literal mark escapes => scanner.stepLiteral mark escapes byte rest.head?
      run next (byte :: back) (offset + 1) (width - 1) rest

/-- The outline that the scanner finds in a text. -/
def scan (text : Text) : Outline :=
  run ⟨.code, 0, .empty⟩ [] 0 0 text

end Scanner

end TenantScope
