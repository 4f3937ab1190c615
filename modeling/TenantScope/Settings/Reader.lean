import TenantScope.Settings.Document

/-!
# The written form of settings documents

A settings document is written in lines.  An entry of a mapping is a name, a colon and a value on
the same line, or a block of lines that are indented further; an item of a sequence begins with a
hyphen.  A value may be quoted, and a short sequence may be written between brackets.
-/

namespace TenantScope

namespace Document

/-- A line that holds something. -/
structure Line where
  /-- Number of the line, counted from 1. -/
  number : Nat
  /-- Number of blanks in front. -/
  indent : Nat
  /-- What the line holds, without comment and without white space at the ends. -/
  content : Text
  deriving DecidableEq, Repr

/-- The state of quoting after one more byte: the mark that would close the quotation, if any. -/
def quoting (mark? : Option Byte) (byte : Byte) : Option Byte :=
  match mark? with
  | some mark => if byte == mark then none else some mark
  | none => if byte == Byte.quotation || byte == Byte.apostrophe then some byte else none

/-- The text before the first byte outside quotations at which `stops` holds of what follows there
and of the byte before, with the text from that byte on. -/
def splitWhere (stops : Option Byte → Text → Bool) :
    (before? : Option Byte) → (mark? : Option Byte) → Text → Text × Text
  | _, _, [] => ([], [])
  | before?, mark?, byte :: rest =>
      if mark?.isNone && stops before? (byte :: rest) then ([], byte :: rest)
      else
        let (first, second) := splitWhere stops (some byte) (quoting mark? byte) rest
        (byte :: first, second)

/-- A comment begins with a number sign at the beginning or after white space. -/
def beginsComment (before? : Option Byte) (text : Text) : Bool :=
  text.head? == some Byte.numberSign && before?.all Byte.isSpace

/-- The colon of an entry ends the line or has white space after it. -/
def endsName (_ : Option Byte) (text : Text) : Bool :=
  match text with
  | first :: next :: _ => first == Byte.colon && next.isSpace
  | [first] => first == Byte.colon
  | [] => false

def endsItem (_ : Option Byte) (text : Text) : Bool :=
  text.head? == some Byte.comma

/-- The parts of a text between its line feeds. -/
def rawLines : Text → List Text
  | [] => [[]]
  | byte :: rest =>
      if byte == Byte.lineFeed then [] :: rawLines rest
      else
        match rawLines rest with
        | [] => [[byte]]
        | line :: lines => (byte :: line) :: lines

/-- The lines that hold something, from the line with a number on. -/
def linesFrom : (number : Nat) → List Text → List Line
  | _, [] => []
  | number, raw :: others =>
      let content := Text.trim (splitWhere beginsComment none none raw).1
      let lines := linesFrom (number + 1) others
      if content.isEmpty || content == Text.ascii "---" then lines
      else ⟨number, (raw.takeWhile (· == Byte.blank)).length, content⟩ :: lines

/-- The byte that a letter after a backslash stands for. -/
def escaped (letter : Byte) : Byte :=
  if letter == Byte.ofChar 'n' then Byte.lineFeed
  else if letter == Byte.ofChar 't' then Byte.tab
  else if letter == Byte.ofChar 'r' then Byte.carriageReturn
  else if letter == Byte.ofChar '0' then 0
  else letter

/-- The text of a quotation in quotation marks, up to the mark that closes it. -/
def unescape : Text → Text
  | [] => []
  | Byte.backslash :: letter :: rest => escaped letter :: unescape rest
  | byte :: rest => if byte == Byte.quotation then [] else byte :: unescape rest

/-- The text of a quotation in apostrophes, where an apostrophe is written twice. -/
def undouble : Text → Text
  | Byte.apostrophe :: Byte.apostrophe :: rest => Byte.apostrophe :: undouble rest
  | byte :: rest => if byte == Byte.apostrophe then [] else byte :: undouble rest
  | [] => []

/-- The text of a value without quotation marks. -/
def unquote : Text → Text
  | [] => []
  | byte :: rest =>
      if byte == Byte.quotation then unescape rest
      else if byte == Byte.apostrophe then undouble rest
      else byte :: rest

/-- The value that a text on one line gives, unless it is a sequence. -/
def readScalar (text : Text) : Document :=
  if ["", "~", "null", "Null", "NULL"].any fun word => text == Text.ascii word then null
  else scalar (unquote text)

/-- The items of a text that stands between brackets; there are at most `fuel` of them. -/
def readItems : (fuel : Nat) → Text → List Document
  | 0, _ => []
  | fuel + 1, text =>
      let (item, rest) := splitWhere endsItem none none text
      readScalar (Text.trim item) ::
        match rest with
        | [] => []
        | _ :: rest => readItems fuel rest

/-- The value that a text on one line gives. -/
def readValue (text : Text) : Document :=
  match text with
  | Byte.openBracket :: rest =>
      let inside := Text.dropRightWhile (fun byte => byte == Byte.closeBracket || byte.isSpace) rest
      if inside.isEmpty then sequence [] else sequence (readItems (inside.length + 1) inside)
  | Byte.openBrace :: _ => mapping []
  | _ => readScalar text

/-- The text after the hyphen of an item, if the line is one. -/
def itemText? (line : Line) : Option Text :=
  match line.content with
  | first :: rest =>
      if first == Byte.hyphen && rest.head?.all Byte.isSpace then
        some (rest.dropWhile Byte.isSpace)
      else none
  | [] => none

/-- The name and the text of an entry, if the line is one. -/
def entryTexts? (line : Line) : Option (Text × Text) :=
  match splitWhere endsName none none line.content with
  | (_, []) => none
  | (name, _ :: rest) => some (unquote (Text.trim name), Text.trim rest)

/-- The lines that belong to the value of an entry: those indented further, and the items of a
sequence that are indented as far. -/
def valueLines (line : Line) (lines : List Line) : List Line × List Line :=
  let deeper := lines.span fun other => line.indent < other.indent
  match deeper.1 with
  | [] =>
      lines.span fun other =>
        line.indent < other.indent || (line.indent == other.indent && (itemText? other).isSome)
  | _ => deeper

mutual

/-- The document that a block of lines gives, or the number of a line that fits nowhere. -/
def readBlock : (fuel : Nat) → List Line → Except Nat Document
  | 0, _ => .error 0
  | _ + 1, [] => .ok null
  | fuel + 1, line :: lines =>
      if (itemText? line).isSome then (readSequence fuel (line :: lines)).map sequence
      else if (entryTexts? line).isSome then (readMapping fuel (line :: lines)).map mapping
      else
        match lines with
        | [] => .ok (readValue line.content)
        | other :: _ => .error other.number

/-- The items of a block. -/
def readSequence : (fuel : Nat) → List Line → Except Nat (List Document)
  | 0, _ => .error 0
  | _ + 1, [] => .ok []
  | fuel + 1, line :: lines =>
      match itemText? line with
      | none => .error line.number
      | some text => do
          let (inside, others) := lines.span fun other => line.indent < other.indent
          let first := if text.isEmpty then [] else
            [(⟨line.number, line.indent + (line.content.length - text.length), text⟩ : Line)]
          let item ← readBlock fuel (first ++ inside)
          let items ← readSequence fuel others
          return item :: items

/-- The entries of a block. -/
def readMapping : (fuel : Nat) → List Line → Except Nat (List (Text × Document))
  | 0, _ => .error 0
  | _ + 1, [] => .ok []
  | fuel + 1, line :: lines =>
      match entryTexts? line with
      | none => .error line.number
      | some (name, text) =>
          if text.isEmpty then do
            let (inside, others) := valueLines line lines
            let value ← readBlock fuel inside
            let entries ← readMapping fuel others
            return (name, value) :: entries
          else do
            let entries ← readMapping fuel lines
            return (name, readValue text) :: entries

end

/-- The document that a text writes, or the number of a line that fits nowhere. -/
def ofText (text : Text) : Except Nat Document :=
  let lines := linesFrom 1 (rawLines text)
  readBlock (2 * text.length + 2) lines

end Document

end TenantScope
