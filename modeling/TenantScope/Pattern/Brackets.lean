import TenantScope.Decimal
import TenantScope.Pattern

/-!
# Escapes and bracketed sets

A backslash in a written pattern gives the byte after it a meaning of its own: a class such as `\d`,
a byte written as a number, the edge of a word, or a group that came before.  A set in brackets
lists bytes, ranges such as `a-z`, escapes, and named classes such as `[:alpha:]`.
-/

namespace TenantScope

namespace ByteSet

def digits : List (Byte × Byte) :=
  [(48, 57)]

def letters : List (Byte × Byte) :=
  [(65, 90), (97, 122)]

def wordBytes : List (Byte × Byte) :=
  [(48, 57), (65, 90), (95, 95), (97, 122)]

def spaces : List (Byte × Byte) :=
  [(9, 13), (32, 32)]

/-- The classes that have names; without regard to case, all letters are both
upper and lower case. -/
def classes : List (String × List (Byte × Byte)) :=
  [("d", digits), ("w", wordBytes), ("s", spaces), ("alnum", digits ++ letters), ("alpha", letters),
    ("blank", [(9, 9), (32, 32)]), ("cntrl", [(0, 31), (127, 127)]), ("digit", digits),
    ("graph", [(33, 126)]), ("lower", letters), ("print", [(32, 126)]),
    ("punct", [(33, 47), (58, 64), (91, 96), (123, 126)]), ("space", spaces), ("upper", letters),
    ("xdigit", [(48, 57), (65, 70), (97, 102)])]

/-- The ranges of the class with a name, whose case does not matter. -/
def classRanges? (name : Text) : Option (List (Byte × Byte)) :=
  (classes.find? fun named => Text.ascii named.1 == name.lower).map Prod.snd

/-- The gaps between ranges that are listed in increasing order, from `next` on. -/
def gaps (next : Nat) : List (Byte × Byte) → List (Byte × Byte)
  | [] => if next ≤ 255 then [(UInt8.ofNat next, 255)] else []
  | (low, high) :: ranges =>
      if next < low.toNat then (UInt8.ofNat next, low - 1) :: gaps (high.toNat + 1) ranges
      else gaps (high.toNat + 1) ranges

/-- A range from one byte to another, where the bytes from 0x80 on come before the others. -/
def range? (low high : Byte) : Option (List (Byte × Byte)) :=
  if low + 128 ≤ high + 128 then
    if low ≤ high then some [(low, high)] else some [(low, 255), (0, high)]
  else none

/-- The names of bytes; the one at an index is that of the byte. -/
def byteNames : List String :=
  ["NUL", "SOH", "STX", "ETX", "EOT", "ENQ", "ACK", "alert", "backspace", "tab", "newline",
    "vertical-tab", "form-feed", "carriage-return", "SO", "SI", "DLE", "DC1", "DC2", "DC3", "DC4",
    "NAK", "SYN", "ETB", "CAN", "EM", "SUB", "ESC", "IS4", "IS3", "IS2", "IS1", "space",
    "exclamation-mark", "quotation-mark", "number-sign", "dollar-sign", "percent-sign", "ampersand",
    "apostrophe", "left-parenthesis", "right-parenthesis", "asterisk", "plus-sign", "comma",
    "hyphen", "period", "slash", "zero", "one", "two", "three", "four", "five", "six", "seven",
    "eight", "nine", "colon", "semicolon", "less-than-sign", "equals-sign", "greater-than-sign",
    "question-mark", "commercial-at", "A", "B", "C", "D", "E", "F", "G", "H", "I", "J", "K", "L",
    "M", "N", "O", "P", "Q", "R", "S", "T", "U", "V", "W", "X", "Y", "Z", "left-square-bracket",
    "backslash", "right-square-bracket", "circumflex", "underscore", "grave-accent", "a", "b", "c",
    "d", "e", "f", "g", "h", "i", "j", "k", "l", "m", "n", "o", "p", "q", "r", "s", "t", "u", "v",
    "w", "x", "y", "z", "left-curly-bracket", "vertical-line", "right-curly-bracket", "tilde",
    "DEL"]

/-- The byte with a name. -/
def named? (name : Text) : Option Byte :=
  (byteNames.findIdx? fun listed => Text.ascii listed == name).map UInt8.ofNat

end ByteSet

namespace Pattern

/-! ## Escapes -/

/-- What a backslash and the bytes after it stand for. -/
inductive Escape
  | byte (byte : Byte)
  | oneOf (ranges : List (Byte × Byte))
  | wordEdge (expected : Bool)
  | again (group : Nat)
  deriving DecidableEq, Repr

/-- The control bytes that single bytes after a backslash stand for. -/
def controls : List (Char × Byte) :=
  [('0', 0), ('f', 12), ('n', Byte.lineFeed), ('r', Byte.carriageReturn), ('t', Byte.tab),
    ('v', 11)]

/-- The byte that hexadecimal digits write, of which the last two count. -/
def readHex? (count : Nat) (text : Text) : Option (Escape × Text) :=
  let digits := text.take count
  if digits.length < count || digits.any (·.digitValue?.isNone) then none
  else some (.byte (UInt8.ofNat (Text.ofDigits 16 digits)), text.drop count)

/-- The greatest number that a pattern may write. -/
def greatestNumber : Nat :=
  2147483647

/-- The number at the head of a text, if a digit stands there. -/
def readNumber? (text : Text) : Option (Nat × Text) :=
  let digits := text.takeWhile Byte.isDigit
  let number := Text.ofDecimal digits
  if digits.isEmpty || greatestNumber < number then none
  else some (number, text.dropWhile Byte.isDigit)

/-- The class that a letter after a backslash names; a capital one stands for all other bytes. -/
def escapedClass? (letter : Byte) : Option (List (Byte × Byte)) :=
  if (Text.ascii "dsw").contains letter.toLower then
    (ByteSet.classRanges? [letter]).map fun ranges =>
      if letter.isUpper then ByteSet.gaps 0 ranges else ranges
  else none

/-- An escape, read from just after its backslash.  In brackets a `b` is a backspace. -/
def readEscape? (bracketed : Bool) : Text → Option (Escape × Text)
  | [] => none
  | letter :: rest =>
      match controls.find? fun named => Byte.ofChar named.1 == letter with
      | some named => some (.byte named.2, rest)
      | none =>
          if letter == Byte.ofChar 'b' then
            some (if bracketed then .byte 8 else .wordEdge true, rest)
          else if letter == Byte.ofChar 'B' then some (.wordEdge false, rest)
          else if letter == Byte.ofChar 'c' then
            match rest with
            | [] => none
            | byte :: rest => some (.byte byte, rest)
          else if letter == Byte.ofChar 'x' then readHex? 2 rest
          else if letter == Byte.ofChar 'u' then readHex? 4 rest
          else if letter.isDigit then
            (readNumber? (letter :: rest)).map fun (number, rest) => (.again number, rest)
          else
            match escapedClass? letter with
            | some ranges => some (.oneOf ranges, rest)
            | none => some (.byte letter, rest)

/-! ## Sets -/

/-- One member of a bracketed set. -/
inductive Member
  /-- The closing bracket. -/
  | close
  | hyphen
  | byte (byte : Byte)
  /-- A byte that is given by its name; it may begin a range and does not end one. -/
  | named (byte : Byte)
  | oneOf (ranges : List (Byte × Byte))
  deriving DecidableEq, Repr

/-- The name in a member such as `[:alpha:]`, read from just after the first of its two marks. -/
def readName? (mark : Byte) (text : Text) : Option (Text × Text) :=
  match text.dropWhile (· != mark) with
  | _ :: Byte.closeBracket :: rest => some (text.takeWhile (· != mark), rest)
  | _ => none

/-- The member at the head of a text. -/
def readMember? : Text → Option (Member × Text)
  | [] => none
  | Byte.closeBracket :: rest => some (.close, rest)
  | Byte.hyphen :: rest => some (.hyphen, rest)
  | Byte.backslash :: rest => do
      match ← readEscape? true rest with
      | (.byte byte, rest) => return (.byte byte, rest)
      | (.oneOf ranges, rest) => return (.oneOf ranges, rest)
      | _ => none
  | Byte.openBracket :: [] => none
  | Byte.openBracket :: Byte.colon :: rest => do
      let (name, rest) ← readName? Byte.colon rest
      return (.oneOf (← ByteSet.classRanges? name), rest)
  | Byte.openBracket :: Byte.dot :: rest => do
      let (name, rest) ← readName? Byte.dot rest
      return (.named (← ByteSet.named? name), rest)
  | Byte.openBracket :: Byte.equals :: rest => do
      let (name, rest) ← readName? Byte.equals rest
      let byte ← ByteSet.named? name
      return (.oneOf [(byte, byte)], rest)
  | byte :: rest => some (.byte byte, rest)

/-- What came last in a set: nothing that matters, a byte that may begin a range, or a class. -/
inductive Last
  | nothing
  | byte (byte : Byte)
  | oneOf
  deriving DecidableEq, Repr

/-- The ranges of the members of a set, through its closing bracket.  A hyphen stands for itself
before the bracket, and where no range can begin. -/
def readMembers? : (fuel : Nat) → Last → Text → Option (List (Byte × Byte) × Text)
  | 0, _, _ => none
  | fuel + 1, last, text => do
      match ← readMember? text with
      | (.close, rest) => return ([], rest)
      | (.byte byte, rest) | (.named byte, rest) =>
          let (others, rest) ← readMembers? fuel (.byte byte) rest
          return ((byte, byte) :: others, rest)
      | (.oneOf ranges, rest) =>
          let (others, rest) ← readMembers? fuel .oneOf rest
          return (ranges ++ others, rest)
      | (.hyphen, rest) =>
          match ← readMember? rest, last with
          | (.close, rest), _ => return ([(Byte.hyphen, Byte.hyphen)], rest)
          | _, .oneOf => none
          | _, .nothing =>
              let (others, rest) ← readMembers? fuel (.byte Byte.hyphen) rest
              return ((Byte.hyphen, Byte.hyphen) :: others, rest)
          | (.byte high, rest), .byte low =>
              let (others, rest) ← readMembers? fuel .nothing rest
              return ((← ByteSet.range? low high) ++ others, rest)
          | (.hyphen, rest), .byte low =>
              let (others, rest) ← readMembers? fuel .nothing rest
              return ((← ByteSet.range? low Byte.hyphen) ++ others, rest)
          | _, .byte _ => none

/-- A bracketed set, read from just after its opening bracket. -/
def readSet? : Text → Option (ByteSet × Text)
  | Byte.caret :: rest =>
      (readMembers? (rest.length + 1) .nothing rest).map fun (ranges, rest) =>
        (⟨ranges, true⟩, rest)
  | text =>
      (readMembers? (text.length + 1) .nothing text).map fun (ranges, rest) =>
        (⟨ranges, false⟩, rest)

end Pattern

end TenantScope
