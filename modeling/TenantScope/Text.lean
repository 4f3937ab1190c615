/-!
# Byte strings

Statements, names and messages are byte strings, and every character class is the ASCII one: a byte
from 0x80 on is neither a blank nor a letter nor part of a word.  This file gives the classes, the
two case foldings, trimming, and searching for a fixed run of bytes.
-/

namespace TenantScope

/-- One byte of a statement. -/
abbrev Byte := UInt8

/-- A byte string. -/
abbrev Text := List Byte

namespace Byte

/-- The code of an ASCII character. -/
def ofChar (letter : Char) : Byte :=
  UInt8.ofNat letter.toNat

/-- The apostrophe, which delimits string literals. -/
@[match_pattern] abbrev apostrophe : Byte := 39

/-- The quotation mark, which delimits quoted identifiers. -/
@[match_pattern] abbrev quotation : Byte := 34

/-- The backtick, the other delimiter of quoted identifiers. -/
@[match_pattern] abbrev backtick : Byte := 96

@[match_pattern] abbrev backslash : Byte := 92

/-- The blank that replaces every run of white space. -/
@[match_pattern] abbrev blank : Byte := 32

@[match_pattern] abbrev tab : Byte := 9

@[match_pattern] abbrev lineFeed : Byte := 10

@[match_pattern] abbrev carriageReturn : Byte := 13

@[match_pattern] abbrev openParen : Byte := 40

@[match_pattern] abbrev closeParen : Byte := 41

@[match_pattern] abbrev openBracket : Byte := 91

@[match_pattern] abbrev closeBracket : Byte := 93

@[match_pattern] abbrev openBrace : Byte := 123

@[match_pattern] abbrev closeBrace : Byte := 125

@[match_pattern] abbrev lessThan : Byte := 60

@[match_pattern] abbrev greaterThan : Byte := 62

/-- The full stop between the parts of a qualified name. -/
@[match_pattern] abbrev dot : Byte := 46

@[match_pattern] abbrev comma : Byte := 44

@[match_pattern] abbrev colon : Byte := 58

/-- The semicolon that ends a statement. -/
@[match_pattern] abbrev semicolon : Byte := 59

@[match_pattern] abbrev equals : Byte := 61

@[match_pattern] abbrev questionMark : Byte := 63

@[match_pattern] abbrev asterisk : Byte := 42

@[match_pattern] abbrev plus : Byte := 43

@[match_pattern] abbrev hyphen : Byte := 45

@[match_pattern] abbrev underscore : Byte := 95

@[match_pattern] abbrev slash : Byte := 47

@[match_pattern] abbrev bar : Byte := 124

@[match_pattern] abbrev caret : Byte := 94

@[match_pattern] abbrev dollar : Byte := 36

@[match_pattern] abbrev numberSign : Byte := 35

/-- Space, tab, line feed, vertical tab, form feed or carriage return. -/
def isSpace (byte : Byte) : Bool :=
  byte == blank || (9 ≤ byte && byte ≤ 13)

/-- An upper-case ASCII letter. -/
def isUpper (byte : Byte) : Bool :=
  65 ≤ byte && byte ≤ 90

/-- A lower-case ASCII letter. -/
def isLower (byte : Byte) : Bool :=
  97 ≤ byte && byte ≤ 122

/-- An ASCII letter. -/
def isAlpha (byte : Byte) : Bool :=
  isUpper byte || isLower byte

/-- A decimal digit. -/
def isDigit (byte : Byte) : Bool :=
  48 ≤ byte && byte ≤ 57

/-- An ASCII letter or a decimal digit. -/
def isAlphanumeric (byte : Byte) : Bool :=
  isAlpha byte || isDigit byte

/-- A byte of a word: a letter, a digit, the underscore or the dollar sign. -/
def isIdentifier (byte : Byte) : Bool :=
  isAlphanumeric byte || byte == underscore || byte == dollar

/-- An apostrophe, a quotation mark or a backtick. -/
def isQuote (byte : Byte) : Bool :=
  byte == apostrophe || byte == quotation || byte == backtick

/-- The upper-case form of a byte; only ASCII letters have one of their own. -/
def toUpper (byte : Byte) : Byte :=
  if isLower byte then byte - 32 else byte

/-- The lower-case form of a byte; only ASCII letters have one of their own. -/
def toLower (byte : Byte) : Byte :=
  if isUpper byte then byte + 32 else byte

end Byte

namespace Text

/-- The bytes of an ASCII string. -/
def ascii (string : String) : Text :=
  string.toList.map Byte.ofChar

/-- Every letter in upper case. -/
def upper (text : Text) : Text :=
  text.map Byte.toUpper

/-- Every letter in lower case. -/
def lower (text : Text) : Text :=
  text.map Byte.toLower

@[simp]
theorem length_upper (text : Text) : (upper text).length = text.length := by
  simp [upper]

@[simp]
theorem length_lower (text : Text) : (lower text).length = text.length := by
  simp [lower]

/-- The text without the bytes at its end that satisfy `drop`. -/
def dropRightWhile (drop : Byte → Bool) (text : Text) : Text :=
  (text.reverse.dropWhile drop).reverse

/-- The text without white space at its end. -/
def trimRight (text : Text) : Text :=
  dropRightWhile Byte.isSpace text

/-- The text without white space at either end. -/
def trim (text : Text) : Text :=
  trimRight (text.dropWhile Byte.isSpace)

theorem dropRightWhile_append_takeWhile (drop : Byte → Bool) (text : Text) :
    dropRightWhile drop text ++ (text.reverse.takeWhile drop).reverse = text := by
  rw [dropRightWhile, ← List.reverse_append, List.takeWhile_append_dropWhile, List.reverse_reverse]

theorem length_dropRightWhile_le (drop : Byte → Bool) (text : Text) :
    (dropRightWhile drop text).length ≤ text.length := by
  have split := congrArg List.length (dropRightWhile_append_takeWhile drop text)
  simp only [List.length_append] at split
  omega

/-- Length of the text through the first occurrence of `wanted`. -/
def through? (wanted : Text) : Text → Option Nat
  | [] => if wanted.isEmpty then some 0 else none
  | byte :: rest =>
      if wanted.isPrefixOf (byte :: rest) then some wanted.length
      else (through? wanted rest).map (· + 1)

/-- Insertion of a word into a list of distinct words in bytewise order. -/
def insertSorted (word : Text) : List Text → List Text
  | [] => [word]
  | head :: tail =>
      if word < head then word :: head :: tail
      else if word = head then head :: tail
      else head :: insertSorted word tail

/-- The distinct words of a list, in bytewise order. -/
def sortedSet (words : List Text) : List Text :=
  words.foldl (fun set word => insertSorted word set) []

theorem mem_insertSorted {word member : Text} {words : List Text} :
    member ∈ insertSorted word words ↔ member = word ∨ member ∈ words := by
  induction words with
  | nil => simp [insertSorted]
  | cons head tail ih =>
      simp only [insertSorted]
      split
      · simp
      · split
        · rename_i same
          simp [same]
        · simp only [List.mem_cons, ih]
          constructor <;> rintro (h | h | h) <;> simp [h]

end Text

end TenantScope
