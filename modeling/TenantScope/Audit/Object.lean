import TenantScope.Decimal

/-!
# One-line objects

A record is written as a JSON object on one line.  Quotation marks, backslashes and control
bytes in its strings are escaped, so that no string can end early or break the line; all other
bytes stand for themselves.
-/

namespace TenantScope

namespace Audit

/-- The value of a field. -/
inductive Value
  | string (bytes : Text)
  | boolean (value : Bool)
  | number (value : Int)
  deriving DecidableEq, Repr

namespace Value

def hexDigit (value : Nat) : Byte :=
  if value < 10 then Text.digit value else UInt8.ofNat (87 + value)

/-- The form of one byte inside a string. -/
def escapeByte (byte : Byte) : Text :=
  if byte == Byte.quotation then [Byte.backslash, Byte.quotation]
  else if byte == Byte.backslash then [Byte.backslash, Byte.backslash]
  else if byte == Byte.lineFeed then [Byte.backslash, Byte.ofChar 'n']
  else if byte == Byte.carriageReturn then [Byte.backslash, Byte.ofChar 'r']
  else if byte == Byte.tab then [Byte.backslash, Byte.ofChar 't']
  else if byte < 32 then
    Text.ascii "\\u00" ++ [hexDigit (byte.toNat / 16), hexDigit (byte.toNat % 16)]
  else [byte]

def quoted (bytes : Text) : Text :=
  [Byte.quotation] ++ bytes.flatMap escapeByte ++ [Byte.quotation]

/-- The written form of a value. -/
def written : Value → Text
  | string bytes => quoted bytes
  | boolean value => if value then Text.ascii "true" else Text.ascii "false"
  | number value => Text.integer value

end Value

/-- A field of an object. -/
structure Field where
  name : Text
  value : Value
  deriving DecidableEq, Repr

namespace Field

def string (name : String) (bytes : Text) : Field :=
  ⟨Text.ascii name, .string bytes⟩

def boolean (name : String) (value : Bool) : Field :=
  ⟨Text.ascii name, .boolean value⟩

def number (name : String) (value : Int) : Field :=
  ⟨Text.ascii name, .number value⟩

def written (field : Field) : Text :=
  Value.quoted field.name ++ [Byte.colon] ++ field.value.written

end Field

/-- An object with the given fields in their order, on one line. -/
def object (fields : List Field) : Text :=
  [Byte.openBrace] ++ List.intercalate [Byte.comma] (fields.map Field.written) ++ [Byte.closeBrace]

end Audit

end TenantScope
