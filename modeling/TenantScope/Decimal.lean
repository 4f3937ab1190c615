import TenantScope.Text

/-!
# Decimal numbers

Numbers are written in decimal with a hyphen before negative ones, and filled with zeros on the left
where a width is required.  Some are read in other bases, with letters for the digits from ten on.
-/

namespace TenantScope

/-- The value of a digit, of which those from ten on are letters. -/
def Byte.digitValue? (digit : Byte) : Option Nat :=
  if digit.isDigit then some (digit.toNat - 48)
  else if 65 ≤ digit.toUpper && digit.toUpper ≤ 70 then some (digit.toUpper.toNat - 55)
  else none

namespace Text

def digit (value : Nat) : Byte :=
  UInt8.ofNat (48 + value)

/-- The decimal digits of a number, without leading zeros. -/
def decimal (value : Nat) : Text :=
  if value < 10 then [digit value] else decimal (value / 10) ++ [digit (value % 10)]

theorem decimal_of_lt {value : Nat} (small : value < 10) : decimal value = [digit value] := by
  rw [decimal, if_pos small]

/-- An integer in decimal. -/
def integer (value : Int) : Text :=
  if value < 0 then ascii "-" ++ decimal value.natAbs else decimal value.natAbs

/-- A text with zeros before it, up to a width. -/
def zeroFilled (width : Nat) (text : Text) : Text :=
  List.replicate (width - text.length) (digit 0) ++ text

/-- The number that decimal digits write. -/
def ofDecimal (digits : Text) : Nat :=
  digits.foldl (fun value digit => 10 * value + (digit.toNat - 48)) 0

/-- The number that digits write in a base. -/
def ofDigits (base : Nat) (digits : Text) : Nat :=
  digits.foldl (fun value digit => base * value + digit.digitValue?.getD 0) 0

end Text

end TenantScope
