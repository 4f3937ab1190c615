import Mathlib.Tactic.SplitIfs
import TenantScope.Audit.Event

/-!
# Reading records back

A line of the audit log is read as JSON byte by byte: backslash escapes stand for the bytes
they name, and every other byte of a string stands for itself.  Whatever bytes its fields hold,
the line of a record is one object, which has the fields of the record and no others, and no
byte in it breaks the line.
-/

namespace TenantScope

namespace Audit

/-! ## Reading JSON -/

/-- A JSON value.  Strings are byte strings, and numbers have neither a fraction nor an exponent. -/
inductive Json
  | null
  | boolean (value : Bool)
  | number (value : Int)
  | string (bytes : Text)
  | array (items : List Json)
  | object (members : List (Text × Json))
  deriving Repr

namespace Json

/-- What a JSON text is made of: signs, strings, and runs of bytes that are a word or a number. -/
inductive Piece
  | openBrace
  | closeBrace
  | openBracket
  | closeBracket
  | comma
  | colon
  | string (bytes : Text)
  | bare (written : Text)
  deriving DecidableEq, Repr

/-- The sign that a byte is. -/
def Piece.ofByte? (byte : Byte) : Option Piece :=
  if byte == Byte.openBrace then some openBrace
  else if byte == Byte.closeBrace then some closeBrace
  else if byte == Byte.openBracket then some openBracket
  else if byte == Byte.closeBracket then some closeBracket
  else if byte == Byte.comma then some comma
  else if byte == Byte.colon then some colon
  else none

/-- A byte of a word or a number. -/
def isBare (byte : Byte) : Bool :=
  byte.isAlphanumeric || byte == Byte.hyphen || byte == Byte.plus || byte == Byte.dot

/-- White space between pieces. -/
def isBlank (byte : Byte) : Bool :=
  byte == Byte.blank || byte == Byte.tab || byte == Byte.lineFeed || byte == Byte.carriageReturn

/-- The byte that a letter after a backslash stands for. -/
def unescaped? (letter : Byte) : Option Byte :=
  if letter == Byte.quotation || letter == Byte.backslash || letter == Byte.slash then some letter
  else if letter == Byte.ofChar 'b' then some 8
  else if letter == Byte.ofChar 'f' then some 12
  else if letter == Byte.ofChar 'n' then some Byte.lineFeed
  else if letter == Byte.ofChar 'r' then some Byte.carriageReturn
  else if letter == Byte.ofChar 't' then some Byte.tab
  else none

def hexValue? (digit : Byte) : Option Nat :=
  if digit.isDigit then some (digit.toNat - 48)
  else if 97 ≤ digit && digit ≤ 102 then some (digit.toNat - 87)
  else if 65 ≤ digit && digit ≤ 70 then some (digit.toNat - 55)
  else none

/-- Where the reader is. -/
inductive Mode
  | between
  | bare (written : Text)
  | inString (bytes : Text)
  /-- After a backslash in a string. -/
  | escape (bytes : Text)
  /-- Among the four digits after a backslash and `u`, so many of which are still to come. -/
  | code (bytes : Text) (digits value : Nat)
  deriving DecidableEq, Repr

/-- What the reader remembers between two bytes. -/
structure Reader where
  pieces : List Piece
  mode : Mode
  deriving DecidableEq, Repr

namespace Reader

/-- A byte after complete pieces. -/
def enter (pieces : List Piece) (byte : Byte) : Option Reader :=
  if byte == Byte.quotation then some ⟨pieces, .inString []⟩
  else if isBare byte then some ⟨pieces, .bare [byte]⟩
  else if isBlank byte then some ⟨pieces, .between⟩
  else (Piece.ofByte? byte).map fun piece => ⟨pieces ++ [piece], .between⟩

/-- One more byte, unless no JSON text goes on with it.  A code above 255 stands for no byte. -/
def step (reader : Reader) (byte : Byte) : Option Reader :=
  match reader.mode with
  | .between => enter reader.pieces byte
  | .bare written =>
      if isBare byte then some ⟨reader.pieces, .bare (written ++ [byte])⟩
      else enter (reader.pieces ++ [.bare written]) byte
  | .inString bytes =>
      if byte == Byte.quotation then some ⟨reader.pieces ++ [.string bytes], .between⟩
      else if byte == Byte.backslash then some ⟨reader.pieces, .escape bytes⟩
      else if byte < 32 then none
      else some ⟨reader.pieces, .inString (bytes ++ [byte])⟩
  | .escape bytes =>
      if byte == Byte.ofChar 'u' then some ⟨reader.pieces, .code bytes 4 0⟩
      else (unescaped? byte).map fun named => ⟨reader.pieces, .inString (bytes ++ [named])⟩
  | .code bytes digits value =>
      match hexValue? byte with
      | none => none
      | some digit =>
          let value := 16 * value + digit
          if 1 < digits then some ⟨reader.pieces, .code bytes (digits - 1) value⟩
          else if value < 256 then some ⟨reader.pieces, .inString (bytes ++ [UInt8.ofNat value])⟩
          else none

/-- The pieces at the end of the text, unless a string is open there. -/
def finish (reader : Reader) : Option (List Piece) :=
  match reader.mode with
  | .between => some reader.pieces
  | .bare written => some (reader.pieces ++ [.bare written])
  | _ => none

end Reader

/-- The pieces of a text. -/
def pieces? (text : Text) : Option (List Piece) :=
  (text.foldlM Reader.step ⟨[], .between⟩).bind Reader.finish

/-- The number that decimal digits write; zero alone begins with a zero. -/
def natural? (digits : Text) : Option Nat :=
  if !digits.isEmpty && digits.all Byte.isDigit &&
      (digits.head? != some (Text.digit 0) || digits.length == 1) then
    some (Text.ofDecimal digits)
  else
    none

def number? : Text → Option Int
  | [] => none
  | byte :: digits =>
      if byte == Byte.hyphen then (natural? digits).map Int.negOfNat
      else (natural? (byte :: digits)).map Int.ofNat

/-- The value that a word or a number stands for. -/
def ofBare? (written : Text) : Option Json :=
  match number? written with
  | some value => some (number value)
  | none =>
      if written == Text.ascii "true" then some (boolean true)
      else if written == Text.ascii "false" then some (boolean false)
      else if written == Text.ascii "null" then some null
      else none

mutual

/-- The value at the head of some pieces, with the pieces after it. -/
def value? : (fuel : Nat) → List Piece → Option (Json × List Piece)
  | _, .string bytes :: rest => some (string bytes, rest)
  | _, .bare written :: rest => (ofBare? written).map fun value => (value, rest)
  | _, .openBrace :: .closeBrace :: rest => some (object [], rest)
  | _, .openBracket :: .closeBracket :: rest => some (array [], rest)
  | fuel + 1, .openBrace :: rest =>
      (members? fuel rest).map fun (members, rest) => (object members, rest)
  | fuel + 1, .openBracket :: rest =>
      (items? fuel rest).map fun (items, rest) => (array items, rest)
  | _, _ => none

/-- The members of an object through the brace that closes it. -/
def members? : (fuel : Nat) → List Piece → Option (List (Text × Json) × List Piece)
  | fuel + 1, .string name :: .colon :: rest =>
      match value? fuel rest with
      | some (value, .comma :: rest) =>
          (members? fuel rest).map fun (members, rest) => ((name, value) :: members, rest)
      | some (value, .closeBrace :: rest) => some ([(name, value)], rest)
      | _ => none
  | _, _ => none

/-- The items of an array through the bracket that closes it. -/
def items? : (fuel : Nat) → List Piece → Option (List Json × List Piece)
  | fuel + 1, rest =>
      match value? fuel rest with
      | some (value, .comma :: rest) =>
          (items? fuel rest).map fun (items, rest) => (value :: items, rest)
      | some (value, .closeBracket :: rest) => some ([value], rest)
      | _ => none
  | 0, _ => none

end

/-- The value that a text is.  Values are not nested deeper than there are pieces. -/
def ofText? (text : Text) : Option Json :=
  match pieces? text with
  | none => none
  | some pieces =>
      match value? pieces.length pieces with
      | some (value, []) => some value
      | _ => none

end Json

end Audit

/-! ## Numbers -/

namespace Text

theorem toNat_digit {value : Nat} (small : value < 10) : (digit value).toNat = 48 + value := by
  rw [digit, UInt8.toNat_ofNat']
  omega

theorem isDigit_digit {value : Nat} (small : value < 10) : (digit value).isDigit = true := by
  have digits : ∀ value < 10, (digit value).isDigit = true := by decide
  exact digits value small

/-- A decimal number reads back. -/
theorem ofDecimal_decimal (value : Nat) : ofDecimal (decimal value) = value := by
  fun_induction decimal value with
  | case1 value small => simp [ofDecimal, toNat_digit small]
  | case2 value large ih =>
      rw [ofDecimal] at ih ⊢
      rw [List.foldl_append, ih, List.foldl_cons, List.foldl_nil,
        toNat_digit (Nat.mod_lt _ (by decide))]
      omega

theorem isDigit_of_mem_decimal (value : Nat) : ∀ byte ∈ decimal value, byte.isDigit = true := by
  fun_induction decimal value with
  | case1 value small => simpa using isDigit_digit small
  | case2 value large ih =>
      rw [List.forall_mem_append, List.forall_mem_singleton]
      exact ⟨ih, isDigit_digit (Nat.mod_lt _ (by decide))⟩

/-- Only the number zero begins with a zero. -/
theorem head?_decimal (value : Nat) :
    ∃ leading < 10, (decimal value).head? = some (digit leading) ∧ (leading = 0 → value = 0) := by
  fun_induction decimal value with
  | case1 value small => exact ⟨value, small, rfl, id⟩
  | case2 value large ih =>
      obtain ⟨leading, small, head_eq, zero⟩ := ih
      refine ⟨leading, small, ?_, fun is_zero => ?_⟩
      · rw [List.head?_append, head_eq, Option.some_or]
      · have quotient := zero is_zero
        omega

end Text

namespace Audit

namespace Json

theorem natural?_decimal (value : Nat) : natural? (Text.decimal value) = some value := by
  obtain ⟨leading, small, head_eq, zero⟩ := Text.head?_decimal value
  have nonempty : (Text.decimal value).isEmpty = false := by
    cases written : Text.decimal value <;> simp [written] at head_eq ⊢
  have digits : (Text.decimal value).all Byte.isDigit = true :=
    List.all_eq_true.mpr (Text.isDigit_of_mem_decimal value)
  have canonical : ((Text.decimal value).head? != some (Text.digit 0) ||
      (Text.decimal value).length == 1) = true := by
    by_cases is_zero : leading = 0
    · rw [zero is_zero, Text.decimal_of_lt (by decide)]
      rfl
    · have apart : ∀ leading < 10, leading ≠ 0 →
          (some (Text.digit leading) != some (Text.digit 0)) = true := by decide
      rw [head_eq, apart leading small is_zero, Bool.true_or]
  rw [natural?, nonempty, digits, canonical]
  simp [Text.ofDecimal_decimal]

/-- An integer reads back. -/
theorem number?_integer (value : Int) : number? (Text.integer value) = some value := by
  rw [Text.integer]
  split
  · rename_i negative
    change number? (Byte.hyphen :: Text.decimal value.natAbs) = _
    rw [number?, if_pos (by decide), natural?_decimal, Option.map_some, Int.negOfNat_eq,
      Int.ofNat_eq_natCast]
    congr 1
    omega
  · rename_i nonnegative
    obtain ⟨leading, small, head_eq, -⟩ := Text.head?_decimal value.natAbs
    have reads := natural?_decimal value.natAbs
    cases written : Text.decimal value.natAbs with
    | nil => simp [written] at head_eq
    | cons byte digits =>
        obtain rfl : byte = Text.digit leading := by simpa [written] using head_eq
        have apart : ∀ leading < 10, (Text.digit leading == Byte.hyphen) = false := by decide
        rw [written] at reads
        rw [number?, apart leading small, if_neg Bool.false_ne_true, reads, Option.map_some]
        congr 1
        simpa using Int.natAbs_of_nonneg (by omega : 0 ≤ value)

theorem isBare_of_isDigit (byte : Byte) (digit : byte.isDigit = true) : isBare byte = true := by
  simp [isBare, Byte.isAlphanumeric, digit]

theorem isBare_of_mem_integer (value : Int) : ∀ byte ∈ Text.integer value, isBare byte = true := by
  have digits := fun byte member =>
    isBare_of_isDigit byte (Text.isDigit_of_mem_decimal value.natAbs byte member)
  rw [Text.integer]
  split
  · rw [List.forall_mem_append]
    exact ⟨by decide +kernel, digits⟩
  · exact digits

/-! ## Strings -/

theorem hexValue?_hexDigit : ∀ value < 16, hexValue? (Value.hexDigit value) = some value := by
  decide

/-- The form of a byte stands for the byte. -/
theorem foldlM_escapeByte (pieces : List Piece) (bytes : Text) (byte : Byte) :
    (Value.escapeByte byte).foldlM Reader.step ⟨pieces, .inString bytes⟩ =
      some ⟨pieces, .inString (bytes ++ [byte])⟩ := by
  unfold Value.escapeByte
  split_ifs with quotation backslash lineFeed carriageReturn tab control
  · obtain rfl : byte = Byte.quotation := by simpa using quotation
    rfl
  · obtain rfl : byte = Byte.backslash := by simpa using backslash
    rfl
  · obtain rfl : byte = Byte.lineFeed := by simpa using lineFeed
    rfl
  · obtain rfl : byte = Byte.carriageReturn := by simpa using carriageReturn
    rfl
  · obtain rfl : byte = Byte.tab := by simpa using tab
    rfl
  · have small : byte.toNat < 256 := byte.toNat_lt
    have high := hexValue?_hexDigit (byte.toNat / 16) (by omega)
    have low := hexValue?_hexDigit (byte.toNat % 16) (by omega)
    have value_eq : 16 * (byte.toNat / 16) + byte.toNat % 16 = byte.toNat := Nat.div_add_mod _ _
    have opened : (Text.ascii "\\u00").foldlM Reader.step ⟨pieces, .inString bytes⟩ =
        some ⟨pieces, .code bytes 2 0⟩ := rfl
    rw [List.foldlM_append, opened, Option.bind_eq_bind, Option.bind_some]
    simp only [List.foldlM_cons, List.foldlM_nil, Reader.step, high, low, value_eq, small,
      UInt8.ofNat_toNat, Nat.mul_zero, Nat.zero_add, Nat.reduceLT, Nat.reduceSub, if_true, if_false,
      Option.bind_eq_bind, Option.bind_some]
    rfl
  · have plain : (byte == Byte.quotation) = false ∧ (byte == Byte.backslash) = false :=
      ⟨by simpa using quotation, by simpa using backslash⟩
    simp [Reader.step, plain, control]

/-- A quoted string is one piece. -/
theorem foldlM_quoted (pieces : List Piece) (bytes : Text) :
    (Value.quoted bytes).foldlM Reader.step ⟨pieces, .between⟩ =
      some ⟨pieces ++ [.string bytes], .between⟩ := by
  have inside (read rest : Text) : (rest.flatMap Value.escapeByte).foldlM Reader.step
      ⟨pieces, .inString read⟩ = some ⟨pieces, .inString (read ++ rest)⟩ := by
    induction rest generalizing read with
    | nil => simp
    | cons byte rest ih =>
        rw [List.flatMap_cons, List.foldlM_append, foldlM_escapeByte, Option.bind_eq_bind,
          Option.bind_some, ih]
        simp
  rw [Value.quoted, List.append_assoc, List.foldlM_append]
  change ((bytes.flatMap Value.escapeByte ++ [Byte.quotation]).foldlM Reader.step
    ⟨pieces, .inString []⟩) = _
  rw [List.foldlM_append, inside]
  rfl

/-! ## Objects -/

/-- The value of a field as JSON. -/
def ofValue : Value → Json
  | .string bytes => string bytes
  | .boolean value => boolean value
  | .number value => number value

/-- The piece that a value is written as. -/
def Piece.ofValue : Value → Piece
  | .string bytes => string bytes
  | value => bare value.written

/-- A comma or a brace ends the value before it. -/
theorem foldlM_value (pieces : List Piece) (value : Value) {delimiter : Byte} {piece : Piece}
    (ends : delimiter = Byte.comma ∧ piece = .comma ∨ delimiter = Byte.closeBrace ∧
      piece = .closeBrace) :
    (value.written ++ [delimiter]).foldlM Reader.step ⟨pieces, .between⟩ =
      some ⟨pieces ++ [Piece.ofValue value, piece], .between⟩ := by
  have entered (pieces : List Piece) :
      Reader.enter pieces delimiter = some ⟨pieces ++ [piece], .between⟩ := by
    obtain ⟨rfl, rfl⟩ | ⟨rfl, rfl⟩ := ends <;> rfl
  have not_bare : isBare delimiter = false := by
    obtain ⟨rfl, -⟩ | ⟨rfl, -⟩ := ends <;> rfl
  have collected (read written : Text) (bare : ∀ byte ∈ written, isBare byte = true) :
      (written ++ [delimiter]).foldlM Reader.step ⟨pieces, .bare read⟩ =
        some ⟨pieces ++ [.bare (read ++ written), piece], .between⟩ := by
    induction written generalizing read with
    | nil => simp [Reader.step, not_bare, entered]
    | cons byte written ih =>
        rw [List.forall_mem_cons] at bare
        rw [List.cons_append, List.foldlM_cons, Reader.step]
        simp only [bare.1, if_true, Option.bind_eq_bind, Option.bind_some]
        rw [ih _ bare.2]
        simp
  have bare_run {written : Text} (nonempty : written ≠ [])
      (bare : ∀ byte ∈ written, isBare byte = true) :
      (written ++ [delimiter]).foldlM Reader.step ⟨pieces, .between⟩ =
        some ⟨pieces ++ [.bare written, piece], .between⟩ := by
    obtain ⟨byte, rest, rfl⟩ := List.exists_cons_of_ne_nil nonempty
    rw [List.forall_mem_cons] at bare
    have apart : (byte == Byte.quotation) = false := by
      rw [beq_eq_false_iff_ne]
      rintro rfl
      exact absurd bare.1 (by decide)
    rw [List.cons_append, List.foldlM_cons, Reader.step]
    simp only [Reader.enter, apart, bare.1, if_true, Bool.false_eq_true, if_false,
      Option.bind_eq_bind, Option.bind_some]
    exact collected [byte] rest bare.2
  cases value with
  | string bytes =>
      rw [Value.written, List.foldlM_append, foldlM_quoted, Option.bind_eq_bind, Option.bind_some]
      simp [Reader.step, entered, Piece.ofValue]
  | boolean value => cases value <;> exact bare_run (by decide) (by decide +kernel)
  | number value =>
      refine bare_run (fun empty => ?_) (isBare_of_mem_integer value)
      have reads := number?_integer value
      rw [show Text.integer value = [] from empty] at reads
      cases reads

/-- The pieces of the fields of an object, up to the brace that closes it. -/
def piecesOf : List Field → List Piece
  | [] => [.closeBrace]
  | [field] => [.string field.name, .colon, Piece.ofValue field.value, .closeBrace]
  | field :: fields =>
      [.string field.name, .colon, Piece.ofValue field.value, .comma] ++ piecesOf fields

theorem foldlM_field (pieces : List Piece) (field : Field) {delimiter : Byte} {piece : Piece}
    (ends : delimiter = Byte.comma ∧ piece = .comma ∨ delimiter = Byte.closeBrace ∧
      piece = .closeBrace) :
    (field.written ++ [delimiter]).foldlM Reader.step ⟨pieces, .between⟩ =
      some ⟨pieces ++ [.string field.name, .colon, Piece.ofValue field.value, piece],
        .between⟩ := by
  rw [Field.written, List.append_assoc, List.append_assoc, List.foldlM_append, foldlM_quoted,
    Option.bind_eq_bind, Option.bind_some, List.foldlM_append]
  change (field.value.written ++ [delimiter]).foldlM Reader.step
    ⟨pieces ++ [.string field.name] ++ [.colon], .between⟩ = _
  rw [foldlM_value _ _ ends]
  simp

theorem foldlM_fields (pieces : List Piece) (fields : List Field) :
    (List.intercalate [Byte.comma] (fields.map Field.written) ++ [Byte.closeBrace]).foldlM
        Reader.step ⟨pieces, .between⟩ = some ⟨pieces ++ piecesOf fields, .between⟩ := by
  induction fields generalizing pieces with
  | nil => rfl
  | cons field fields ih =>
      cases fields with
      | nil =>
          rw [List.map_singleton, List.intercalate_singleton]
          exact foldlM_field pieces field (.inr ⟨rfl, rfl⟩)
      | cons next fields =>
          rw [List.map_cons, List.map_cons, List.intercalate_cons_cons, List.append_assoc,
            List.append_assoc, ← List.append_assoc field.written, List.foldlM_append,
            foldlM_field pieces field (.inl ⟨rfl, rfl⟩), Option.bind_eq_bind, Option.bind_some,
            ← List.map_cons, ih]
          simp [piecesOf]

theorem value?_ofValue (fuel : Nat) (value : Value) (rest : List Piece) :
    value? fuel (Piece.ofValue value :: rest) = some (ofValue value, rest) := by
  cases value with
  | string bytes => rw [Piece.ofValue, value?]; rfl
  | boolean value =>
      have reads : ofBare? (Value.boolean value).written = some (boolean value) := by
        cases value <;> rfl
      simp [Piece.ofValue, value?, reads, ofValue]
  | number value =>
      have reads : ofBare? (Value.number value).written = some (number value) := by
        rw [Value.written, ofBare?, number?_integer]
      simp [Piece.ofValue, value?, reads, ofValue]

/-- The fields of an object as members of a JSON object. -/
def membersOf (fields : List Field) : List (Text × Json) :=
  fields.map fun field => (field.name, ofValue field.value)

theorem members?_piecesOf {fields : List Field} (nonempty : fields ≠ []) {fuel : Nat}
    (enough : fields.length ≤ fuel) :
    members? fuel (piecesOf fields) = some (membersOf fields, []) := by
  induction fields generalizing fuel with
  | nil => exact absurd rfl nonempty
  | cons field fields ih =>
      cases fuel with
      | zero => simp at enough
      | succ fuel =>
          cases fields with
          | nil =>
              rw [piecesOf, members?, value?_ofValue]
              rfl
          | cons next fields =>
              rw [piecesOf, List.cons_append, List.cons_append, List.cons_append, List.cons_append,
                members?, value?_ofValue]
              simp only [List.nil_append]
              rw [ih (by simp) (by simpa using enough)]
              · rfl
              · simp

theorem length_le_piecesOf (fields : List Field) : fields.length ≤ (piecesOf fields).length := by
  fun_induction piecesOf fields with
  | case1 => simp
  | case2 => simp
  | case3 field fields _ ih =>
      simp only [List.length_cons, List.length_append, List.length_nil]
      omega

theorem pieces?_object (fields : List Field) :
    pieces? (Audit.object fields) = some (.openBrace :: piecesOf fields) := by
  rw [pieces?, Audit.object, List.append_assoc, List.foldlM_append]
  change ((List.intercalate [Byte.comma] (fields.map Field.written) ++ [Byte.closeBrace]).foldlM
    Reader.step ⟨[.openBrace], .between⟩).bind Reader.finish = _
  rw [foldlM_fields]
  rfl

/-- A string that tries to end early and to add a field and a line stays one piece. -/
example : pieces? (Text.ascii "\x7b\"sql\": \"\\\", \\\"event\\\": 1\\n\\u0007\"\x7d") =
    some [.openBrace, .string (Text.ascii "sql"), .colon,
      .string (Text.ascii "\", \"event\": 1\n" ++ [7]), .closeBrace] := by
  decide +kernel

/-- A written object reads back: it has its fields, in their order, and nothing more. -/
theorem ofText?_object (fields : List Field) :
    ofText? (Audit.object fields) = some (object (membersOf fields)) := by
  have opened : value? (Piece.openBrace :: piecesOf fields).length (.openBrace :: piecesOf fields) =
      some (object (membersOf fields), []) := by
    cases fields with
    | nil => rfl
    | cons field fields =>
        have read := members?_piecesOf (List.cons_ne_nil field fields) (length_le_piecesOf _)
        obtain ⟨rest, begins⟩ :
            ∃ rest, piecesOf (field :: fields) = .string field.name :: rest := by
          cases fields <;> exact ⟨_, rfl⟩
        rw [begins] at read ⊢
        rw [List.length_cons, value?, read]
        · rfl
        · simp
  rw [ofText?, pieces?_object]
  simp only [opened]

end Json

/-! ## Bytes of a line -/

theorem le_of_isDigit (byte : Byte) (digit : byte.isDigit = true) : 32 ≤ byte := by
  simp only [Byte.isDigit, Bool.and_eq_true, decide_eq_true_eq] at digit
  exact UInt8.le_trans (by decide) digit.1

theorem le_escapeByte (byte : Byte) : ∀ written ∈ Value.escapeByte byte, 32 ≤ written := by
  unfold Value.escapeByte
  split_ifs with quotation backslash lineFeed carriageReturn tab control
  · decide +kernel
  · decide +kernel
  · decide +kernel
  · decide +kernel
  · decide +kernel
  · have shown : ∀ value < 16, 32 ≤ Value.hexDigit value := by decide
    have small : byte.toNat < 256 := byte.toNat_lt
    simp only [List.forall_mem_append, List.forall_mem_cons]
    exact ⟨by decide +kernel, shown _ (by omega), shown _ (by omega), by simp⟩
  · simpa using UInt8.not_lt.mp control

theorem le_quoted (bytes : Text) : ∀ byte ∈ Value.quoted bytes, 32 ≤ byte := by
  rw [Value.quoted, List.forall_mem_append, List.forall_mem_append]
  refine ⟨⟨by decide +kernel, fun written member => ?_⟩, by decide +kernel⟩
  obtain ⟨byte, -, member⟩ := List.mem_flatMap.mp member
  exact le_escapeByte byte written member

theorem le_written (value : Value) : ∀ byte ∈ value.written, 32 ≤ byte := by
  cases value with
  | string bytes => exact le_quoted bytes
  | boolean value => cases value <;> decide +kernel
  | number value =>
      have digits := fun byte member =>
        le_of_isDigit byte (Text.isDigit_of_mem_decimal value.natAbs byte member)
      rw [Value.written, Text.integer]
      split
      · rw [List.forall_mem_append]
        exact ⟨by decide +kernel, digits⟩
      · exact digits

/-- An object stands on one line. -/
theorem le_object (fields : List Field) : ∀ byte ∈ object fields, 32 ≤ byte := by
  have field_shown (field : Field) : ∀ byte ∈ field.written, 32 ≤ byte := by
    rw [Field.written, List.forall_mem_append, List.forall_mem_append]
    exact ⟨⟨le_quoted field.name, by decide +kernel⟩, le_written field.value⟩
  have fields_shown :
      ∀ byte ∈ List.intercalate [Byte.comma] (fields.map Field.written), 32 ≤ byte := by
    induction fields with
    | nil => simp
    | cons field fields ih =>
        cases fields with
        | nil => simpa using field_shown field
        | cons next fields =>
            rw [List.map_cons, List.map_cons, List.intercalate_cons_cons, List.forall_mem_append,
              List.forall_mem_append]
            exact ⟨⟨field_shown field, by decide +kernel⟩, ih⟩
  rw [object, List.forall_mem_append, List.forall_mem_append]
  exact ⟨⟨by decide +kernel, fields_shown⟩, by decide +kernel⟩

/-! ## Records -/

/-- The log keeps a record or leaves it out, by its level.  A record that is kept is one line, and
the line reads back as one object with the fields of the record. -/
theorem lines_read_back (level : Level) :
    (∀ record : Rewritten,
      level.rank ≤ Severity.info.rank ∧
          (∃ line, (Event.rewritten record).line? level = some line ∧ (∀ byte ∈ line, 32 ≤ byte) ∧
            Json.ofText? line = some (.object [
              (Text.ascii "event", .string (Text.ascii "sql_rewritten")),
              (Text.ascii "request_id", .string record.request),
              (Text.ascii "tenant_id", .string record.tenant),
              (Text.ascii "raw_sql", .string record.received),
              (Text.ascii "final_sql", .string record.result),
              (Text.ascii "repaired", .boolean record.repaired),
              (Text.ascii "timestamp", .string record.moment.text),
              (Text.ascii "duration_us", .number record.duration)])) ∨
        Severity.info.rank < level.rank ∧ (Event.rewritten record).line? level = none) ∧
    (∀ record : Rejected,
      level.rank ≤ Severity.warning.rank ∧
          (∃ line, (Event.rejected record).line? level = some line ∧ (∀ byte ∈ line, 32 ≤ byte) ∧
            Json.ofText? line = some (.object [
              (Text.ascii "event", .string (Text.ascii "sql_rejected")),
              (Text.ascii "request_id", .string record.request),
              (Text.ascii "tenant_id", .string record.tenant),
              (Text.ascii "raw_sql", .string record.received),
              (Text.ascii "error_kind", .string record.kind),
              (Text.ascii "reason_code", .string record.code),
              (Text.ascii "reason", .string record.reason),
              (Text.ascii "timestamp", .string record.moment.text)])) ∨
        Severity.warning.rank < level.rank ∧ (Event.rejected record).line? level = none) := by
  constructor
  · intro record
    by_cases kept : level.rank ≤ Severity.info.rank
    · refine .inl ⟨kept, record.line, if_pos (decide_eq_true kept), le_object _, ?_⟩
      exact Json.ofText?_object _
    · exact .inr ⟨Nat.lt_of_not_le kept, if_neg (by simpa [Level.keepsRecord] using kept)⟩
  · intro record
    by_cases kept : level.rank ≤ Severity.warning.rank
    · refine .inl ⟨kept, record.line, if_pos (decide_eq_true kept), le_object _, ?_⟩
      exact Json.ofText?_object _
    · exact .inr ⟨Nat.lt_of_not_le kept, if_neg (by simpa [Level.keepsRecord] using kept)⟩

end Audit

end TenantScope
