import Mathlib.Data.List.Basic
import Mathlib.Data.List.TakeWhile
import TenantScope.Text

/-!
# Bytes and white space

Which classes of bytes exclude one another, and what trimming takes off a text.
-/

namespace TenantScope

namespace Byte

/-- A decidable property of all bytes is decided by trying them. -/
instance decidableForall (property : Byte → Prop) [DecidablePred property] :
    Decidable (∀ byte, property byte) :=
  decidable_of_iff (∀ code : Fin 256, property (UInt8.ofFin code))
    ⟨fun holds byte => holds byte.toFin, fun holds code => holds (UInt8.ofFin code)⟩

/-- A byte of the marks between which comments stand. -/
def marksComment (byte : Byte) : Bool :=
  byte == hyphen || byte == slash || byte == asterisk

/-- What tells the bytes of words, white space and quotation marks from one another and from the
bytes that mean something by themselves. -/
private theorem classes_apart : ∀ byte : Byte,
    (byte.isIdentifier = true → (byte.isQuote = false ∧ byte.isSpace = false) ∧
      (byte ≠ openParen ∧ byte ≠ closeParen) ∧ byte.marksComment = false) ∧
    (byte.isSpace = true → (byte.isQuote = false ∧ byte.isIdentifier = false) ∧
      (byte ≠ openParen ∧ byte ≠ closeParen) ∧ byte.marksComment = false) ∧
    (byte.isQuote = true → byte.isIdentifier = false ∧
      (byte ≠ openParen ∧ byte ≠ closeParen) ∧ byte.marksComment = false) := by
  decide +kernel

theorem isQuote_of_isIdentifier (byte : Byte) (identifier : byte.isIdentifier = true) :
    byte.isQuote = false :=
  ((classes_apart byte).1 identifier).1.1

theorem isIdentifier_of_isQuote (byte : Byte) (quote : byte.isQuote = true) :
    byte.isIdentifier = false :=
  ((classes_apart byte).2.2 quote).1

theorem isIdentifier_of_isSpace (byte : Byte) (space : byte.isSpace = true) :
    byte.isIdentifier = false :=
  ((classes_apart byte).2.1 space).1.2

theorem isSpace_of_isIdentifier (byte : Byte) (identifier : byte.isIdentifier = true) :
    byte.isSpace = false :=
  ((classes_apart byte).1 identifier).1.2

theorem isQuote_of_isSpace (byte : Byte) (space : byte.isSpace = true) : byte.isQuote = false :=
  ((classes_apart byte).2.1 space).1.1

theorem isSpace_of_isQuote (byte : Byte) (quote : byte.isQuote = true) : byte.isSpace = false :=
  Bool.eq_false_iff.mpr fun space => by simp [isQuote_of_isSpace byte space] at quote

theorem ne_backslash_of_isQuote (byte : Byte) (quote : byte.isQuote = true) : byte ≠ backslash := by
  rintro rfl
  exact absurd quote (by decide)

theorem depthless_of_isIdentifier (byte : Byte) (identifier : byte.isIdentifier = true) :
    byte ≠ openParen ∧ byte ≠ closeParen :=
  ((classes_apart byte).1 identifier).2.1

theorem depthless_of_isSpace (byte : Byte) (space : byte.isSpace = true) :
    byte ≠ openParen ∧ byte ≠ closeParen :=
  ((classes_apart byte).2.1 space).2.1

theorem depthless_of_isQuote (byte : Byte) (quote : byte.isQuote = true) :
    byte ≠ openParen ∧ byte ≠ closeParen :=
  ((classes_apart byte).2.2 quote).2.1

theorem not_paren_of_isIdentifier (byte : Byte) (identifier : byte.isIdentifier = true) :
    (byte == openParen || byte == closeParen) = false := by
  have apart := depthless_of_isIdentifier byte identifier
  simp [apart.1, apart.2]

theorem marksComment_of_isIdentifier (byte : Byte) (identifier : byte.isIdentifier = true) :
    byte.marksComment = false :=
  ((classes_apart byte).1 identifier).2.2

theorem marksComment_of_isSpace (byte : Byte) (space : byte.isSpace = true) :
    byte.marksComment = false :=
  ((classes_apart byte).2.1 space).2.2

theorem marksComment_of_isQuote (byte : Byte) (quote : byte.isQuote = true) :
    byte.marksComment = false :=
  ((classes_apart byte).2.2 quote).2.2

end Byte

namespace Text

theorem isSpace_of_mem_takeWhile {text : Text} {byte : Byte}
    (member : byte ∈ text.takeWhile Byte.isSpace) : byte.isSpace = true :=
  List.mem_takeWhile_imp member

/-- A text is its trimmed form with white space after it. -/
theorem exists_trimRight_append (text : Text) :
    ∃ trail, (∀ byte ∈ trail, byte.isSpace = true) ∧ text = text.trimRight ++ trail :=
  ⟨(text.reverse.takeWhile Byte.isSpace).reverse,
    fun _ member => isSpace_of_mem_takeWhile (List.mem_reverse.mp member),
    (dropRightWhile_append_takeWhile Byte.isSpace text).symm⟩

/-- A text is its trimmed form with white space on both sides. -/
theorem exists_trim_append (text : Text) :
    ∃ lead trail, (∀ byte ∈ lead, byte.isSpace = true) ∧ (∀ byte ∈ trail, byte.isSpace = true) ∧
      text = lead ++ (text.trim ++ trail) := by
  obtain ⟨trail, blank, split⟩ := exists_trimRight_append (text.dropWhile Byte.isSpace)
  refine ⟨text.takeWhile Byte.isSpace, trail, fun _ => isSpace_of_mem_takeWhile, blank, ?_⟩
  rw [trim, ← split, List.takeWhile_append_dropWhile]

theorem trimRight_append_blank {trail : Text} (blank : ∀ byte ∈ trail, byte.isSpace = true)
    (text : Text) : (text ++ trail).trimRight = text.trimRight := by
  rw [trimRight, dropRightWhile, List.reverse_append,
    List.dropWhile_append_of_pos (by simpa using blank)]
  rfl

/-- A text without white space at its end is trimmed there. -/
theorem trimRight_of_visible {text : Text}
    (visible : ∀ byte, text.getLast? = some byte → byte.isSpace = false) :
    text.trimRight = text := by
  rcases List.eq_nil_or_concat text with rfl | ⟨front, last, rfl⟩
  · rfl
  · have last_visible := visible last (by simp)
    simp [trimRight, dropRightWhile, last_visible]

/-- White space around a text without any at its ends is trimmed off. -/
theorem trim_of_visible {lead text trail : Text} (lead_blank : ∀ byte ∈ lead, byte.isSpace = true)
    (trail_blank : ∀ byte ∈ trail, byte.isSpace = true)
    (first_visible : ∀ byte, text.head? = some byte → byte.isSpace = false)
    (last_visible : ∀ byte, text.getLast? = some byte → byte.isSpace = false) :
    (lead ++ (text ++ trail)).trim = text := by
  cases text with
  | nil =>
      have nothing : ∀ byte ∈ lead ++ ([] ++ trail), byte.isSpace = true := by
        simpa [or_imp, forall_and] using ⟨lead_blank, trail_blank⟩
      rw [trim, List.dropWhile_eq_nil_iff.mpr nothing]
      rfl
  | cons first rest =>
      have visible := first_visible first rfl
      rw [trim, List.dropWhile_append_of_pos lead_blank, List.cons_append,
        List.dropWhile_cons_of_neg (by simp [visible]), ← List.cons_append,
        trimRight_append_blank trail_blank, trimRight_of_visible last_visible]

theorem head?_trim {text : Text} : ∀ byte, text.trim.head? = some byte → byte.isSpace = false := by
  intro byte head_eq
  obtain ⟨trail, blank, split⟩ := exists_trimRight_append (text.dropWhile Byte.isSpace)
  have first : (text.dropWhile Byte.isSpace).head? = some byte := by
    rw [split, List.head?_append, show (trimRight _).head? = some byte from head_eq]
    rfl
  simpa [first] using List.head?_dropWhile_not Byte.isSpace text

theorem getLast?_trimRight {text : Text} :
    ∀ byte, text.trimRight.getLast? = some byte → byte.isSpace = false := by
  intro byte last_eq
  rw [trimRight, dropRightWhile, List.getLast?_reverse] at last_eq
  simpa [last_eq] using List.head?_dropWhile_not Byte.isSpace text.reverse

theorem getLast?_trim {text : Text} :
    ∀ byte, text.trim.getLast? = some byte → byte.isSpace = false :=
  getLast?_trimRight

end Text

end TenantScope
