import Mathlib.Logic.ExistsUnique
import TenantScope.Proofs.Tokens
import TenantScope.Statement

/-!
# Literals as they are written

A literal is written as its content between two marks.  A mark in the content is written twice, and
in an escape string a backslash is too.  What is written so is read as one literal, whatever comes
before it and whatever but its own mark comes after it; and a literal that a mark closes, other than
an escape string, is the written form of one content.
-/

namespace TenantScope

open Text Site

namespace Literal

/-! ## The prefix of an escape string -/

/-- A text ends in an `E`, in either case, that begins a word. -/
def EndsInPrefix (text : Text) : Prop :=
  ∃ front letter, text = front ++ [letter] ∧ (letter = Byte.ofChar 'E' ∨ letter = Byte.ofChar 'e') ∧
    front.getLast?.any Byte.isIdentifier = false

theorem endsInEscapeLetter_reverse (text : Text) :
    endsInEscapeLetter text.reverse = true ↔ EndsInPrefix text := by
  rcases List.eq_nil_or_concat text with rfl | ⟨front, letter, rfl⟩
  · simp [endsInEscapeLetter, EndsInPrefix]
  · rw [List.concat_eq_append, List.reverse_concat, endsInEscapeLetter, List.head?_reverse]
    simp only [Bool.and_eq_true, Bool.or_eq_true, beq_iff_eq, Bool.not_eq_true']
    constructor
    · exact fun ends => ⟨front, letter, rfl, ends⟩
    · rintro ⟨other, last, same, ends⟩
      obtain ⟨rfl, last_eq⟩ := List.append_inj' same rfl
      obtain rfl := List.singleton_inj.mp last_eq
      exact ends

/-- A literal with the given mark is an escape string after the text `before`. -/
def BeginsEscapeString (before : Text) (mark : Byte) : Prop :=
  mark = Byte.apostrophe ∧ EndsInPrefix before

theorem escapesAfter_reverse (before : Text) (mark : Byte) :
    escapesAfter .standard before.reverse mark = true ↔ BeginsEscapeString before mark := by
  simp [escapesAfter, BeginsEscapeString, endsInEscapeLetter_reverse]

instance (before : Text) (mark : Byte) : Decidable (BeginsEscapeString before mark) :=
  decidable_of_iff _ (escapesAfter_reverse before mark)

/-! ## The written form -/

/-- A literal as it is written. -/
def written (mark : Byte) (escapes : Bool) (content : Text) : Text :=
  mark :: (encode mark escapes content ++ [mark])

theorem encode_injective (mark : Byte) (escapes : Bool) :
    Function.Injective (encode mark escapes) := by
  have head_eq (byte : Byte) (content : Text) :
      (encode mark escapes (byte :: content)).head? = some byte := by
    rw [encode]
    split <;> rfl
  intro content
  induction content with
  | nil =>
      intro other same
      cases other with
      | nil => rfl
      | cons byte other =>
          simpa [encode] using (congrArg List.head? same).trans (head_eq byte other)
  | cons byte content ih =>
      intro other same
      have heads := (head_eq byte content).symm.trans (congrArg List.head? same)
      cases other with
      | nil => simp [encode] at heads
      | cons first other =>
          obtain rfl : byte = first := by simpa [head_eq] using heads
          rw [encode, encode] at same
          split at same
          · rw [ih (List.cons.inj (List.cons.inj same).2).2]
          · rw [ih (List.cons.inj same).2]

theorem written_injective (mark : Byte) (escapes : Bool) :
    Function.Injective (written mark escapes) :=
  fun _ _ same => encode_injective mark escapes (List.append_cancel_right (List.cons.inj same).2)

/-- Without escapes, what comes before a closing mark is some content as it is written. -/
theorem exists_encode_of_closing? {mark : Byte} {text : Text} {length : Nat}
    (closed : closing? mark false text = some length) :
    ∃ content, text.take length = encode mark false content ++ [mark] := by
  fun_induction closing? mark false text generalizing length with
  | case1 => cases closed
  | case2 byte escaped => simp at escaped
  | case3 byte escaped next rest ih => simp at escaped
  | case4 byte plain closing =>
      obtain rfl : 1 = length := by simpa using closed
      exact ⟨[], by simpa [encode] using closing⟩
  | case5 byte plain closing next rest doubled ih =>
      obtain ⟨inner, found, rfl⟩ := Option.map_eq_some_iff.mp closed
      obtain ⟨content, content_eq⟩ := ih found
      obtain rfl : byte = mark := beq_iff_eq.mp closing
      obtain rfl : next = byte := beq_iff_eq.mp doubled
      exact ⟨next :: content, by simp [encode, content_eq]⟩
  | case6 byte plain closing next rest single =>
      obtain rfl : 1 = length := by simpa using closed
      exact ⟨[], by simpa [encode] using closing⟩
  | case7 byte rest plain other ih =>
      obtain ⟨inner, found, rfl⟩ := Option.map_eq_some_iff.mp closed
      obtain ⟨content, content_eq⟩ := ih found
      exact ⟨byte :: content, by simp [encode, content_eq, other]⟩

/-! ## Reading a literal -/

section Reading

variable {text : Text} {offset : Nat} {mark : Byte}

/-- Length of the literal at an offset behind its first mark, or nothing if no mark closes it. -/
def closingAt? (text : Text) (offset : Nat) (mark : Byte) : Option Nat :=
  closing? mark (decide (BeginsEscapeString (text.take offset) mark)) (text.drop (offset + 1))

theorem rest_atOffset (marked : text[offset]? = some mark) :
    (Site.atOffset text offset).rest = mark :: text.drop (offset + 1) := by
  obtain ⟨inside, here⟩ := List.getElem?_eq_some_iff.mp marked
  rw [← here]
  exact List.drop_eq_getElem_cons inside

theorem escapesAt_atOffset (marked : text[offset]? = some mark) :
    escapesAt .standard (Site.atOffset text offset) =
      decide (BeginsEscapeString (text.take offset) mark) := by
  rw [Site.atOffset, show text.drop offset = _ from rest_atOffset marked, escapesAt_mk,
    Bool.eq_iff_iff, escapesAfter_reverse, decide_eq_true_eq]

theorem width_of_closing? {length : Nat} (marked : text[offset]? = some mark)
    (closed : closingAt? text offset mark = some length) :
    closedAt .standard (Site.atOffset text offset) = true ∧
      width .standard (Site.atOffset text offset) = length + 1 := by
  rw [closingAt?] at closed
  simp [closedAt, width, rest_atOffset marked, escapesAt_atOffset marked, closed]

/-- A literal that no mark closes runs to the end of the text. -/
theorem width_of_unclosed (marked : text[offset]? = some mark)
    (unclosed : closingAt? text offset mark = none) :
    closedAt .standard (Site.atOffset text offset) = false ∧
      offset + width .standard (Site.atOffset text offset) = text.length := by
  have inside := (List.getElem?_eq_some_iff.mp marked).1
  rw [closingAt?] at unclosed
  constructor
  · simp [closedAt, rest_atOffset marked, escapesAt_atOffset marked, unclosed]
  · simp only [width, rest_atOffset marked, escapesAt_atOffset marked, unclosed, List.length_drop]
    omega

/-- Without escapes, a literal that a mark closes is the written form of one content. -/
theorem existsUnique_written {length : Nat} (marked : text[offset]? = some mark)
    (closed : closing? mark false (text.drop (offset + 1)) = some length) :
    (∃! content, Statement.slice text offset (offset + (length + 1)) = written mark false content) ∧
      text[offset + (length + 1)]? ≠ some mark := by
  obtain ⟨content, content_eq⟩ := exists_encode_of_closing? closed
  have slice_eq :
      Statement.slice text offset (offset + (length + 1)) = written mark false content := by
    rw [Statement.slice, Nat.add_sub_cancel_left,
      show text.drop offset = _ from rest_atOffset marked, List.take_succ_cons, content_eq]
    rfl
  refine ⟨⟨content, slice_eq, fun other other_eq => ?_⟩, ?_⟩
  · exact written_injective mark false (other_eq.symm.trans slice_eq)
  · have single := head?_drop_of_closing? closed
    rwa [List.drop_drop, List.head?_drop, show offset + 1 + length = offset + (length + 1) by omega]
      at single

/-- A written literal ends at its closing mark if no further one comes directly after it. -/
theorem closing?_of_written (quote : mark.isQuote = true) (content : Text) {after : Text}
    (single : after.head? ≠ some mark)
    (split : text.drop offset =
      written mark (decide (BeginsEscapeString (text.take offset) mark)) content ++ after) :
    text[offset]? = some mark ∧ closingAt? text offset mark =
      some ((encode mark (decide (BeginsEscapeString (text.take offset) mark)) content).length +
        1) := by
  rw [written, List.cons_append, List.append_assoc, List.singleton_append] at split
  have behind : text.drop (offset + 1) =
      encode mark (decide (BeginsEscapeString (text.take offset) mark)) content ++ mark ::
        after := by
    rw [← List.tail_drop, split, List.tail_cons]
  refine ⟨?_, ?_⟩
  · rw [← List.head?_drop, split, List.head?_cons]
  · rw [closingAt?, behind,
      closing?_encode mark _ (Byte.ne_backslash_of_isQuote mark quote) content after single]

end Reading

/-- The reading of literals recognises their written forms.  A written literal that no further mark
follows is closed where it ends, whatever comes before and after it.  A literal other than an escape
string that is closed is the written form of one content, and no further mark follows it.  A literal
that is not closed runs to the end of the text, and then no written literal without a further mark
after it begins there. -/
theorem reads_written_literals {mark : Byte} (quote : mark.isQuote = true) :
    (∀ before content after : Text, after.head? ≠ some mark →
      let literal := written mark (decide (BeginsEscapeString before mark)) content
      let site := Site.atOffset (before ++ (literal ++ after)) before.length
      closedAt .standard site = true ∧
        before.length + width .standard site = (before ++ literal).length) ∧
    ∀ (text : Text) (offset : Nat), text[offset]? = some mark →
      let escaped := BeginsEscapeString (text.take offset) mark
      let site := Site.atOffset text offset
      let stop := offset + width .standard site
      (¬ escaped → closedAt .standard site = true →
        (∃! content, Statement.slice text offset stop = written mark false content) ∧
          text[stop]? ≠ some mark) ∧
      (closedAt .standard site = false → stop = text.length ∧
        ∀ content after, text.drop offset = written mark (decide escaped) content ++ after →
          after.head? = some mark) := by
  refine ⟨fun before content after single => ?_, fun text offset marked => ⟨?_, ?_⟩⟩
  · intro literal site
    have split : (before ++ (literal ++ after)).drop before.length = literal ++ after :=
      List.drop_left
    have front : (before ++ (literal ++ after)).take before.length = before := List.take_left
    obtain ⟨marked, closed⟩ := closing?_of_written quote content single (by rw [front]; exact split)
    obtain ⟨is_closed, width_eq⟩ := width_of_closing? marked closed
    refine ⟨is_closed, ?_⟩
    rw [width_eq, front, List.length_append]
    simp [literal, written]
  · intro plain is_closed
    cases closed : closingAt? text offset mark with
    | none => simp [(width_of_unclosed marked closed).1] at is_closed
    | some length =>
        rw [(width_of_closing? marked closed).2]
        rw [closingAt?, decide_eq_false plain] at closed
        exact existsUnique_written marked closed
  · intro is_open
    cases closed : closingAt? text offset mark with
    | some length => simp [(width_of_closing? marked closed).1] at is_open
    | none =>
        refine ⟨(width_of_unclosed marked closed).2, fun content after split => ?_⟩
        by_contra single
        have found := (closing?_of_written quote content single split).2
        rw [closed] at found
        cases found

/-- An escape string with both of its doubled bytes, a literal with a doubled mark, and one whose
last two marks are one doubled mark. -/
theorem reads_written_literals_doubled :
    closedAt .standard (Site.atOffset (ascii "a = E'it''s \\\\';") 5) = true ∧
    5 + width .standard (Site.atOffset (ascii "a = E'it''s \\\\';") 5) = 15 ∧
    (∃! content, Statement.slice (ascii "x 'a''b' c") 2 8 = written Byte.apostrophe false content) ∧
    2 + width .standard (Site.atOffset (ascii "x 'a''") 2) = 6 ∧
    ∀ content after, (ascii "x 'a''").drop 2 = written Byte.apostrophe false content ++ after →
      after.head? = some Byte.apostrophe := by
  have quote : Byte.isQuote Byte.apostrophe = true := by decide
  have escaped :=
    (reads_written_literals quote).1 (ascii "a = E") (ascii "it's \\") (ascii ";") (by decide)
  have written_eq : written Byte.apostrophe
      (decide (BeginsEscapeString (ascii "a = E") Byte.apostrophe)) (ascii "it's \\") =
        ascii "'it''s \\\\'" := by
    decide +kernel
  have text_eq :
      ascii "a = E" ++ (ascii "'it''s \\\\'" ++ ascii ";") = ascii "a = E'it''s \\\\';" := by
    decide +kernel
  have start_eq : (ascii "a = E").length = 5 := by decide
  have end_eq : (ascii "a = E" ++ ascii "'it''s \\\\'").length = 15 := by decide
  simp only [written_eq, text_eq, start_eq, end_eq] at escaped
  have closed := ((reads_written_literals quote).2 (ascii "x 'a''b' c") 2 (by decide)).1
    (by decide +kernel) (by decide +kernel)
  have stop_eq : 2 + width .standard (Site.atOffset (ascii "x 'a''b' c") 2) = 8 := by decide +kernel
  rw [stop_eq] at closed
  have unclosed :=
    ((reads_written_literals quote).2 (ascii "x 'a''") 2 (by decide)).2 (by decide +kernel)
  have plain : ¬ BeginsEscapeString ((ascii "x 'a''").take 2) Byte.apostrophe := by decide +kernel
  rw [decide_eq_false plain] at unclosed
  exact ⟨escaped.1, escaped.2, closed.1, unclosed⟩

end Literal

end TenantScope
