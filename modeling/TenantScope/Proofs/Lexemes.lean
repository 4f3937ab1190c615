import Mathlib.Tactic.ByContra
import TenantScope.Literal
import TenantScope.Proofs.Bytes

/-!
# Reading a text lexeme by lexeme

A text is read after the bytes before it, since an apostrophe may follow the letter that begins an
escape string.  This file gives the equations of that reading and its induction principle, and says
when the reading of a text does not depend on what surrounds it: a text whose literals are all
closed is read in the same way whatever comes after it, and a text that begins afresh is read in the
same way whatever comes before it.
-/

namespace TenantScope

namespace Literal

/-! ## Closing marks -/

/-- A closed literal stays closed at the same place whatever comes after it, unless another mark of
its kind follows it directly. -/
theorem closing?_append {mark : Byte} {escapes : Bool} {text : Text} {length : Nat}
    (closed : closing? mark escapes text = some length) (after : Text)
    (apart : after.head? = some mark → length < text.length) :
    closing? mark escapes (text ++ after) = some length := by
  fun_induction closing? mark escapes text generalizing length with
  | case1 => simp at closed
  | case2 => simp at closed
  | case3 byte escaped next rest ih =>
      obtain ⟨inner, found, rfl⟩ := Option.map_eq_some_iff.mp closed
      have inner_closed := ih found fun same => by
        have bound := apart same
        simp only [List.length_cons] at bound
        omega
      simp [closing?, escaped, inner_closed]
  | case4 byte plain same =>
      obtain rfl : 1 = length := by simpa using closed
      cases after with
      | nil => simp [closing?, plain, same]
      | cons next after =>
          have next_ne : next ≠ mark := fun next_eq => by simp [next_eq] at apart
          simp [closing?, plain, same, next_ne]
  | case5 byte plain same next rest doubled ih =>
      obtain ⟨inner, found, rfl⟩ := Option.map_eq_some_iff.mp closed
      have inner_closed := ih found fun same => by
        have bound := apart same
        simp only [List.length_cons] at bound
        omega
      simp [closing?, plain, same, doubled, inner_closed]
  | case6 byte plain same next rest single => simpa [closing?, plain, same, single] using closed
  | case7 byte rest plain other ih =>
      obtain ⟨inner, found, rfl⟩ := Option.map_eq_some_iff.mp closed
      have inner_closed := ih found fun same => by
        have bound := apart same
        simp only [List.length_cons] at bound
        omega
      rw [List.cons_append, closing?_cons (by simpa using other) (by simpa using plain),
        inner_closed]
      rfl

/-- A closed literal ends in its mark. -/
theorem getLast?_take_of_closing? {mark : Byte} {escapes : Bool} {text : Text} {length : Nat}
    (closed : closing? mark escapes text = some length) :
    (text.take length).getLast? = some mark := by
  fun_induction closing? mark escapes text generalizing length with
  | case1 => simp at closed
  | case2 => simp at closed
  | case3 byte escaped next rest ih =>
      obtain ⟨inner, found, rfl⟩ := Option.map_eq_some_iff.mp closed
      simp [List.take_succ_cons, List.getLast?_cons, ih found]
  | case4 byte plain same =>
      obtain rfl : 1 = length := by simpa using closed
      simpa using same
  | case5 byte plain same next rest doubled ih =>
      obtain ⟨inner, found, rfl⟩ := Option.map_eq_some_iff.mp closed
      simp [List.take_succ_cons, List.getLast?_cons, ih found]
  | case6 byte plain same next rest single =>
      obtain rfl : 1 = length := by simpa using closed
      simpa using same
  | case7 byte rest plain other ih =>
      obtain ⟨inner, found, rfl⟩ := Option.map_eq_some_iff.mp closed
      simp [List.take_succ_cons, List.getLast?_cons, ih found]

/-- A literal that goes to the end of a text ends in its mark. -/
theorem getLast?_of_closing? {mark : Byte} {escapes : Bool} {text : Text}
    (closed : closing? mark escapes text = some text.length) : text.getLast? = some mark := by
  have last := getLast?_take_of_closing? closed
  rwa [List.take_length] at last

/-- What follows a closed literal has no part in closing it. -/
theorem closing?_of_append {mark : Byte} {escapes : Bool} {text after : Text} {length : Nat}
    (closed : closing? mark escapes (text ++ after) = some length)
    (within : length ≤ text.length) : closing? mark escapes text = some length := by
  fun_induction closing? mark escapes text generalizing length with
  | case1 =>
      obtain rfl : length = 0 := by simpa using within
      have marked := getLast?_take_of_closing? closed
      simp at marked
  | case2 byte escaped =>
      cases after with
      | nil => simp [closing?, escaped] at closed
      | cons next after =>
          simp only [List.singleton_append, closing?, escaped, if_true] at closed
          obtain ⟨inner, found, rfl⟩ := Option.map_eq_some_iff.mp closed
          simp at within
  | case3 byte escaped next rest ih =>
      simp only [List.cons_append, closing?, escaped, if_true] at closed
      obtain ⟨inner, found, rfl⟩ := Option.map_eq_some_iff.mp closed
      rw [ih found (by simpa using within)]
      rfl
  | case4 byte plain same =>
      have marked := getLast?_take_of_closing? closed
      have length_eq : length = 1 := by
        rcases length with _ | _ | length
        · simp at marked
        · rfl
        · simp at within
      rw [length_eq]
  | case5 byte plain same next rest doubled ih =>
      simp only [List.cons_append, closing?, plain, same, doubled, if_true, if_false,
        Bool.false_eq_true] at closed
      obtain ⟨inner, found, rfl⟩ := Option.map_eq_some_iff.mp closed
      rw [ih found (by simpa using within)]
      rfl
  | case6 byte plain same next rest single =>
      simpa [closing?, plain, same, single] using closed
  | case7 byte rest plain other ih =>
      rw [List.cons_append, closing?_cons (by simpa using other) (by simpa using plain)] at closed
      obtain ⟨inner, found, rfl⟩ := Option.map_eq_some_iff.mp closed
      rw [ih found (by simpa using within)]
      rfl

/-- What holds no mark closes no literal. -/
theorem closing?_append_eq_none {mark : Byte} {escapes : Bool} {text after : Text}
    (unclosed : closing? mark escapes text = none) (free : mark ∉ after) :
    closing? mark escapes (text ++ after) = none := by
  cases closed : closing? mark escapes (text ++ after) with
  | none => rfl
  | some length =>
      by_cases within : length ≤ text.length
      · rw [closing?_of_append closed within] at unclosed
        simp at unclosed
      · have last := getLast?_take_of_closing? closed
        rw [List.take_append, List.getLast?_append_of_ne_nil] at last
        · exact absurd (List.mem_of_mem_take (List.mem_of_getLast? last)) free
        · intro empty
          have bound := closing?_le closed
          rw [List.take_eq_nil_iff] at empty
          rcases empty with none_left | none_after
          · omega
          · rw [none_after, List.append_nil] at bound
            omega

/-- A literal that is closed is what comes before the text after it. -/
theorem exists_of_closing? {mark : Byte} {escapes : Bool} {rest : Text} {length : Nat}
    (closed : closing? mark escapes rest = some length) :
    ∃ literal after, rest = literal ++ after ∧
      closing? mark escapes (literal ++ after) = some literal.length := by
  have split := List.take_append_drop length rest
  refine ⟨rest.take length, rest.drop length, split.symm, ?_⟩
  rw [split, closed, List.length_take, Nat.min_eq_left (closing?_le closed)]

/-- A literal with the given mark, after the bytes `back`, reads a backslash as an escape. -/
def escapesAfter (dialect : Dialect) (back : Text) (mark : Byte) : Bool :=
  mark == Byte.apostrophe && (decide (dialect = .backslashes) || endsInEscapeLetter back)

theorem escapesAt_mk (dialect : Dialect) (back : Text) (mark : Byte) (rest : Text)
    (offset depth : Nat) :
    escapesAt dialect ⟨back, mark :: rest, offset, depth⟩ = escapesAfter dialect back mark := by
  cases dialect <;> simp [escapesAt, opensEscapeString, escapesAfter, Site.byte?]

theorem width_cons (dialect : Dialect) (back : Text) (mark : Byte) (rest : Text)
    (offset depth : Nat) :
    width dialect ⟨back, mark :: rest, offset, depth⟩ =
      (closing? mark (escapesAfter dialect back mark) rest).getD rest.length + 1 := by
  rw [width]
  simp only [escapesAt_mk]
  cases closing? mark (escapesAfter dialect back mark) rest <;> rfl

end Literal

namespace Site

open Literal

/-! ## The reading of a text -/

theorem depthAfter_of_flat {byte : Byte} (flat : byte ≠ Byte.openParen ∧ byte ≠ Byte.closeParen)
    (depth : Nat) : depthAfter byte depth = depth := by
  simp [depthAfter, flat.1, flat.2]

section Reading

variable (dialect : Dialect) (offset depth : Nat)

theorem lexemeWidth_code (back rest : Text) {byte : Byte} (plain : byte.isQuote = false) :
    lexemeWidth dialect ⟨back, byte :: rest, offset, depth⟩ = 1 := by
  simp [lexemeWidth, atQuote, byte?, plain]

theorem lexemeWidth_quote (back rest : Text) {mark : Byte} (quote : mark.isQuote = true) :
    lexemeWidth dialect ⟨back, mark :: rest, offset, depth⟩ =
      (closing? mark (escapesAfter dialect back mark) rest).getD rest.length + 1 := by
  rw [lexemeWidth, if_pos (by simpa [atQuote, byte?] using quote), width_cons]

theorem lexemes_nil (back : Text) : lexemes ⟨back, [], offset, depth⟩ dialect = [] := by
  simp [lexemes, tour, walk]

theorem lexemes_code (back rest : Text) {byte : Byte} (plain : byte.isQuote = false) :
    lexemes ⟨back, byte :: rest, offset, depth⟩ dialect =
      ⟨back, byte :: rest, offset, depth⟩ ::
        lexemes ⟨byte :: back, rest, offset + 1, depthAfter byte depth⟩ dialect := by
  simp [lexemes, tour, walk, lexemeWidth_code _ _ _ _ _ plain]

theorem lexemes_literal (back literal rest : Text) {mark : Byte} (quote : mark.isQuote = true)
    (closed : closing? mark (escapesAfter dialect back mark) (literal ++ rest) =
      some literal.length) :
    lexemes ⟨back, mark :: (literal ++ rest), offset, depth⟩ dialect =
      ⟨back, mark :: (literal ++ rest), offset, depth⟩ ::
        lexemes ⟨literal.reverse ++ mark :: back, rest, offset + (literal.length + 1), depth⟩
          dialect := by
  have width_eq : lexemeWidth dialect ⟨back, mark :: (literal ++ rest), offset, depth⟩ =
      literal.length + 1 := by
    rw [lexemeWidth_quote _ _ _ _ _ quote, closed, Option.getD_some]
  have depth_eq : depthAfter mark depth = depth := by
    simp [depthAfter, Byte.depthless_of_isQuote mark quote]
  simp only [lexemes, tour, walk, width_eq, depth_eq, Nat.add_sub_cancel]
  rw [walk_skip]
  simp only [List.take_left', List.drop_left', List.length_append]
  congr 2
  omega

theorem lexemes_unclosed (back rest : Text) {mark : Byte} (quote : mark.isQuote = true)
    (unclosed : closing? mark (escapesAfter dialect back mark) rest = none) :
    lexemes ⟨back, mark :: rest, offset, depth⟩ dialect =
      [⟨back, mark :: rest, offset, depth⟩] := by
  have width_eq : lexemeWidth dialect ⟨back, mark :: rest, offset, depth⟩ = rest.length + 1 := by
    rw [lexemeWidth_quote _ _ _ _ _ quote, unclosed, Option.getD_none]
  simp only [lexemes, tour, walk, width_eq, Nat.add_sub_cancel]
  rw [walk_skip, List.drop_length]
  simp [walk]

end Reading

/-- Induction along the lexemes of a text: a byte outside literals, a closed literal, or a literal
that runs to the end. -/
@[elab_as_elim]
theorem lexeme_induction (dialect : Dialect) {motive : Text → Text → Prop}
    (nil : ∀ back, motive back [])
    (code : ∀ back byte rest, byte.isQuote = false → motive (byte :: back) rest →
      motive back (byte :: rest))
    (literal : ∀ back mark literal rest, mark.isQuote = true →
      closing? mark (escapesAfter dialect back mark) (literal ++ rest) = some literal.length →
      motive (literal.reverse ++ mark :: back) rest → motive back (mark :: (literal ++ rest)))
    (unclosed : ∀ back mark rest, mark.isQuote = true →
      closing? mark (escapesAfter dialect back mark) rest = none → motive back (mark :: rest))
    (back text : Text) : motive back text := by
  induction size : text.length using Nat.strongRecOn generalizing back text with
  | _ size ih =>
      subst size
      cases text with
      | nil => exact nil back
      | cons byte rest =>
          cases quote : byte.isQuote with
          | false =>
              exact code back byte rest quote (ih rest.length (by simp) (byte :: back) rest rfl)
          | true =>
              cases closed : closing? byte (escapesAfter dialect back byte) rest with
              | none => exact unclosed back byte rest quote closed
              | some length =>
                  obtain ⟨content, after, rfl, content_closed⟩ := exists_of_closing? closed
                  have shorter : after.length < (byte :: (content ++ after)).length := by
                    rw [List.length_cons, List.length_append]
                    omega
                  exact literal back byte content after quote content_closed (ih _ shorter _ _ rfl)

/-! ## Closed literals and open parentheses -/

/-- Every literal from the place on is closed. -/
def Closed (site : Site) : Prop :=
  ∀ literal ∈ site.literals, closedAt .standard literal = true

/-- Number of parentheses open at the end of the text. -/
def endDepth (site : Site) : Nat :=
  site.code.foldl (fun depth lexeme => lexeme.byte?.elim depth (depthAfter · depth)) site.depth

section Equations

variable (offset depth : Nat)

theorem code_nil (back : Text) : code ⟨back, [], offset, depth⟩ = [] := by
  simp [code, lexemes_nil]

theorem code_cons (back rest : Text) {byte : Byte} (plain : byte.isQuote = false) :
    code ⟨back, byte :: rest, offset, depth⟩ =
      ⟨back, byte :: rest, offset, depth⟩ ::
        code ⟨byte :: back, rest, offset + 1, depthAfter byte depth⟩ := by
  simp [code, lexemes_code, plain, atQuote, byte?]

theorem code_literal (back literal rest : Text) {mark : Byte} (quote : mark.isQuote = true)
    (closed : closing? mark (escapesAfter .standard back mark) (literal ++ rest) =
      some literal.length) :
    code ⟨back, mark :: (literal ++ rest), offset, depth⟩ =
      code ⟨literal.reverse ++ mark :: back, rest, offset + (literal.length + 1), depth⟩ := by
  simp [code, lexemes_literal _ _ _ _ _ _ quote closed, quote, atQuote, byte?]

theorem code_unclosed (back rest : Text) {mark : Byte} (quote : mark.isQuote = true)
    (unclosed : closing? mark (escapesAfter .standard back mark) rest = none) :
    code ⟨back, mark :: rest, offset, depth⟩ = [] := by
  simp [code, lexemes_unclosed _ _ _ _ _ quote unclosed, quote, atQuote, byte?]

theorem literals_nil (back : Text) : literals ⟨back, [], offset, depth⟩ = [] := by
  simp [literals, lexemes_nil]

theorem literals_cons (back rest : Text) {byte : Byte} (plain : byte.isQuote = false) :
    literals ⟨back, byte :: rest, offset, depth⟩ =
      literals ⟨byte :: back, rest, offset + 1, depthAfter byte depth⟩ := by
  simp [literals, lexemes_code, plain, atQuote, byte?]

theorem literals_literal (back literal rest : Text) {mark : Byte} (quote : mark.isQuote = true)
    (closed : closing? mark (escapesAfter .standard back mark) (literal ++ rest) =
      some literal.length) :
    literals ⟨back, mark :: (literal ++ rest), offset, depth⟩ =
      ⟨back, mark :: (literal ++ rest), offset, depth⟩ ::
        literals ⟨literal.reverse ++ mark :: back, rest, offset + (literal.length + 1), depth⟩ := by
  simp [literals, lexemes_literal _ _ _ _ _ _ quote closed, quote, atQuote, byte?]

theorem literals_unclosed (back rest : Text) {mark : Byte} (quote : mark.isQuote = true)
    (unclosed : closing? mark (escapesAfter .standard back mark) rest = none) :
    literals ⟨back, mark :: rest, offset, depth⟩ = [⟨back, mark :: rest, offset, depth⟩] := by
  simp [literals, lexemes_unclosed _ _ _ _ _ quote unclosed, quote, atQuote, byte?]

theorem closed_nil (back : Text) : Closed ⟨back, [], offset, depth⟩ := by
  simp [Closed, literals_nil]

theorem closed_cons (back rest : Text) {byte : Byte} (plain : byte.isQuote = false) :
    Closed ⟨back, byte :: rest, offset, depth⟩ ↔
      Closed ⟨byte :: back, rest, offset + 1, depthAfter byte depth⟩ := by
  rw [Closed, literals_cons _ _ _ _ plain, Closed]

theorem closed_literal (back literal rest : Text) {mark : Byte} (quote : mark.isQuote = true)
    (closed : closing? mark (escapesAfter .standard back mark) (literal ++ rest) =
      some literal.length) :
    Closed ⟨back, mark :: (literal ++ rest), offset, depth⟩ ↔
      Closed ⟨literal.reverse ++ mark :: back, rest, offset + (literal.length + 1), depth⟩ := by
  simp [Closed, literals_literal _ _ _ _ _ quote closed, closedAt, escapesAt_mk, closed]

theorem not_closed_unclosed (back rest : Text) {mark : Byte} (quote : mark.isQuote = true)
    (unclosed : closing? mark (escapesAfter .standard back mark) rest = none) :
    ¬ Closed ⟨back, mark :: rest, offset, depth⟩ := by
  simp [Closed, literals_unclosed _ _ _ _ quote unclosed, closedAt, escapesAt_mk, unclosed]

theorem endDepth_nil (back : Text) : endDepth ⟨back, [], offset, depth⟩ = depth := by
  simp [endDepth, code_nil]

theorem endDepth_cons (back rest : Text) {byte : Byte} (plain : byte.isQuote = false) :
    endDepth ⟨back, byte :: rest, offset, depth⟩ =
      endDepth ⟨byte :: back, rest, offset + 1, depthAfter byte depth⟩ := by
  simp [endDepth, code_cons _ _ _ _ plain, byte?]

theorem endDepth_literal (back literal rest : Text) {mark : Byte} (quote : mark.isQuote = true)
    (closed : closing? mark (escapesAfter .standard back mark) (literal ++ rest) =
      some literal.length) :
    endDepth ⟨back, mark :: (literal ++ rest), offset, depth⟩ =
      endDepth ⟨literal.reverse ++ mark :: back, rest, offset + (literal.length + 1), depth⟩ := by
  simp [endDepth, code_literal _ _ _ _ _ quote closed]

end Equations

theorem closed_congr (back text : Text) (offset depth offset' depth' : Nat) :
    Closed ⟨back, text, offset, depth⟩ ↔ Closed ⟨back, text, offset', depth'⟩ := by
  induction back,
    text using lexeme_induction .standard generalizing offset depth offset' depth' with
  | nil back => simp [closed_nil]
  | code back byte rest plain ih =>
      rw [closed_cons _ _ _ _ plain, closed_cons _ _ _ _ plain]
      exact ih _ _ _ _
  | literal back mark literal rest quote closed ih =>
      rw [closed_literal _ _ _ _ _ quote closed, closed_literal _ _ _ _ _ quote closed]
      exact ih _ _ _ _
  | unclosed back mark rest quote unclosed =>
      simp [not_closed_unclosed _ _ _ _ quote unclosed]

/-- A text without quotation marks has no literals. -/
theorem literals_of_plain {back text : Text} (offset depth : Nat)
    (plain : ∀ byte ∈ text, byte.isQuote = false) :
    literals ⟨back, text, offset, depth⟩ = [] := by
  induction text generalizing back offset depth with
  | nil => exact literals_nil _ _ _
  | cons byte rest ih =>
      rw [List.forall_mem_cons] at plain
      rw [literals_cons _ _ _ _ plain.1]
      exact ih _ _ plain.2

theorem closed_of_plain {back text : Text} (offset depth : Nat)
    (plain : ∀ byte ∈ text, byte.isQuote = false) : Closed ⟨back, text, offset, depth⟩ := by
  simp [Closed, literals_of_plain offset depth plain]

/-! ## Texts in a row -/

/-- The same place in a text with more after it. -/
def extend (after : Text) (site : Site) : Site :=
  { site with rest := site.rest ++ after }

/-- The same place in a text with more before it, the nearest byte first, that counts
for `offset` bytes. -/
def precede (before : Text) (offset : Nat) (site : Site) : Site :=
  { site with back := site.back ++ before, offset := site.offset + offset }

/-- After the bytes `back`, nearest first, a text begins with a lexeme and a word of its own. -/
structure Seam (back text : Text) : Prop where
  /-- No word runs on. -/
  word : back.head?.any Byte.isIdentifier = true → text.head?.any Byte.isIdentifier = false
  /-- No mark is written twice. -/
  mark : text.head?.any Byte.isQuote = true → back.head? ≠ text.head?
  /-- No escape string begins whose letter comes before. -/
  escape : text.head? = some Byte.apostrophe → endsInEscapeLetter back = false

/-- A literal that is closed before a seam stays closed at the same place. -/
theorem closing?_append_of_seam {back literal rest after : Text} {mark : Byte} {escapes : Bool}
    (quote : mark.isQuote = true)
    (closed : closing? mark escapes (literal ++ rest) = some literal.length)
    (seam : Seam ((mark :: (literal ++ rest)).reverse ++ back) after) :
    closing? mark escapes (literal ++ (rest ++ after)) = some literal.length := by
  rw [← List.append_assoc]
  refine closing?_append closed after fun same => ?_
  by_contra too_long
  obtain rfl : rest = [] := by
    rw [List.length_append] at too_long
    exact List.length_eq_zero_iff.mp (by omega)
  have last := getLast?_take_of_closing? closed
  simp only [List.append_nil, List.take_length] at last
  have marked := seam.mark (by simp [same, quote])
  simp [same, last] at marked

/-- The lexemes of two texts in a row are those of the one and those of the other. -/
theorem lexemes_append {back text after : Text} (offset depth : Nat)
    (closed : Closed ⟨back, text, offset, depth⟩) (seam : Seam (text.reverse ++ back) after) :
    lexemes ⟨back, text ++ after, offset, depth⟩ =
      (lexemes ⟨back, text, offset, depth⟩).map (extend after) ++
        lexemes ⟨text.reverse ++ back, after, offset + text.length,
          endDepth ⟨back, text, offset, depth⟩⟩ := by
  induction back, text using lexeme_induction .standard generalizing offset depth with
  | nil back => simp [lexemes_nil, endDepth_nil]
  | code back byte rest plain ih =>
      rw [closed_cons _ _ _ _ plain] at closed
      have tail := ih _ _ closed (by simpa using seam)
      rw [List.cons_append, lexemes_code _ _ _ _ _ plain, lexemes_code _ _ _ _ _ plain, tail,
        endDepth_cons _ _ _ _ plain]
      simp [extend, Nat.add_assoc, Nat.add_comm 1]
  | literal back mark literal rest quote literal_closed ih =>
      rw [closed_literal _ _ _ _ _ quote literal_closed] at closed
      have tail := ih _ _ closed (by simpa using seam)
      have still_closed := closing?_append_of_seam quote literal_closed seam
      rw [List.cons_append, List.append_assoc, lexemes_literal _ _ _ _ _ _ quote still_closed,
        lexemes_literal _ _ _ _ _ _ quote literal_closed, tail,
        endDepth_literal _ _ _ _ _ quote literal_closed]
      simp [extend, Nat.add_assoc, Nat.add_comm 1]
  | unclosed back mark rest quote unclosed =>
      exact absurd closed (not_closed_unclosed _ _ _ _ quote unclosed)

/-- Tours whose widths agree wherever the one of them comes visit the same sites. -/
theorem walk_congr {width other : Site → Nat} {back rest : Text} {offset depth skip : Nat}
    (agree : ∀ site ∈ walk width back offset depth skip rest, width site = other site) :
    walk width back offset depth skip rest = walk other back offset depth skip rest := by
  induction rest generalizing back offset depth skip with
  | nil => simp [walk]
  | cons byte rest ih =>
      cases skip with
      | succ skip =>
          rw [walk, walk]
          exact ih fun site member => agree site (by rwa [walk])
      | zero =>
          have here := agree ⟨back, byte :: rest, offset, depth⟩ (by simp [walk])
          simp only [walk, here]
          rw [ih fun site member => agree site (by simp [walk, here, member])]

theorem rest_ne_nil_of_mem_walk {width : Site → Nat} {back rest : Text} {offset depth skip : Nat}
    {site : Site} (member : site ∈ walk width back offset depth skip rest) : site.rest ≠ [] := by
  induction rest generalizing back offset depth skip with
  | nil => simp [walk] at member
  | cons byte rest ih =>
      cases skip with
      | succ skip => exact ih (by simpa [walk] using member)
      | zero =>
          simp only [walk, List.mem_cons] at member
          rcases member with rfl | member
          · simp
          · exact ih member

theorem byte?_extend {site : Site} (rest_ne : site.rest ≠ []) (after : Text) :
    (site.extend after).byte? = site.byte? := by
  simp [extend, byte?, List.head?_append_of_ne_nil _ rest_ne]

theorem atQuote_extend {site : Site} (rest_ne : site.rest ≠ []) (after : Text) :
    (site.extend after).atQuote = site.atQuote := by
  simp [atQuote, byte?_extend rest_ne]

/-- The code of two texts in a row is that of the one and that of the other. -/
theorem code_append {back text after : Text} (offset depth : Nat)
    (closed : Closed ⟨back, text, offset, depth⟩) (seam : Seam (text.reverse ++ back) after) :
    code ⟨back, text ++ after, offset, depth⟩ =
      (code ⟨back, text, offset, depth⟩).map (extend after) ++
        code ⟨text.reverse ++ back, after, offset + text.length,
          endDepth ⟨back, text, offset, depth⟩⟩ := by
  simp only [code, lexemes_append offset depth closed seam, List.filter_append, List.filter_map]
  congr 2
  refine List.filter_congr fun lexeme member => ?_
  simp [atQuote_extend (rest_ne_nil_of_mem_walk member)]

/-- What is read at the places of two texts in a row is what is read at those of the one and at
those of the other, if what comes after a place of the first does not change what is read there. -/
theorem filterMap_code_append {element : Type} {read : Site → Option element}
    {back text after : Text} (offset depth : Nat) (closed : Closed ⟨back, text, offset, depth⟩)
    (seam : Seam (text.reverse ++ back) after)
    (extended : ∀ site : Site, site.rest ≠ [] →
      site.rest.reverse ++ site.back = text.reverse ++ back →
      read (site.extend after) = read site) :
    (code ⟨back, text ++ after, offset, depth⟩).filterMap read =
      (code ⟨back, text, offset, depth⟩).filterMap read ++
        (code ⟨text.reverse ++ back, after, offset + text.length,
          endDepth ⟨back, text, offset, depth⟩⟩).filterMap read := by
  rw [code_append offset depth closed seam, List.filterMap_append, List.filterMap_map]
  congr 1
  refine List.filterMap_congr fun site member => ?_
  have walked := (List.mem_filter.mp member).1
  have whole := congrArg List.reverse (back_rest_of_mem_walk walked)
  simp only [List.reverse_append, List.reverse_reverse] at whole
  exact extended site (rest_ne_nil_of_mem_walk walked) whole

/-- The literals of two texts in a row are those of the one and those of the other. -/
theorem literals_append {back text after : Text} (offset depth : Nat)
    (closed : Closed ⟨back, text, offset, depth⟩) (seam : Seam (text.reverse ++ back) after) :
    literals ⟨back, text ++ after, offset, depth⟩ =
      (literals ⟨back, text, offset, depth⟩).map (extend after) ++
        literals ⟨text.reverse ++ back, after, offset + text.length,
          endDepth ⟨back, text, offset, depth⟩⟩ := by
  simp only [literals, lexemes_append offset depth closed seam, List.filter_append,
    List.filter_map]
  congr 2
  refine List.filter_congr fun lexeme member => ?_
  simp [atQuote_extend (rest_ne_nil_of_mem_walk member)]

theorem endDepth_append {back text after : Text} (offset depth : Nat)
    (closed : Closed ⟨back, text, offset, depth⟩) (seam : Seam (text.reverse ++ back) after) :
    endDepth ⟨back, text ++ after, offset, depth⟩ =
      endDepth ⟨text.reverse ++ back, after, offset + text.length,
        endDepth ⟨back, text, offset, depth⟩⟩ := by
  rw [endDepth, code_append offset depth closed seam, List.foldl_append, List.foldl_map]
  simp only [endDepth]
  congr 1
  refine List.foldl_ext _ _ _ fun depth lexeme member => ?_
  rw [byte?_extend (rest_ne_nil_of_mem_walk (List.mem_filter.mp member).1)]

/-- The literals of two texts in a row are closed when those of the other are, once
those of the one are. -/
theorem closed_append {back text after : Text} (offset depth : Nat)
    (closed : Closed ⟨back, text, offset, depth⟩) (seam : Seam (text.reverse ++ back) after) :
    Closed ⟨back, text ++ after, offset, depth⟩ ↔
      Closed ⟨text.reverse ++ back, after, offset, depth⟩ := by
  induction back, text using lexeme_induction .standard generalizing offset depth with
  | nil back => simp
  | code back byte rest plain ih =>
      rw [closed_cons _ _ _ _ plain] at closed
      rw [List.cons_append, closed_cons _ _ _ _ plain, ih _ _ closed (by simpa using seam)]
      simpa using closed_congr _ _ _ _ _ _
  | literal back mark literal rest quote literal_closed ih =>
      rw [closed_literal _ _ _ _ _ quote literal_closed] at closed
      rw [List.cons_append, List.append_assoc,
        closed_literal _ _ _ _ _ quote (closing?_append_of_seam quote literal_closed seam),
        ih _ _ closed (by simpa using seam)]
      simpa using closed_congr _ _ _ _ _ _
  | unclosed back mark rest quote unclosed =>
      exact absurd closed (not_closed_unclosed _ _ _ _ quote unclosed)

/-- The bytes just before two places weigh the same for the reading of a text after them. -/
structure SameContext (back other text : Text) : Prop where
  /-- Words go on in the same way. -/
  word : text.head?.any Byte.isIdentifier = true →
    back.head?.any Byte.isIdentifier = other.head?.any Byte.isIdentifier
  /-- Escape strings begin in the same way. -/
  escape : text.head? = some Byte.apostrophe →
    endsInEscapeLetter back = endsInEscapeLetter other

theorem not_escapeLetter_of_not_isIdentifier :
    ∀ byte : Byte, byte.isIdentifier = false →
      (byte == Byte.ofChar 'E' || byte == Byte.ofChar 'e') = false := by
  decide +kernel

theorem SameContext.cons {back other rest : Text} {byte : Byte}
    (same : SameContext back other (byte :: rest)) :
    SameContext (byte :: back) (byte :: other) rest where
  word _ := rfl
  escape _ := by
    by_cases identifier : byte.isIdentifier = true
    · simp only [endsInEscapeLetter, same.word (by simpa using identifier)]
    · have no_letter := not_escapeLetter_of_not_isIdentifier byte (by simpa using identifier)
      simp [endsInEscapeLetter, no_letter]

/-- A closed literal ends in its mark, and nothing before a mark weighs on what follows. -/
theorem SameContext.literal {literal rest : Text} {mark : Byte} {escapes : Bool}
    (quote : mark.isQuote = true)
    (closed : closing? mark escapes (literal ++ rest) = some literal.length) (back before : Text) :
    SameContext (literal.reverse ++ mark :: (back ++ before)) (literal.reverse ++ mark :: back)
      rest := by
  have last := getLast?_take_of_closing? closed
  rw [List.take_left' rfl] at last
  obtain ⟨content, rfl⟩ := List.getLast?_eq_some_iff.mp last
  have no_letter := not_escapeLetter_of_not_isIdentifier mark
    (Byte.isIdentifier_of_isQuote mark quote)
  constructor <;> simp [endsInEscapeLetter, no_letter]

theorem SameContext.escapesAfter_eq {back other rest : Text} {mark : Byte}
    (same : SameContext back other (mark :: rest)) :
    escapesAfter .standard back mark = escapesAfter .standard other mark := by
  by_cases apostrophe : mark = Byte.apostrophe
  · simp [escapesAfter, same.escape (by simp [apostrophe])]
  · have other_mark : (mark == Byte.apostrophe) = false := by simpa using apostrophe
    simp [escapesAfter, other_mark]

/-- A text that begins afresh is read in the same way whatever comes before it. -/
theorem lexemes_precede {before inner text : Text} (shift offset depth : Nat)
    (same : SameContext (inner ++ before) inner text) :
    lexemes ⟨inner ++ before, text, offset + shift, depth⟩ =
      (lexemes ⟨inner, text, offset, depth⟩).map (precede before shift) := by
  induction inner, text using lexeme_induction .standard generalizing offset depth with
  | nil back => simp [lexemes_nil]
  | code back byte rest plain ih =>
      have tail := ih (offset + 1) (depthAfter byte depth) same.cons
      rw [lexemes_code _ _ _ _ _ plain, lexemes_code _ _ _ _ _ plain, List.map_cons, ← tail]
      simp [precede, Nat.add_right_comm]
  | literal back mark literal rest quote closed ih =>
      have tail := ih (offset + (literal.length + 1)) depth
        (by simpa using SameContext.literal quote closed back before)
      rw [lexemes_literal _ _ _ _ _ _ quote closed,
        lexemes_literal _ _ _ _ _ _ quote (by rwa [same.escapesAfter_eq]), List.map_cons, ← tail]
      simp [precede, Nat.add_right_comm]
  | unclosed back mark rest quote unclosed =>
      rw [lexemes_unclosed _ _ _ _ _ quote unclosed,
        lexemes_unclosed _ _ _ _ _ quote (by rwa [same.escapesAfter_eq])]
      simp [precede]

theorem closed_precede {before inner text : Text} (offset depth offset' depth' : Nat)
    (same : SameContext (inner ++ before) inner text) :
    Closed ⟨inner ++ before, text, offset, depth⟩ ↔ Closed ⟨inner, text, offset', depth'⟩ := by
  induction inner, text using lexeme_induction .standard
      generalizing offset depth offset' depth' with
  | nil back => simp [closed_nil]
  | code back byte rest plain ih =>
      rw [closed_cons _ _ _ _ plain, closed_cons _ _ _ _ plain]
      exact ih _ _ _ _ same.cons
  | literal back mark literal rest quote closed ih =>
      rw [closed_literal _ _ _ _ _ quote closed,
        closed_literal _ _ _ _ _ quote (by rwa [same.escapesAfter_eq])]
      simpa using ih _ _ _ _ (by simpa using SameContext.literal quote closed back before)
  | unclosed back mark rest quote unclosed =>
      have other := not_closed_unclosed offset depth (back ++ before) rest quote
        (by rwa [same.escapesAfter_eq])
      simp [other, not_closed_unclosed _ _ _ _ quote unclosed]

theorem Seam.sameContext {before text : Text} (seam : Seam before text) :
    SameContext ([] ++ before) [] text where
  word identifier := by
    cases follows : before.head?.any Byte.isIdentifier with
    | false => simpa using follows
    | true => simp [seam.word follows] at identifier
  escape apostrophe := seam.escape apostrophe

theorem lexemes_of_seam {before text : Text} (seam : Seam before text) (offset depth : Nat) :
    lexemes ⟨before, text, offset, depth⟩ =
      (lexemes ⟨[], text, 0, depth⟩).map (precede before offset) := by
  simpa using lexemes_precede offset 0 depth seam.sameContext

theorem code_of_seam {before text : Text} (seam : Seam before text) (offset depth : Nat) :
    code ⟨before, text, offset, depth⟩ =
      (code ⟨[], text, 0, depth⟩).map (precede before offset) := by
  simp only [code, lexemes_of_seam seam, List.filter_map]
  rfl

/-- What is read at the places of a text after a seam is what is read there if nothing comes before
the text, moved to where the text begins. -/
theorem filterMap_code_of_seam {element : Type} {read : Site → Option element} {before text : Text}
    (seam : Seam before text) (offset depth : Nat) {move : element → element}
    (preceded : ∀ site : Site, site.back.reverse ++ site.rest = text →
      read (site.precede before offset) = (read site).map move) :
    (code ⟨before, text, offset, depth⟩).filterMap read =
      ((code ⟨[], text, 0, depth⟩).filterMap read).map move := by
  rw [code_of_seam seam, List.filterMap_map, List.map_filterMap]
  exact List.filterMap_congr fun site member =>
    preceded site (back_rest_of_mem_walk (List.mem_filter.mp member).1)

/-- What holds at the places of two texts in a row holds at those of the one and at those
of the other, if neither what comes after a place of the first nor what comes before the
second matters for it. -/
theorem forall_code_append {holds : Site → Prop} {text after : Text} (depth : Nat)
    (closed : Closed ⟨[], text, 0, depth⟩) (seam : Seam text.reverse after)
    (extended : ∀ site : Site, site.rest ≠ [] → site.rest.reverse ++ site.back = text.reverse →
      (holds (site.extend after) ↔ holds site))
    (preceded : ∀ (before : Text) (offset : Nat) (site : Site),
      holds (site.precede before offset) ↔ holds site) :
    (∀ site ∈ code ⟨[], text ++ after, 0, depth⟩, holds site) ↔
      (∀ site ∈ code ⟨[], text, 0, depth⟩, holds site) ∧
        ∀ site ∈ code ⟨[], after, 0, endDepth ⟨[], text, 0, depth⟩⟩, holds site := by
  have seam' : Seam (text.reverse ++ []) after := by simpa using seam
  rw [code_append 0 depth closed seam', code_of_seam seam', List.forall_mem_append,
    List.forall_mem_map, List.forall_mem_map]
  refine and_congr (forall₂_congr fun place member => ?_)
    (forall₂_congr fun place _ => preceded _ _ place)
  have walked := (List.mem_filter.mp member).1
  have whole := congrArg List.reverse (back_rest_of_mem_walk walked)
  simp only [List.reverse_append, List.reverse_reverse, List.reverse_nil, List.append_nil] at whole
  exact extended place (rest_ne_nil_of_mem_walk walked) whole

theorem endDepth_of_seam {before text : Text} (seam : Seam before text) (offset depth : Nat) :
    endDepth ⟨before, text, offset, depth⟩ = endDepth ⟨[], text, 0, depth⟩ := by
  simp only [endDepth, code_of_seam seam, List.foldl_map]
  rfl

theorem closed_of_seam {before text : Text} (seam : Seam before text) (offset depth : Nat) :
    Closed ⟨before, text, offset, depth⟩ ↔ Closed (start text) := by
  exact closed_precede offset depth 0 0 seam.sameContext

/-! ## Seams -/

theorem Seam.of_nil_right (back : Text) : Seam back [] where
  word _ := rfl
  mark marked := by simp at marked
  escape apostrophe := by simp at apostrophe

theorem Seam.of_nil_left (text : Text) : Seam [] text where
  word := by simp
  mark marked same := by simp [← same] at marked
  escape _ := rfl

/-- A byte that belongs to no word and to no literal may follow anything. -/
theorem Seam.of_plain_head {byte : Byte} (identifier : byte.isIdentifier = false)
    (quote : byte.isQuote = false) (back rest : Text) : Seam back (byte :: rest) where
  word _ := by simpa using identifier
  mark marked := by simp [quote] at marked
  escape apostrophe := by
    obtain rfl : byte = Byte.apostrophe := by simpa using apostrophe
    exact absurd quote (by decide)

/-- Anything may follow a byte that belongs to no word and to no literal. -/
theorem Seam.of_plain_last {byte : Byte} (identifier : byte.isIdentifier = false)
    (quote : byte.isQuote = false) (back text : Text) : Seam (byte :: back) text where
  word follows := by simp [identifier] at follows
  mark marked same := by
    rw [← same] at marked
    simp [quote] at marked
  escape _ := by
    simp [endsInEscapeLetter, not_escapeLetter_of_not_isIdentifier byte identifier]

/-- A word may follow anything that is no word. -/
theorem Seam.of_word {back text : Text} (begins : back.head?.any Byte.isIdentifier = false)
    (word : ∀ byte, text.head? = some byte → byte.isIdentifier = true) : Seam back text where
  word follows := by simp [begins] at follows
  mark quote := by
    cases head_eq : text.head? with
    | none => simp [head_eq] at quote
    | some byte => simp [head_eq, Byte.isQuote_of_isIdentifier byte (word byte head_eq)] at quote
  escape apostrophe := absurd (word _ apostrophe) (by decide)

theorem Seam.of_blank_right {text : Text} (blank : ∀ byte ∈ text, byte.isSpace = true)
    (back : Text) : Seam back text := by
  cases text with
  | nil => exact of_nil_right back
  | cons byte rest =>
      have space := blank byte List.mem_cons_self
      exact of_plain_head (Byte.isIdentifier_of_isSpace byte space)
        (Byte.isQuote_of_isSpace byte space) back rest

theorem Seam.of_blank_left {back : Text} (blank : ∀ byte ∈ back, byte.isSpace = true)
    (text : Text) : Seam back text := by
  cases back with
  | nil => exact of_nil_left text
  | cons byte rest =>
      have space := blank byte List.mem_cons_self
      exact of_plain_last (Byte.isIdentifier_of_isSpace byte space)
        (Byte.isQuote_of_isSpace byte space) rest text

/-! ## Whole texts in a row -/

section Start

variable {text after : Text} (closed : Closed (start text))

include closed in
theorem closed_start_append (seam : Seam text.reverse after) :
    Closed (start (text ++ after)) ↔ Closed (start after) := by
  have seam' : Seam (text.reverse ++ []) after := by simpa using seam
  rw [start, closed_append 0 0 closed seam']
  exact closed_of_seam seam' _ _

include closed in
theorem endDepth_start_append (seam : Seam text.reverse after) :
    endDepth (start (text ++ after)) = endDepth ⟨[], after, 0, endDepth (start text)⟩ := by
  have seam' : Seam (text.reverse ++ []) after := by simpa using seam
  rw [start, endDepth_append 0 0 closed seam', endDepth_of_seam seam']
  rfl

end Start

/-! ## The order of the places -/

theorem le_offset_of_mem_walk {width : Site → Nat} {back rest : Text} {offset depth skip : Nat}
    {site : Site} (member : site ∈ walk width back offset depth skip rest) :
    offset ≤ site.offset := by
  induction rest generalizing back offset depth skip with
  | nil => simp [walk] at member
  | cons byte rest ih =>
      cases skip with
      | succ skip => exact Nat.le_of_succ_le (ih (by simpa [walk] using member))
      | zero =>
          simp only [walk, List.mem_cons] at member
          rcases member with rfl | member
          · exact Nat.le_refl _
          · exact Nat.le_of_succ_le (ih member)

theorem le_offset_of_mem_code {back text : Text} {offset depth : Nat} {site : Site}
    (member : site ∈ code ⟨back, text, offset, depth⟩) : offset ≤ site.offset :=
  le_offset_of_mem_walk (List.mem_filter.mp member).1

/-- Every tour visits places in their order. -/
theorem pairwise_walk (width : Site → Nat) (back rest : Text) (offset depth skip : Nat) :
    (walk width back offset depth skip rest).Pairwise fun earlier later =>
      earlier.offset < later.offset := by
  induction rest generalizing back offset depth skip with
  | nil => simp [walk]
  | cons byte rest ih =>
      cases skip with
      | succ skip => exact ih _ _ _ _
      | zero =>
          rw [walk, List.pairwise_cons]
          exact ⟨fun later member => Nat.lt_of_succ_le (le_offset_of_mem_walk member), ih _ _ _ _⟩

theorem pairwise_tour (width : Site → Nat) (site : Site) :
    (site.tour width).Pairwise fun earlier later => earlier.offset < later.offset :=
  pairwise_walk _ _ _ _ _ _

theorem pairwise_code (site : Site) :
    site.code.Pairwise fun earlier later => earlier.offset < later.offset :=
  (pairwise_tour _ _).filter _

theorem pairwise_code_start (text : Text) :
    (start text).code.Pairwise fun earlier later => earlier.offset < later.offset :=
  pairwise_code (start text)

theorem offset_add_length {text : Text} {site : Site} (member : site ∈ (start text).code) :
    site.offset + site.rest.length = text.length := by
  have walked := (List.mem_filter.mp member).1
  have counted := offset_of_mem_walk walked
  have whole := congrArg List.length (back_rest_of_mem_walk walked)
  simp only [start, List.length_append, List.length_reverse, List.length_nil] at counted whole
  omega

/-- From a place outside literals the reading goes on by itself. -/
theorem exists_code_append {back text : Text} {offset depth : Nat} {site : Site}
    (member : site ∈ code ⟨back, text, offset, depth⟩) :
    ∃ earlier, code ⟨back, text, offset, depth⟩ = earlier ++ site.code ∧
      ∀ place ∈ earlier, place.offset < site.offset := by
  induction back, text using lexeme_induction .standard generalizing offset depth with
  | nil back => simp [code_nil] at member
  | code back byte rest plain ih =>
      rw [code_cons _ _ _ _ plain] at member ⊢
      rcases List.mem_cons.mp member with rfl | member
      · exact ⟨[], by rw [code_cons _ _ _ _ plain]; rfl, by simp⟩
      · obtain ⟨earlier, split, before⟩ := ih member
        refine ⟨_ :: earlier, by rw [split]; rfl, ?_⟩
        rw [List.forall_mem_cons]
        exact ⟨Nat.lt_of_succ_le (le_offset_of_mem_code member), before⟩
  | literal back mark literal rest quote closed ih =>
      rw [code_literal _ _ _ _ _ quote closed] at member ⊢
      exact ih member
  | unclosed back mark rest quote unclosed =>
      simp [code_unclosed _ _ _ _ quote unclosed] at member

/-- The bytes of a word are read one by one, and no parenthesis is among them. -/
theorem code_identifiers {written : Text} (after : Text)
    (identifiers : ∀ byte ∈ written, byte.isIdentifier = true) (back : Text)
    (offset depth : Nat) :
    ∃ places, (∀ place ∈ places, place.offset < offset + written.length) ∧
      code ⟨back, written ++ after, offset, depth⟩ =
        places ++ code ⟨written.reverse ++ back, after, offset + written.length, depth⟩ := by
  induction written generalizing back offset with
  | nil => exact ⟨[], by simp, by simp⟩
  | cons byte written ih =>
      rw [List.forall_mem_cons] at identifiers
      obtain ⟨places, before, split⟩ := ih identifiers.2 (byte :: back) (offset + 1)
      have same_depth : depthAfter byte depth = depth := by
        simp [depthAfter, Byte.depthless_of_isIdentifier byte identifiers.1]
      refine ⟨⟨back, byte :: (written ++ after), offset, depth⟩ :: places, ?_, ?_⟩
      · rw [List.forall_mem_cons]
        refine ⟨by simp, fun place member => ?_⟩
        have bound := before place member
        rw [List.length_cons]
        omega
      · rw [List.cons_append, code_cons _ _ _ _ (Byte.isQuote_of_isIdentifier byte identifiers.1),
          same_depth, split]
        simp [Nat.add_assoc, Nat.add_comm 1]

/-- The reading of a text may be taken up at an offset as if no parenthesis were open there. -/
def Resumes (text : Text) (offset : Nat) : Prop :=
  (atOffset text offset).code =
    (start text).code.filter fun place => decide (offset ≤ place.offset)

theorem resumes_of_append {text : Text} {offset : Nat} {earlier : List Site}
    (split : (start text).code = earlier ++ (atOffset text offset).code)
    (before : ∀ place ∈ earlier, place.offset < offset) : Resumes text offset := by
  rw [Resumes, split, List.filter_append, List.filter_eq_nil_iff.mpr, List.nil_append,
    List.filter_eq_self.mpr]
  · exact fun place member => decide_eq_true (le_offset_of_mem_code member)
  · intro place member
    simpa using before place member

/-- The reading may be taken up at any place outside literals and parentheses and after a
word that begins there. -/
theorem resumes_of_mem_code {text written after : Text} {site : Site}
    (member : site ∈ (start text).code) (depth_eq : site.depth = 0)
    (rest_eq : site.rest = written ++ after)
    (identifiers : ∀ byte ∈ written, byte.isIdentifier = true) :
    Resumes text (site.offset + written.length) := by
  obtain ⟨earlier, split, earlier_before⟩ := exists_code_append member
  obtain ⟨back_eq, rest_drop⟩ := of_mem_tour_start (List.mem_filter.mp member).1
  obtain ⟨places, before, word_split⟩ :=
    code_identifiers after identifiers site.back site.offset site.depth
  have site_eq : site = ⟨site.back, written ++ after, site.offset, site.depth⟩ := by
    rw [← rest_eq]
  have here : (atOffset text (site.offset + written.length)) =
      ⟨written.reverse ++ site.back, after, site.offset + written.length, site.depth⟩ := by
    have after_eq : after = text.drop (site.offset + written.length) := by
      rw [← List.drop_drop, ← rest_drop, rest_eq, List.drop_left]
    have written_eq : written = (text.drop site.offset).take written.length := by
      rw [← rest_drop, rest_eq, List.take_left]
    rw [atOffset, depth_eq, after_eq, List.take_add, List.reverse_append, ← back_eq, ← written_eq]
  rw [site_eq, word_split, ← here, ← List.append_assoc] at split
  refine resumes_of_append split fun place place_mem => ?_
  rcases List.mem_append.mp place_mem with place_mem | place_mem
  · have bound := earlier_before place place_mem
    omega
  · exact before place place_mem

end Site

end TenantScope
