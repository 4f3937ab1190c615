import TenantScope.Proofs.Comments
import TenantScope.Proofs.Respacing

/-!
# The normal form of a received statement

Comments and tags are taken out of a statement as white space is, so nothing around one of them runs
together into a comment, a word or a literal.  What remains is put in normal form.
-/

namespace TenantScope

open Text Site Literal

/-! ## Markup -/

namespace Markup

/-- A run of bytes that is searched through ends what has been searched. -/
theorem exists_of_through? {wanted text : Text} {length : Nat}
    (found : through? wanted text = some length) :
    ∃ front after, text = front ++ wanted ++ after ∧ length = (front ++ wanted).length := by
  induction text generalizing length with
  | nil =>
      rw [through?] at found
      split at found
      · rename_i empty
        obtain rfl : wanted = [] := List.isEmpty_iff.mp empty
        obtain rfl : 0 = length := by simpa using found
        exact ⟨[], [], rfl, rfl⟩
      · simp at found
  | cons byte rest ih =>
      rw [through?] at found
      split at found
      · rename_i begins
        obtain rfl : wanted.length = length := by simpa using found
        obtain ⟨after, split⟩ := List.isPrefixOf_iff_prefix.mp begins
        exact ⟨[], after, by simp [split], by simp⟩
      · obtain ⟨inner, inner_found, rfl⟩ := Option.map_eq_some_iff.mp found
        obtain ⟨front, after, split, inner_eq⟩ := ih inner_found
        exact ⟨byte :: front, after, by simp [split], by simp [inner_eq]⟩

/-- A tag ends in an angle bracket. -/
theorem exists_of_length? {state : TagState} {text : Text} {length : Nat}
    (found : state.length? text = some length) :
    ∃ front after, text = front ++ Byte.greaterThan :: after ∧ length = front.length + 1 := by
  induction text generalizing state length with
  | nil => simp [TagState.length?] at found
  | cons byte rest ih =>
      rw [TagState.length?] at found
      split at found
      · rename_i ends
        obtain rfl : 1 = length := by simpa using found
        obtain rfl : byte = Byte.greaterThan := by simp_all
        exact ⟨[], rest, rfl, rfl⟩
      · split at found
        · simp at found
        · obtain ⟨inner, inner_found, rfl⟩ := Option.map_eq_some_iff.mp found
          obtain ⟨front, after, split, rfl⟩ := ih inner_found
          exact ⟨byte :: front, after, by simp [split], rfl⟩

/-- A piece of markup before the text `rest`, which ends in a byte outside words and literals unless
the line or the text ends there. -/
structure Piece (markup rest : Text) : Prop where
  nonempty : markup ≠ []
  ends : (∃ front last, markup = front ++ [last] ∧ last.isIdentifier = false ∧
      last.isQuote = false) ∨ rest = [] ∨ rest.head? = some Byte.lineFeed

theorem exists_piece_of_comment? {text : Text} {length : Nat}
    (found : comment? text = some length) :
    ∃ markup rest, text = markup ++ rest ∧ markup.length = length ∧ Piece markup rest := by
  rw [comment?] at found
  split at found
  · rename_i line
    obtain rfl : (text.takeWhile (· != Byte.lineFeed)).length = length := by simpa using found
    obtain ⟨after, rfl⟩ := List.isPrefixOf_iff_prefix.mp line
    refine ⟨_, _, (List.takeWhile_append_dropWhile (p := (· != Byte.lineFeed))).symm, rfl, ?_, ?_⟩
    · exact List.cons_ne_nil _ _
    · refine .inr ?_
      have stops := List.head?_dropWhile_not (· != Byte.lineFeed) (ascii "--" ++ after)
      cases dropped : (ascii "--" ++ after).dropWhile (· != Byte.lineFeed) with
      | nil => exact .inl rfl
      | cons byte rest => simpa [dropped] using stops
  · split at found
    · rename_i block
      obtain ⟨after, rfl⟩ := List.isPrefixOf_iff_prefix.mp block
      split at found
      · rename_i inner closed
        obtain ⟨front, rest, split, inner_eq⟩ := exists_of_through? closed
        obtain rfl : inner + 2 = length := by simpa using found
        have after_eq : after = front ++ ascii "*/" ++ rest := split
        refine ⟨ascii "/*" ++ (front ++ ascii "*/"), rest, by simp [after_eq],
          by simp [inner_eq, ascii], List.cons_ne_nil _ _, .inl ?_⟩
        exact ⟨ascii "/*" ++ (front ++ [Byte.asterisk]), Byte.slash,
          by simp [show ascii "*/" = [Byte.asterisk, Byte.slash] by decide], by decide, by decide⟩
      · obtain rfl := Option.some.inj found
        exact ⟨_, [], (List.append_nil _).symm, rfl, List.cons_ne_nil _ _, .inr (.inl rfl)⟩
    · simp at found

/-- A tag has something between its angle brackets. -/
theorem exists_of_tag? {text : Text} {length : Nat} (found : tag? text = some length) :
    ∃ byte inside rest, inside ≠ [] ∧ text = (byte :: (inside ++ [Byte.greaterThan])) ++ rest ∧
      length = (byte :: (inside ++ [Byte.greaterThan])).length := by
  cases text with
  | nil => simp [tag?] at found
  | cons byte text =>
      rw [tag?] at found
      split at found
      · obtain ⟨inner, inner_found, rfl⟩ := Option.map_eq_some_iff.mp found
        obtain ⟨inside, rest, rfl, rfl⟩ := exists_of_length? inner_found
        refine ⟨byte, inside, rest, ?_, by simp, by simp⟩
        rintro rfl
        have stuck : TagState.opened.step? Byte.greaterThan = none := by decide
        simp [TagState.length?, TagState.mayEnd, stuck] at inner_found
      · simp at found

theorem exists_piece_of_tag? {text : Text} {length : Nat} (found : tag? text = some length) :
    ∃ markup rest, text = markup ++ rest ∧ markup.length = length ∧ Piece markup rest := by
  obtain ⟨byte, inside, rest, -, text_eq, length_eq⟩ := exists_of_tag? found
  exact ⟨_, rest, text_eq, length_eq.symm, List.cons_ne_nil _ _,
    .inl ⟨byte :: inside, Byte.greaterThan, rfl, by decide, by decide⟩⟩

theorem exists_piece {site : Site} {length : Nat} (found : NormalForm.markup? site = some length) :
    ∃ markup rest, site.rest = markup ++ rest ∧ markup.length = length ∧ Piece markup rest := by
  rw [NormalForm.markup?, Option.or_eq_some_iff] at found
  rcases found with comment | ⟨-, tag⟩
  · exact exists_piece_of_comment? comment
  · exact exists_piece_of_tag? tag

/-- Markup begins with a byte that marks comments or with an angle bracket. -/
theorem markup?_of_plain {byte : Byte} (apart : byte.marksComment = false)
    (no_tag : byte ≠ Byte.lessThan) (back rest : Text) (offset depth : Nat) :
    NormalForm.markup? ⟨back, byte :: rest, offset, depth⟩ = none := by
  simp [NormalForm.markup?, comment?_cons_of_plain apart rest, tag?, no_tag]

theorem markup?_of_isIdentifier {byte : Byte} (identifier : byte.isIdentifier = true)
    (back rest : Text) (offset depth : Nat) :
    NormalForm.markup? ⟨back, byte :: rest, offset, depth⟩ = none := by
  refine markup?_of_plain
    (Byte.marksComment_of_isIdentifier byte identifier) ?_ back rest offset depth
  rintro rfl
  exact absurd identifier (by decide)

end Markup

namespace NormalForm

/-! ## What stays of a text -/

/-- What stays of the units of a text once its markup is taken out. -/
def plainFragments (site : Site) : List Fragment :=
  (site.tour plainWidth).map plainFragment

/-- The units of a text after the first one are those of the rest. -/
theorem exists_plainFragments {back unit rest : Text} (unit_ne : unit ≠ []) {offset depth : Nat}
    (width_eq : plainWidth ⟨back, unit ++ rest, offset, depth⟩ = unit.length) :
    ∃ inner, plainFragments ⟨back, unit ++ rest, offset, depth⟩ =
      plainFragment ⟨back, unit ++ rest, offset, depth⟩ ::
        plainFragments ⟨unit.reverse ++ back, rest, offset + unit.length, inner⟩ := by
  obtain ⟨byte, unit, rfl⟩ := List.exists_cons_of_ne_nil unit_ne
  refine ⟨depthAfter byte depth, ?_⟩
  simp only [plainFragments, tour, List.cons_append, walk, List.map_cons, List.cons.injEq, true_and]
  rw [← List.cons_append, width_eq, walk_skip]
  simp [Nat.add_assoc, Nat.add_comm 1]

section Units

variable (offset depth : Nat)

theorem plainFragments_byte (back rest : Text) {byte : Byte} (quote : byte.isQuote = false)
    (plain : markup? ⟨back, byte :: rest, offset, depth⟩ = none) :
    ∃ inner, plainFragments ⟨back, byte :: rest, offset, depth⟩ =
      .ofByte byte :: plainFragments ⟨byte :: back, rest, offset + 1, inner⟩ := by
  have width_eq : plainWidth ⟨back, [byte] ++ rest, offset, depth⟩ = [byte].length := by
    simp [plainWidth, atQuote, byte?, quote, plain]
  obtain ⟨inner, split⟩ := exists_plainFragments (List.cons_ne_nil byte []) width_eq
  refine ⟨inner, split.trans ?_⟩
  simp [plainFragment, atQuote, byte?, quote, plain]

theorem plainFragments_word {written : Text} (back rest : Text)
    (identifiers : ∀ byte ∈ written, byte.isIdentifier = true) :
    ∃ inner, plainFragments ⟨back, written ++ rest, offset, depth⟩ =
      written.map (fun byte => .kept [byte]) ++
        plainFragments ⟨written.reverse ++ back, rest, offset + written.length, inner⟩ := by
  induction written generalizing back offset depth with
  | nil => exact ⟨depth, rfl⟩
  | cons byte written ih =>
      have identifier := identifiers byte (by simp)
      obtain ⟨inner, first⟩ := plainFragments_byte offset depth back (written ++ rest)
        (Byte.isQuote_of_isIdentifier byte identifier)
        (Markup.markup?_of_isIdentifier identifier back _ offset depth)
      obtain ⟨last, others⟩ := ih (offset + 1) inner (byte :: back)
        fun other member => identifiers other (by simp [member])
      refine ⟨last, ?_⟩
      rw [List.cons_append, first, others]
      simp [Fragment.ofByte, Byte.isSpace_of_isIdentifier byte identifier, Nat.add_assoc,
        Nat.add_comm 1]

theorem plainFragments_literal (back literal rest : Text) {mark : Byte}
    (quote : mark.isQuote = true)
    (closed : closing? mark (escapesAfter .standard back mark) (literal ++ rest) =
      some literal.length) :
    ∃ inner, plainFragments ⟨back, mark :: (literal ++ rest), offset, depth⟩ =
      .kept (mark :: literal) ::
        plainFragments ⟨literal.reverse ++ mark :: back, rest, offset + (literal.length + 1),
          inner⟩ := by
  have literal_width :
      Literal.width .standard ⟨back, (mark :: literal) ++ rest, offset, depth⟩ =
        (mark :: literal).length := by
    simp [width_cons, closed]
  have width_eq : plainWidth ⟨back, (mark :: literal) ++ rest, offset, depth⟩ =
      (mark :: literal).length := by
    simp only [plainWidth, literal_width]
    simp [atQuote, byte?, quote]
  obtain ⟨inner, split⟩ := exists_plainFragments (List.cons_ne_nil mark literal) width_eq
  refine ⟨inner, split.trans ?_⟩
  simp only [plainFragment, literal_width]
  simp [atQuote, byte?, quote]

theorem plainFragments_unclosed (back rest : Text) {mark : Byte} (quote : mark.isQuote = true)
    (unclosed : closing? mark (escapesAfter .standard back mark) rest = none) :
    plainFragments ⟨back, mark :: rest, offset, depth⟩ = [.kept (mark :: rest)] := by
  have literal_width : Literal.width .standard ⟨back, (mark :: rest) ++ [], offset, depth⟩ =
      (mark :: rest).length := by
    simp [width_cons, unclosed]
  have width_eq : plainWidth ⟨back, (mark :: rest) ++ [], offset, depth⟩ =
      (mark :: rest).length := by
    simp only [plainWidth, literal_width]
    simp [atQuote, byte?, quote]
  obtain ⟨inner, split⟩ := exists_plainFragments (List.cons_ne_nil mark rest) width_eq
  rw [List.append_nil] at split
  rw [split]
  simp only [List.append_nil] at literal_width
  simp only [plainFragment, literal_width]
  simp [atQuote, byte?, quote, plainFragments, tour, walk]

theorem plainFragments_markup {back rest markup : Text} {byte : Byte} (quote : byte.isQuote = false)
    (found : markup? ⟨back, (byte :: markup) ++ rest, offset, depth⟩ = some (markup.length + 1)) :
    ∃ inner, plainFragments ⟨back, (byte :: markup) ++ rest, offset, depth⟩ =
      .gap :: plainFragments ⟨(byte :: markup).reverse ++ back, rest,
        offset + (byte :: markup).length, inner⟩ := by
  have width_eq : plainWidth ⟨back, (byte :: markup) ++ rest, offset, depth⟩ =
      (byte :: markup).length := by
    simp only [plainWidth, found]
    simp [atQuote, byte?, quote]
  obtain ⟨inner, split⟩ := exists_plainFragments (List.cons_ne_nil byte markup) width_eq
  refine ⟨inner, split.trans ?_⟩
  simp only [plainFragment, found]
  simp [atQuote, byte?, quote]

end Units

end NormalForm

namespace Token

/-! ## Comments -/

/-- No comment begins with the token and the one before it. -/
def Quiet (previous : Option Token) (token : Token) : Prop :=
  ¬ (previous = some (byte Byte.hyphen) ∧ token = byte Byte.hyphen) ∧
    ¬ (previous = some (byte Byte.slash) ∧ token = byte Byte.asterisk)

/-- What marks no comments has no part in one. -/
theorem quiet_of_plain (previous : Option Token) {plain : Byte}
    (apart : plain.marksComment = false) :
    Quiet previous (byte plain) := by
  constructor <;> rintro ⟨-, same⟩ <;> cases same <;> exact absurd apart (by decide)

theorem quiet_after_plain {plain : Byte} (apart : plain.marksComment = false) (token : Token) :
    Quiet (some (byte plain)) token := by
  constructor <;> rintro ⟨same, -⟩ <;> cases same <;> exact absurd apart (by decide)

theorem quiet_of_not_byte {previous : Option Token} {token : Token}
    (other : ∀ plain, token ≠ byte plain) : Quiet previous token :=
  ⟨fun both => other _ both.2, fun both => other _ both.2⟩

theorem quiet_after_not_byte {previous : Option Token}
    (other : ∀ plain, previous ≠ some (byte plain)) (token : Token) : Quiet previous token :=
  ⟨fun both => other _ both.1, fun both => other _ both.1⟩

theorem spaceable_quiet : Spaceable Quiet where
  blank _ := quiet_of_plain _ (by decide)
  after_gap _ _ := ⟨quiet_after_plain (by decide) _, quiet_after_not_byte (by simp) _⟩
  semicolon _ := quiet_of_plain _ (by decide)
  trimmed _ := quiet_of_not_byte (by simp)

/-- A comment begins with a byte exactly when one begins with its token and the next one. -/
theorem comment?_eq_none_iff_quiet (plain next : Byte) (rest : Text) :
    Markup.comment? (plain :: next :: rest) = none ↔ Quiet (some (byte plain)) (byte next) := by
  rw [comment?_eq_none_iff, show ascii "--" = [Byte.hyphen, Byte.hyphen] by decide,
    show ascii "/*" = [Byte.slash, Byte.asterisk] by decide]
  simp [Quiet, eq_comm]

/-- After a byte a comment can only begin with another byte outside words and literals. -/
theorem comment?_spell {plain : Byte} {tokens : List Token}
    (lexed : Lexed (some (byte plain)) tokens) (quiet : Linked Quiet (some (byte plain)) tokens) :
    Markup.comment? (plain :: spell tokens) = none := by
  cases tokens with
  | nil =>
      rw [comment?_eq_none_iff, show ascii "--" = [Byte.hyphen, Byte.hyphen] by decide,
        show ascii "/*" = [Byte.slash, Byte.asterisk] by decide]
      simp
  | cons token tokens =>
      obtain ⟨⟨-, follows⟩, -⟩ := lexed
      cases token with
      | byte next => exact (comment?_eq_none_iff_quiet plain next _).mpr quiet.1
      | word written =>
          obtain ⟨letter, written, rfl⟩ := List.exists_cons_of_ne_nil follows.1.nonempty
          have identifier := follows.1.identifiers letter (by simp)
          exact (comment?_eq_none_iff_quiet plain letter _).mpr
            (quiet_of_plain _ (Byte.marksComment_of_isIdentifier letter identifier))
      | literal mark content =>
          exact (comment?_eq_none_iff_quiet plain mark _).mpr
            (quiet_of_plain _ (Byte.marksComment_of_isQuote mark follows.1))
      | remnant mark content =>
          exact (comment?_eq_none_iff_quiet plain mark _).mpr
            (quiet_of_plain _ (Byte.marksComment_of_isQuote mark follows.1))

/-- Tokens among which no comment begins spell a text without comments. -/
theorem uncommented_spell {back : Text} {previous : Option Token} {tokens : List Token}
    (after : After back previous) (lexed : Lexed previous tokens)
    (quiet : Linked Quiet previous tokens) (offset depth : Nat) :
    Uncommented ⟨back, spell tokens, offset, depth⟩ := by
  induction tokens generalizing back previous offset depth with
  | nil => exact uncommented_nil _ _ _
  | cons token tokens ih =>
      have following := lexed
      obtain ⟨⟨-, follows⟩, lexed⟩ := lexed
      obtain ⟨-, quiet⟩ := quiet
      rw [spell_cons]
      cases token with
      | word written =>
          obtain ⟨places, read, words⟩ :=
            exists_code_word follows.1 back (spell tokens) offset depth
          rw [Uncommented, bytes, read, List.forall_mem_append]
          refine ⟨fun place member => ?_, ih (after.of_word follows.1 follows.2) lexed quiet _ _⟩
          obtain ⟨front, rest, offset, depth⟩ := place
          cases rest with
          | nil => rfl
          | cons letter rest =>
              have identifier : letter.isIdentifier = true := by
                simpa [byte?] using words _ member
              exact comment?_cons_of_plain
                (Byte.marksComment_of_isIdentifier letter identifier) rest
      | byte plain =>
          rw [bytes, List.singleton_append, uncommented_cons _ _ _ _ follows.2]
          exact ⟨comment?_spell lexed quiet,
            ih (After.of_plain back follows.1 (.byte plain) rfl) lexed quiet _ _⟩
      | literal mark content =>
          rw [bytes, List.cons_append, uncommented_literal _ _ _ _ _ follows.1
            (after.closing?_spell following)]
          exact ih (After.of_literal back follows.1 follows.2.2) lexed quiet _ _
      | remnant mark content =>
          obtain rfl := eq_nil_of_remnant following
          rw [spell_nil, List.append_nil, bytes]
          exact uncommented_unclosed _ _ _ _ follows.1 (after.closing?_remnant following)

/-! ## Tokens of a text without its markup -/

/-- A text may be read after the token. -/
structure Ready (previous : Option Token) (text : Text) : Prop where
  unfinished : previous.any isRemnant = false
  word : previous.any isWord = true → text.head?.any Byte.isIdentifier = false
  mark : ∀ mark, previous.any (isMarked mark) = true → text.head? ≠ some mark
  quiet : ∀ byte, text.head? = some byte → Quiet previous (.byte byte)

/-- What stays of a text after the bytes `back` once its markup is taken out is spelled by tokens
among which no comment begins. -/
def Plain (back : Text) (previous : Option Token) (text : Text) : Prop :=
  ∃ tokens, Lexed previous tokens ∧ Linked Quiet previous tokens ∧ ∀ offset depth,
    NormalForm.plainFragments ⟨back, text, offset, depth⟩ = tokens.flatMap fragments

section Plain

variable {back rest : Text} {previous : Option Token} (after : After back previous)

theorem plain_nil (back : Text) (previous : Option Token) : Plain back previous [] :=
  ⟨[], trivial, trivial, fun _ _ => rfl⟩

theorem plain_word {written : Text} (name : IsName written)
    (ready : Ready previous (written ++ rest))
    (plain : Plain (written.reverse ++ back) (some (.word written)) rest) :
    Plain back previous (written ++ rest) := by
  obtain ⟨tokens, lexed, quiet, fragments_eq⟩ := plain
  have begins : previous.any isWord = false := Bool.eq_false_iff.mpr fun inside => by
    obtain ⟨letter, written, rfl⟩ := List.exists_cons_of_ne_nil name.nonempty
    have identifier := name.identifiers letter (by simp)
    simpa [identifier] using ready.word inside
  refine ⟨.word written :: tokens, ⟨⟨ready.unfinished, name, begins⟩, lexed⟩,
    ⟨quiet_of_not_byte (by simp), quiet⟩, fun offset depth => ?_⟩
  obtain ⟨inner, split⟩ :=
    NormalForm.plainFragments_word offset depth back rest name.identifiers
  rw [split, fragments_eq]
  rfl

theorem plain_byte {byte : Byte} (identifier : byte.isIdentifier = false)
    (quote : byte.isQuote = false) (unmarked : NormalForm.markup? (start (byte :: rest)) = none)
    (ready : Ready previous (byte :: rest))
    (plain : Plain (byte :: back) (some (.byte byte)) rest) :
    Plain back previous (byte :: rest) := by
  obtain ⟨tokens, lexed, quiet, fragments_eq⟩ := plain
  refine ⟨.byte byte :: tokens, ⟨⟨ready.unfinished, identifier, quote⟩, lexed⟩,
    ⟨ready.quiet byte rfl, quiet⟩, fun offset depth => ?_⟩
  obtain ⟨inner, split⟩ := NormalForm.plainFragments_byte offset depth back rest quote unmarked
  rw [split, fragments_eq]
  rfl

include after

theorem plain_literal {mark : Byte} {content : Text} (quote : mark.isQuote = true)
    (closed : closing? mark (escapesAfter .standard back mark) (content ++ rest) =
      some content.length)
    (ready : Ready previous (mark :: (content ++ rest)))
    (plain : Plain (content.reverse ++ mark :: back) (some (.literal mark content)) rest) :
    Plain back previous (mark :: (content ++ rest)) := by
  obtain ⟨tokens, lexed, quiet, fragments_eq⟩ := plain
  have apart : previous.any (isMarked mark) = false :=
    Bool.eq_false_iff.mpr fun marked => ready.mark mark marked rfl
  have inside := closing?_of_append closed le_rfl
  rw [after.escapesAfter_eq] at inside
  refine ⟨.literal mark content :: tokens, ⟨⟨ready.unfinished, quote, apart, inside⟩, lexed⟩,
    ⟨quiet_of_not_byte (by simp), quiet⟩, fun offset depth => ?_⟩
  obtain ⟨inner, split⟩ :=
    NormalForm.plainFragments_literal offset depth back content rest quote closed
  rw [split, fragments_eq]
  rfl

theorem plain_unclosed {mark : Byte} (quote : mark.isQuote = true)
    (unclosed : closing? mark (escapesAfter .standard back mark) rest = none)
    (ready : Ready previous (mark :: rest)) : Plain back previous (mark :: rest) := by
  have apart : previous.any (isMarked mark) = false :=
    Bool.eq_false_iff.mpr fun marked => ready.mark mark marked rfl
  refine ⟨[.remnant mark rest], ⟨⟨ready.unfinished, quote, apart, ?_⟩, trivial⟩,
    ⟨quiet_of_not_byte (by simp), trivial⟩, fun offset depth => ?_⟩
  · rwa [← after.escapesAfter_eq]
  · exact NormalForm.plainFragments_unclosed offset depth back rest quote unclosed

end Plain

/-- Markup leaves a blank behind. -/
theorem plain_markup {back rest markup : Text} {byte : Byte} {previous : Option Token}
    (quote : byte.isQuote = false)
    (found : NormalForm.markup? (start ((byte :: markup) ++ rest)) = some (markup.length + 1))
    (unfinished : previous.any isRemnant = false)
    (plain : Plain ((byte :: markup).reverse ++ back) (some (.byte Byte.blank)) rest) :
    Plain back previous ((byte :: markup) ++ rest) := by
  obtain ⟨tokens, lexed, quiet, fragments_eq⟩ := plain
  refine ⟨.byte Byte.blank :: tokens, ⟨⟨unfinished, by decide, by decide⟩, lexed⟩,
    ⟨quiet_of_plain _ (by decide), quiet⟩, fun offset depth => ?_⟩
  obtain ⟨inner, split⟩ := NormalForm.plainFragments_markup offset depth quote found
  rw [split, fragments_eq]
  rfl

/-- After a byte that marks no comments anything may be read. -/
theorem ready_of_plain {plain : Byte} (apart : plain.marksComment = false) (text : Text) :
    Ready (some (byte plain)) text where
  unfinished := rfl
  word := by simp [isWord]
  mark := by simp [isMarked]
  quiet _ _ := quiet_after_plain apart _

theorem ready_of_markup? {plain : Byte} {rest : Text}
    (unmarked : NormalForm.markup? (start (plain :: rest)) = none) :
    Ready (some (byte plain)) rest where
  unfinished := rfl
  word := by simp [isWord]
  mark := by simp [isMarked]
  quiet := by
    intro next head_eq
    obtain ⟨others, rfl⟩ := List.head?_eq_some_iff.mp head_eq
    exact (comment?_eq_none_iff_quiet plain next others).mp (Option.or_eq_none_iff.mp unmarked).1

theorem ready_of_word (written : Text) {rest : Text}
    (ends : rest.head?.any Byte.isIdentifier = false) : Ready (some (word written)) rest where
  unfinished := rfl
  word _ := ends
  mark := by simp [isMarked]
  quiet _ _ := quiet_after_not_byte (by simp) _

theorem ready_of_literal {mark : Byte} {content rest : Text} {escapes : Bool}
    (closed : closing? mark escapes (content ++ rest) = some content.length) :
    Ready (some (literal mark content)) rest where
  unfinished := rfl
  word := by simp [isWord]
  mark := by
    intro other marked
    obtain rfl : mark = other := by simpa [isMarked] using marked
    simpa using head?_drop_of_closing? closed
  quiet _ _ := quiet_after_not_byte (by simp) _

/-- After a piece of markup the reading goes on as after a blank. -/
theorem plain_after_piece {markup rest : Text} (piece : Markup.Piece markup rest) (back : Text)
    (reading : ∀ back previous text, text.length ≤ rest.length → After back previous →
      Ready previous text → Plain back previous text) :
    Plain (markup.reverse ++ back) (some (.byte Byte.blank)) rest := by
  rcases piece.ends with ⟨front, last, rfl, identifier, -⟩ | rfl | line
  · refine reading _ _ rest le_rfl ?_ (ready_of_plain (by decide) rest)
    rw [List.reverse_append]
    exact After.of_plain _ identifier (.byte Byte.blank) rfl
  · exact plain_nil _ _
  · -- A comment up to the end of its line may end in a word, but the line feed is next.
    cases rest with
    | nil => exact plain_nil _ _
    | cons byte rest =>
        obtain rfl : byte = Byte.lineFeed := by simpa using line
        refine plain_byte (by decide) (by decide)
          (Markup.markup?_of_plain (by decide) (by decide) _ _ _ _)
          (ready_of_plain (by decide) _) ?_
        exact reading _ _ rest (by simp) (After.of_plain _ (by decide) (.byte Byte.lineFeed) rfl)
          (ready_of_plain (by decide) rest)

/-- What stays of every text once its markup is taken out is spelled by tokens among which no
comment begins. -/
theorem plain_of_after (back text : Text) (previous : Option Token) (after : After back previous)
    (ready : Ready previous text) : Plain back previous text := by
  induction size : text.length using Nat.strongRecOn generalizing back text previous with
  | _ size ih =>
      subst size
      cases text with
      | nil => exact plain_nil back previous
      | cons byte rest =>
          cases quote : byte.isQuote with
          | true =>
              cases closed : closing? byte (escapesAfter .standard back byte) rest with
              | none => exact plain_unclosed after quote closed ready
              | some length =>
                  obtain ⟨content, others, rfl, content_closed⟩ := exists_of_closing? closed
                  exact plain_literal after quote content_closed ready
                    (ih _ (by simp only [List.length_cons, List.length_append]; omega) _ _ _
                      (After.of_literal back quote (closing?_of_append content_closed le_rfl))
                      (ready_of_literal content_closed) rfl)
          | false =>
              cases markup : NormalForm.markup? (start (byte :: rest)) with
              | some length =>
                  obtain ⟨piece, others, split, length_eq, is_piece⟩ := Markup.exists_piece markup
                  obtain ⟨first, piece, rfl⟩ := List.exists_cons_of_ne_nil is_piece.nonempty
                  have split : byte :: rest = (first :: piece) ++ others := split
                  obtain ⟨rfl, rest_eq⟩ := List.cons.inj split
                  rw [split] at markup ⊢
                  refine plain_markup quote (by rw [markup, ← length_eq]; rfl) ready.unfinished
                    (plain_after_piece is_piece back fun back previous text bound after ready =>
                      ih _ ?_ back text previous after ready rfl)
                  rw [split, List.length_append, List.length_cons]
                  omega
              | none =>
                  cases identifier : byte.isIdentifier with
                  | true =>
                      obtain ⟨written, others, split, name, ends⟩ :=
                        exists_leading_word identifier rest
                      have shorter : others.length < (byte :: rest).length := by
                        have positive := List.length_pos_iff.mpr name.nonempty
                        rw [split, List.length_append]
                        omega
                      have begins : previous.any isWord = false :=
                        Bool.eq_false_iff.mpr fun inside => by
                        simpa [identifier] using ready.word inside
                      rw [split] at ready ⊢
                      exact plain_word name ready (ih _ shorter _ _ _ (after.of_word name begins)
                        (ready_of_word _ ends) rfl)
                  | false =>
                      exact plain_byte identifier quote markup ready (ih rest.length (by simp) _ _ _
                        (After.of_plain back identifier (.byte byte) rfl)
                        (ready_of_markup? markup) rfl)

end Token

/-! ## Received statements -/

/-- The normal form of a statement: it ends in one semicolon, and outside its literals it has no
comments and no white space but single blanks after visible bytes. -/
structure InNormalForm (text : Text) : Prop where
  ending : ∃ body last, text = body ++ [last, Byte.semicolon] ∧ last ≠ Byte.semicolon ∧
    last.isSpace = false
  uncommented : ∀ site ∈ (start text).code, ¬ ascii "--" <+: site.rest ∧ ¬ ascii "/*" <+: site.rest
  spaced : ∀ site ∈ (start text).code, ∀ byte, site.byte? = some byte → byte.isSpace = true →
    byte = Byte.blank ∧ ∃ previous, site.previous? = some previous ∧ previous.isSpace = false
  fixed : text.normalize = text

theorem exists_ending_of_terminate {text : Text} (visible : NormalForm.terminate text ≠ []) :
    ∃ body last, NormalForm.terminate text = body ++ [last, Byte.semicolon] ∧
      last ≠ Byte.semicolon ∧ last.isSpace = false := by
  rw [Token.terminate_eq] at visible ⊢
  split at visible
  · exact absurd rfl visible
  · rename_i kept
    obtain ⟨body, last, body_eq⟩ := (List.eq_nil_or_concat _).resolve_left kept
    have dropped : text.reverse.dropWhile Token.trails = last :: body.reverse := by
      simpa [dropRightWhile] using congrArg List.reverse body_eq
    have stops := List.head?_dropWhile_not Token.trails text.reverse
    rw [dropped] at stops
    refine ⟨body, last, ?_, ?_⟩
    · rw [if_neg kept, body_eq]
      simp
    · simpa [Token.trails] using stops

open Token in
/-- White space in spaced tokens is one blank after a visible byte. -/
theorem spaced_spell {back : Text} {previous : Option Token} {tokens : List Token}
    (after : After back previous) (lexed : Lexed previous tokens) :
    ∀ may, Spaced may tokens → (may = true → back.head?.any (!·.isSpace) = true) →
      ∀ offset depth, ∀ site ∈ code ⟨back, spell tokens, offset, depth⟩, ∀ byte,
        site.byte? = some byte → byte.isSpace = true →
          byte = Byte.blank ∧ site.previous?.any (!·.isSpace) = true := by
  refine token_induction ?nil ?word ?byte ?literal ?remnant after lexed
  case nil =>
    intro back may _ _ offset depth
    simp [code_nil]
  case word =>
    intro back written tokens name begins ends ih may spaced visible offset depth
    obtain ⟨places, read, words⟩ := exists_code_word name back (spell tokens) offset depth
    have last_visible : (written.reverse ++ back).head?.any (!·.isSpace) = true := by
      obtain ⟨front, last, rfl⟩ := (List.eq_nil_or_concat written).resolve_left name.nonempty
      have identifier := name.identifiers last (by simp)
      simp [Byte.isSpace_of_isIdentifier last identifier]
    rw [spell_cons, bytes, read, List.forall_mem_append]
    refine ⟨fun place member byte byte_eq space => ?_,
      ih true ((spaced_of_visible rfl _).mp spaced) (fun _ => last_visible) _ _⟩
    have identifier := words place member
    rw [byte_eq] at identifier
    simp [Byte.isIdentifier_of_isSpace byte space] at identifier
  case byte =>
    intro back plain tokens identifier quote ih may spaced visible offset depth
    rw [spell_cons, bytes, List.singleton_append, code_cons _ _ _ _ quote, List.forall_mem_cons]
    cases gap : (Token.byte plain).isGap with
    | true =>
        rw [Spaced, if_pos gap] at spaced
        obtain ⟨may_come, same, spaced⟩ := spaced
        refine ⟨fun byte byte_eq _ => ?_, ih false spaced (by simp) _ _⟩
        obtain rfl : plain = byte := by simpa [byte?] using byte_eq
        exact ⟨by simpa using same, visible may_come⟩
    | false =>
        refine ⟨fun byte byte_eq space => ?_,
          ih true ((spaced_of_visible gap _).mp spaced) (fun _ => ?_) _ _⟩
        · obtain rfl : plain = byte := by simpa [byte?] using byte_eq
          exact absurd gap (by simp [isGap, space])
        · simpa [isGap] using gap
  case literal =>
    intro back mark content tokens quote closed ih may spaced visible offset depth
    have last := getLast?_take_of_closing? closed
    rw [List.take_left] at last
    have last_visible : (content.reverse ++ mark :: back).head?.any (!·.isSpace) = true := by
      rw [List.head?_append, List.head?_reverse, last]
      simp [Byte.isSpace_of_isQuote mark quote]
    rw [spell_cons, bytes, List.cons_append, code_literal _ _ _ _ _ quote closed]
    exact ih true ((spaced_of_visible rfl _).mp spaced) (fun _ => last_visible) _ _
  case remnant =>
    intro back mark content quote unclosed may _ _ offset depth
    rw [spell_cons, bytes, spell_nil, List.append_nil, code_unclosed _ _ _ _ quote unclosed]
    simp

open Token in
/-- What is left of a text without its markup is the normal form of tokens among
which no comment begins. -/
theorem exists_normalizePlain (text : Text) :
    ∃ tokens, Lexed none tokens ∧ Linked Quiet none tokens ∧
      NormalForm.plainFragments (start text) = tokens.flatMap fragments ∧
      text.normalizePlain = (spell tokens).normalize := by
  have ready : Ready none text :=
    ⟨rfl, by simp, by simp, fun _ _ => quiet_after_not_byte (by simp) _⟩
  obtain ⟨tokens, lexed, quiet, fragments_eq⟩ := plain_of_after [] _ none After.nil ready
  refine ⟨tokens, lexed, quiet, fragments_eq 0 0, ?_⟩
  rw [normalize_eq_terminate lexed, ← join_fragments lexed, ← fragments_eq 0 0]
  rfl

open Token in
/-- What is left of a received statement is the normal form of tokens among which no comment
begins. -/
theorem exists_sanitize (received : Text) :
    ∃ tokens, Lexed none tokens ∧ Linked Quiet none tokens ∧
      received.sanitize = (spell tokens).normalize := by
  obtain ⟨tokens, lexed, quiet, -, normalize_eq⟩ := exists_normalizePlain (Markup.unfence received)
  exact ⟨tokens, lexed, quiet, normalize_eq⟩

open Token in
/-- A received statement of which anything is left is sanitized to its normal form, which stays as
it is when it is put in normal form again. -/
theorem sanitize_inNormalForm (received : Text) :
    received.sanitize = [] ∨ InNormalForm received.sanitize := by
  obtain ⟨tokens, lexed, quiet, sanitize_eq⟩ := exists_sanitize received
  by_cases empty : received.sanitize = []
  · exact .inl empty
  · refine .inr ⟨exists_ending_of_terminate empty, ?_, ?_, ?_⟩
    · intro site member
      rw [sanitize_eq, normalize_spell lexed] at member
      rw [← comment?_eq_none_iff]
      exact uncommented_spell After.nil (lexed_normal lexed)
        (linked_normal spaceable_quiet quiet) 0 0
        site member
    · intro site member byte byte_eq space
      rw [sanitize_eq, normalize_spell lexed] at member empty
      have spaced := (spaced_normal tokens).resolve_left fun nothing => empty (by rw [nothing]; rfl)
      obtain ⟨blank, visible⟩ := spaced_spell After.nil (lexed_normal lexed) false spaced (by simp)
        0 0 site member byte byte_eq space
      obtain ⟨last, last_eq, last_visible⟩ := (Option.any_eq_true _ _).mp visible
      exact ⟨blank, last, last_eq, by simpa using last_visible⟩
    · rw [sanitize_eq, normalize_normalize]

end TenantScope
