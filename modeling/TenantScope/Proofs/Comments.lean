import TenantScope.Markup
import TenantScope.Proofs.Lexemes

/-!
# Comments between literals

A reading of a statement that skips its comments takes a whole comment for one unit.  It is the
reading by literals and single bytes as long as it meets no comment, and then a text has no comments
exactly when its parts have none.
-/

namespace TenantScope

namespace Site

open Literal

/-- Width of the unit at a place when comments are skipped: a literal, a comment or one byte. -/
def unitWidth (site : Site) : Nat :=
  if site.atQuote then Literal.width .standard site else (Markup.comment? site.rest).getD 1

/-- The units of a text, its literals, comments and the single bytes between them. -/
def units (site : Site) : List Site :=
  site.tour unitWidth

/-- No comment begins from the place on outside literals. -/
def Uncommented (site : Site) : Prop :=
  ∀ place ∈ site.code, Markup.comment? place.rest = none

instance (site : Site) : Decidable (Uncommented site) :=
  inferInstanceAs (Decidable (∀ _ ∈ _, _))

section Equations

variable (offset depth : Nat)

theorem uncommented_nil (back : Text) : Uncommented ⟨back, [], offset, depth⟩ := by
  simp [Uncommented, code_nil]

theorem uncommented_cons (back rest : Text) {byte : Byte} (plain : byte.isQuote = false) :
    Uncommented ⟨back, byte :: rest, offset, depth⟩ ↔
      Markup.comment? (byte :: rest) = none ∧
        Uncommented ⟨byte :: back, rest, offset + 1, depthAfter byte depth⟩ := by
  simp [Uncommented, code_cons _ _ _ _ plain]

theorem uncommented_literal (back literal rest : Text) {mark : Byte} (quote : mark.isQuote = true)
    (closed : closing? mark (escapesAfter .standard back mark) (literal ++ rest) =
      some literal.length) :
    Uncommented ⟨back, mark :: (literal ++ rest), offset, depth⟩ ↔
      Uncommented ⟨literal.reverse ++ mark :: back, rest, offset + (literal.length + 1),
        depth⟩ := by
  rw [Uncommented, code_literal _ _ _ _ _ quote closed, Uncommented]

theorem uncommented_unclosed (back rest : Text) {mark : Byte} (quote : mark.isQuote = true)
    (unclosed : closing? mark (escapesAfter .standard back mark) rest = none) :
    Uncommented ⟨back, mark :: rest, offset, depth⟩ := by
  simp [Uncommented, code_unclosed _ _ _ _ quote unclosed]

end Equations

/-- What is said of the text after each place outside literals does not depend on parentheses. -/
theorem forall_code_depth {kind : Text → Prop} {back text : Text}
    (offset depth offset' depth' : Nat) :
    (∀ place ∈ code ⟨back, text, offset, depth⟩, kind place.rest) ↔
      ∀ place ∈ code ⟨back, text, offset', depth'⟩, kind place.rest := by
  induction back, text using lexeme_induction .standard
      generalizing offset depth offset' depth' with
  | nil back => simp [code_nil]
  | code back byte rest plain ih =>
      rw [code_cons _ _ _ _ plain, code_cons _ _ _ _ plain, List.forall_mem_cons,
        List.forall_mem_cons]
      exact and_congr_right fun _ => ih _ _ _ _
  | literal back mark literal rest quote closed ih =>
      rw [code_literal _ _ _ _ _ quote closed, code_literal _ _ _ _ _ quote closed]
      exact ih _ _ _ _
  | unclosed back mark rest quote unclosed =>
      simp [code_unclosed _ _ _ _ quote unclosed]

/-- Comments do not depend on parentheses. -/
theorem uncommented_depth {back text : Text} (offset depth offset' depth' : Nat) :
    Uncommented ⟨back, text, offset, depth⟩ ↔ Uncommented ⟨back, text, offset', depth'⟩ :=
  @forall_code_depth (fun rest => Markup.comment? rest = none) back text offset depth offset' depth'

/-! ## Texts in a row -/

/-- Comments begin with two hyphens, or with a slash and an asterisk. -/
theorem comment?_eq_none_iff (text : Text) :
    Markup.comment? text = none ↔
      ¬ Text.ascii "--" <+: text ∧ ¬ Text.ascii "/*" <+: text := by
  unfold Markup.comment?
  split
  · rename_i line
    simp [List.isPrefixOf_iff_prefix.mp line]
  · rename_i no_line
    split
    · rename_i block
      have block := List.isPrefixOf_iff_prefix.mp block
      split <;> simp [block]
    · rename_i no_block
      simp only [List.isPrefixOf_iff_prefix] at no_line no_block
      simp [no_line, no_block]

/-- No comment begins with the last byte before a text and the first one of it. -/
def Apart (back text : Text) : Prop :=
  (text.head? ≠ some Byte.hyphen ∧ text.head? ≠ some Byte.asterisk) ∨
    (back.head? ≠ some Byte.hyphen ∧ back.head? ≠ some Byte.slash)

theorem comment?_append {rest back after : Text} (rest_ne : rest ≠ [])
    (apart : Apart (rest.reverse ++ back) after) :
    Markup.comment? (rest ++ after) = none ↔ Markup.comment? rest = none := by
  rw [comment?_eq_none_iff, comment?_eq_none_iff]
  have line_eq : Text.ascii "--" = [Byte.hyphen, Byte.hyphen] := by decide
  have block_eq : Text.ascii "/*" = [Byte.slash, Byte.asterisk] := by decide
  rw [line_eq, block_eq]
  match rest, rest_ne with
  | [byte], _ =>
      cases after with
      | nil => simp
      | cons next after =>
          simp only [Apart, List.head?_cons, List.reverse_singleton, List.singleton_append,
            Option.some.injEq, ne_eq] at apart
          simp only [List.singleton_append, List.cons_prefix_cons, List.nil_prefix, and_true,
            List.prefix_nil, reduceCtorEq, and_false, not_false_eq_true, and_self, iff_true,
            not_and]
          refine ⟨fun first second => ?_, fun first second => ?_⟩
          · rcases apart with apart | apart
            · exact apart.1 second.symm
            · exact apart.1 first.symm
          · rcases apart with apart | apart
            · exact apart.2 second.symm
            · exact apart.2 first.symm
  | byte :: next :: rest, _ => simp [List.cons_prefix_cons]

/-- Two texts in a row have no comments when neither of them has. -/
theorem uncommented_start_append {text after : Text} (closed : Closed (start text))
    (seam : Seam text.reverse after) (apart : Apart text.reverse after) :
    Uncommented (start (text ++ after)) ↔ Uncommented (start text) ∧ Uncommented (start after) := by
  have later : Uncommented (start after) ↔
      Uncommented ⟨[], after, 0, endDepth ⟨[], text, 0, 0⟩⟩ := uncommented_depth _ _ _ _
  rw [later]
  exact forall_code_append 0 closed seam
    (fun site rest_ne whole => comment?_append rest_ne (whole ▸ apart))
    fun _ _ _ => Iff.rfl

theorem apart_of_head {text : Text}
    (plain : ∀ byte, text.head? = some byte → byte.marksComment = false) (back : Text) :
    Apart back text :=
  .inl ⟨fun head_eq => absurd (plain _ head_eq) (by decide),
    fun head_eq => absurd (plain _ head_eq) (by decide)⟩

theorem apart_of_last {back : Text}
    (plain : ∀ byte, back.head? = some byte → byte.marksComment = false) (text : Text) :
    Apart back text :=
  .inr ⟨fun head_eq => absurd (plain _ head_eq) (by decide),
    fun head_eq => absurd (plain _ head_eq) (by decide)⟩

theorem comment?_cons_of_plain {byte : Byte} (plain : byte.marksComment = false) (rest : Text) :
    Markup.comment? (byte :: rest) = none := by
  rw [comment?_eq_none_iff, show Text.ascii "--" = [Byte.hyphen, Byte.hyphen] by decide,
    show Text.ascii "/*" = [Byte.slash, Byte.asterisk] by decide, List.cons_prefix_cons,
    List.cons_prefix_cons]
  constructor <;> rintro ⟨rfl, -⟩ <;> exact absurd plain (by decide)

/-- A text without bytes of the marks of comments has no comments. -/
theorem uncommented_of_plain {back text : Text} (offset depth : Nat)
    (plain : ∀ byte ∈ text, byte.marksComment = false) :
    Uncommented ⟨back, text, offset, depth⟩ := by
  induction back, text using lexeme_induction .standard generalizing offset depth with
  | nil back => exact uncommented_nil _ _ _
  | code back byte rest no_quote ih =>
      rw [List.forall_mem_cons] at plain
      exact (uncommented_cons _ _ _ _ no_quote).mpr
        ⟨comment?_cons_of_plain plain.1 rest, ih _ _ plain.2⟩
  | literal back mark literal rest quote closed ih =>
      rw [List.forall_mem_cons, List.forall_mem_append] at plain
      exact (uncommented_literal _ _ _ _ _ quote closed).mpr (ih _ _ plain.2.2)
  | unclosed back mark rest quote unclosed => exact uncommented_unclosed _ _ _ _ quote unclosed

/-- What holds no byte of the marks of comments adds no comment. -/
theorem uncommented_append_plain {text after : Text} (closed : Closed (start text))
    (seam : Seam text.reverse after)
    (plain : ∀ byte ∈ after, byte.marksComment = false) :
    Uncommented (start (text ++ after)) ↔ Uncommented (start text) := by
  have apart : Apart text.reverse after :=
    apart_of_head (fun byte head_eq => plain byte (List.mem_of_head? head_eq)) _
  rw [uncommented_start_append closed seam apart]
  exact and_iff_left (uncommented_of_plain _ _ plain)

theorem uncommented_append_blank {text blank : Text} (closed : Closed (start text))
    (is_blank : ∀ byte ∈ blank, byte.isSpace = true) :
    Uncommented (start (text ++ blank)) ↔ Uncommented (start text) :=
  uncommented_append_plain closed (Seam.of_blank_right is_blank _) fun byte member =>
    Byte.marksComment_of_isSpace byte (is_blank byte member)

/-- Parentheses around a text add no comments. -/
theorem uncommented_parenthesized {text inner : Text} (closed : Closed (start text))
    (inner_closed : Closed (start inner)) :
    Uncommented (start (text ++ [Byte.openParen] ++ inner ++ [Byte.closeParen])) ↔
      Uncommented (start text) ∧ Uncommented (start inner) := by
  have open_seam : Seam text.reverse [Byte.openParen] :=
    Seam.of_plain_head (by decide) (by decide) _ _
  have open_closed : Closed (start (text ++ [Byte.openParen])) :=
    (closed_start_append closed open_seam).mpr (closed_of_plain _ _ (by decide +kernel))
  have reverse_eq : (text ++ [Byte.openParen]).reverse = Byte.openParen :: text.reverse := by simp
  have inner_seam : Seam (text ++ [Byte.openParen]).reverse inner := by
    rw [reverse_eq]
    exact Seam.of_plain_last (by decide) (by decide) _ _
  have inner_apart : Apart (text ++ [Byte.openParen]).reverse inner := by
    refine apart_of_last (fun byte head_eq => ?_) _
    rw [reverse_eq] at head_eq
    obtain rfl : Byte.openParen = byte := by simpa using head_eq
    decide
  have both_closed := (closed_start_append open_closed inner_seam).mpr inner_closed
  rw [uncommented_append_plain both_closed
      (Seam.of_plain_head (by decide) (by decide) _ _) (by decide +kernel),
    uncommented_start_append open_closed inner_seam inner_apart,
    uncommented_append_plain closed open_seam (by decide +kernel)]

/-! ## The reading that skips comments -/

theorem comment?_of_atQuote {site : Site} (quote : site.atQuote = true) :
    Markup.comment? site.rest = none := by
  obtain ⟨back, rest, offset, depth⟩ := site
  cases rest with
  | nil => rfl
  | cons byte rest =>
      have marked : byte.isQuote = true := by simpa [atQuote, byte?] using quote
      exact comment?_cons_of_plain (Byte.marksComment_of_isQuote byte marked) rest

theorem unitWidth_eq {site : Site} (plain : Markup.comment? site.rest = none) :
    unitWidth site = lexemeWidth .standard site := by
  simp [unitWidth, lexemeWidth, plain]

theorem units_of_uncommented {text : Text} (uncommented : Uncommented (start text)) :
    (start text).units = (start text).lexemes := by
  refine (walk_congr fun site member => ?_).symm
  by_cases quote : site.atQuote = true
  · exact (unitWidth_eq (comment?_of_atQuote quote)).symm
  · exact (unitWidth_eq
      (uncommented site (List.mem_filter.mpr ⟨member, by simpa using quote⟩))).symm

/-- The reading that skips comments meets none exactly when the text has none between its
literals. -/
theorem forall_units_iff {text : Text} :
    (∀ unit ∈ (start text).units, Markup.comment? unit.rest = none) ↔ Uncommented (start text) := by
  constructor
  · intro none_met
    have same : (start text).units = (start text).lexemes :=
      walk_congr fun site member => unitWidth_eq (none_met site member)
    intro place member
    refine none_met place ?_
    rw [same]
    exact (List.mem_filter.mp member).1
  · intro uncommented unit member
    rw [units_of_uncommented uncommented] at member
    by_cases quote : unit.atQuote = true
    · exact comment?_of_atQuote quote
    · exact uncommented unit (List.mem_filter.mpr ⟨member, by simpa using quote⟩)

/-- A database can read the text: with comments skipped, every literal is closed, and the
parentheses outside literals and comments come in pairs. -/
structure Parseable (text : Text) : Prop where
  closed : ∀ unit ∈ (start text).units, unit.atQuote = true → closedAt .standard unit = true
  nested : ∀ unit ∈ (start text).units, unit.byte? = some Byte.closeParen → unit.depth ≠ 0
  level : (start text).units.foldl
    (fun depth unit => unit.byte?.elim depth (depthAfter · depth)) 0 = 0

instance (text : Text) : Decidable (Parseable text) :=
  decidable_of_iff
    ((∀ unit ∈ (start text).units, unit.atQuote = true → closedAt .standard unit = true) ∧
      (∀ unit ∈ (start text).units, unit.byte? = some Byte.closeParen → unit.depth ≠ 0) ∧
      (start text).units.foldl
        (fun depth unit => unit.byte?.elim depth (depthAfter · depth)) 0 = 0)
    ⟨fun ⟨closed, nested, level⟩ => ⟨closed, nested, level⟩,
      fun parseable => ⟨parseable.closed, parseable.nested, parseable.level⟩⟩

theorem Parseable.closed_start {text : Text} (parseable : Parseable text)
    (uncommented : Uncommented (start text)) : Closed (start text) := by
  intro literal member
  obtain ⟨walked, quote⟩ := List.mem_filter.mp member
  rw [← units_of_uncommented uncommented] at walked
  exact parseable.closed literal walked quote

theorem Parseable.endDepth_start {text : Text} (parseable : Parseable text)
    (uncommented : Uncommented (start text)) : endDepth (start text) = 0 := by
  have level := parseable.level
  rw [units_of_uncommented uncommented] at level
  rw [endDepth, code, List.foldl_filter, ← level]
  refine List.foldl_ext _ _ _ fun depth lexeme _ => ?_
  split
  · rfl
  · rename_i quote
    obtain ⟨back, rest, offset, inner⟩ := lexeme
    cases rest with
    | nil => rfl
    | cons byte rest =>
        have marked : byte.isQuote = true := by simpa [atQuote, byte?] using quote
        simp [byte?, depthAfter, Byte.depthless_of_isQuote byte marked]

end Site

end TenantScope
