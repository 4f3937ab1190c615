import TenantScope.Proofs.Fences
import TenantScope.Proofs.Sanitizing

/-!
# Sanitizing a sanitized statement

Fences and comments leave blanks behind that complete no other fence and no other comment, so a
sanitized statement has none.  Tags do: where one stood inside another, the blank it leaves is the
white space of the outer one.  A sanitized statement stays as it is when it is sanitized again
exactly when it has no tag left.
-/

namespace TenantScope

open Text Site Literal

namespace Site

/-- No tag begins from the place on outside literals. -/
def Untagged (site : Site) : Prop :=
  ∀ place ∈ site.code, Markup.tag? place.rest = none

instance (site : Site) : Decidable (Untagged site) :=
  inferInstanceAs (Decidable (∀ _ ∈ _, _))

/-- Tags do not depend on parentheses. -/
theorem untagged_depth {back text : Text} (offset depth offset' depth' : Nat) :
    Untagged ⟨back, text, offset, depth⟩ ↔ Untagged ⟨back, text, offset', depth'⟩ :=
  @forall_code_depth (fun rest => Markup.tag? rest = none) back text offset depth offset' depth'

end Site

namespace NormalForm

/-! ## Texts without markup -/

/-- A text without comments and tags has its lexemes for units. -/
theorem plainFragments_of_plain {text : Text} (uncommented : Uncommented (start text))
    (untagged : Untagged (start text)) :
    plainFragments (start text) = (start text).lexemes.map fragment := by
  have unmarked : ∀ site ∈ (start text).lexemes, site.atQuote = false → markup? site = none :=
    fun site member plain => by
      have in_code : site ∈ (start text).code := List.mem_filter.mpr ⟨member, by simp [plain]⟩
      rw [markup?, uncommented site in_code, untagged site in_code]
      rfl
  have same : (start text).tour plainWidth = (start text).lexemes := by
    refine (walk_congr fun site member => ?_).symm
    cases quote : site.atQuote with
    | true => simp [plainWidth, lexemeWidth, quote]
    | false => simp [plainWidth, lexemeWidth, quote, unmarked site member quote]
  rw [plainFragments, same]
  refine List.map_congr_left fun site member => ?_
  obtain ⟨byte, rest, rest_eq⟩ := List.exists_cons_of_ne_nil (rest_ne_nil_of_mem_walk member)
  have byte_eq : site.byte? = some byte := by rw [byte?, rest_eq]; rfl
  have quote_eq : site.atQuote = byte.isQuote := by rw [atQuote, byte_eq]; rfl
  cases quote : byte.isQuote with
  | true => simp [plainFragment, fragment, byte_eq, quote_eq, quote]
  | false => simp [plainFragment, fragment, byte_eq, quote_eq, quote,
        unmarked site member (quote_eq.trans quote)]

/-! ## How long a text is without its markup -/

/-- Number of bytes that fragments come to at most when they are joined. -/
def weight : List Fragment → Nat
  | [] => 0
  | .gap :: fragments => 1 + weight fragments
  | .kept bytes :: fragments => bytes.length + weight fragments

theorem length_joinAfter_le (pending : Bool) (fragments : List Fragment) :
    (Fragment.joinAfter pending fragments).length ≤ pending.toNat + weight fragments := by
  induction fragments generalizing pending with
  | nil => exact Nat.zero_le _
  | cons fragment fragments ih =>
      cases fragment with
      | gap =>
          have bound := ih true
          simp only [Fragment.joinAfter, weight, Bool.toNat_true] at bound ⊢
          omega
      | kept bytes =>
          have bound := ih false
          cases pending <;>
            simp only [Fragment.joinAfter, weight, List.length_append, Bool.toNat_true,
              Bool.toNat_false, if_true, if_false, Bool.false_eq_true, List.length_cons,
              List.length_nil] at bound ⊢ <;>
            omega

theorem length_join_le (fragments : List Fragment) :
    (Fragment.join fragments).length ≤ weight fragments := by
  induction fragments with
  | nil => exact le_rfl
  | cons fragment fragments ih =>
      cases fragment with
      | gap => exact ih.trans (Nat.le_add_left (weight fragments) 1)
      | kept bytes =>
          rw [Fragment.join, List.length_append, weight]
          simpa using length_joinAfter_le false fragments

/-- What stays of a unit is no longer than the unit, and no longer than the text from there on. -/
theorem weight_plainFragment_le {site : Site} (rest_ne : site.rest ≠ []) :
    weight [plainFragment site] ≤ max 1 (plainWidth site) ∧
      weight [plainFragment site] ≤ site.rest.length := by
  have positive := List.length_pos_iff.mpr rest_ne
  rw [plainFragment, plainWidth]
  cases site.atQuote with
  | true =>
      simp only [if_true, weight, List.length_take]
      omega
  | false =>
      obtain ⟨byte, byte_eq⟩ : ∃ byte, site.byte? = some byte := by
        obtain ⟨byte, rest, rest_eq⟩ := List.exists_cons_of_ne_nil rest_ne
        exact ⟨byte, by rw [byte?, rest_eq]; rfl⟩
      have single : weight [Fragment.ofByte byte] = 1 := by
        rw [Fragment.ofByte]
        cases byte.isSpace <;> rfl
      rw [if_neg Bool.false_ne_true, byte_eq]
      cases markup? site with
      | some length =>
          show 1 ≤ max 1 length ∧ 1 ≤ site.rest.length
          omega
      | none =>
          show weight [Fragment.ofByte byte] ≤ 1 ∧ weight [Fragment.ofByte byte] ≤ site.rest.length
          omega

private theorem weight_walk_le (back rest : Text) (offset depth skip : Nat) :
    weight ((walk plainWidth back offset depth skip rest).map plainFragment) ≤ rest.length -
      skip := by
  induction rest generalizing back offset depth skip with
  | nil => cases skip <;> exact Nat.zero_le _
  | cons byte rest ih =>
      cases skip with
      | succ skip =>
          rw [walk, List.length_cons, Nat.add_sub_add_right]
          exact ih _ _ _ _
      | zero =>
          obtain ⟨by_width, by_length⟩ :=
            @weight_plainFragment_le ⟨back, byte :: rest, offset, depth⟩ (by simp)
          have later := ih (byte :: back) (offset + 1) (depthAfter byte depth)
            (plainWidth ⟨back, byte :: rest, offset, depth⟩ - 1)
          have split (fragment : Fragment) (fragments : List Fragment) :
              weight (fragment :: fragments) = weight [fragment] + weight fragments := by
            cases fragment <;> rfl
          rw [walk, List.map_cons, split]
          rw [List.length_cons] at by_length
          simp only [List.length_cons]
          omega

/-- Without its markup a text is no longer than before. -/
theorem weight_plainFragments_le (site : Site) : weight (plainFragments site) ≤ site.rest.length :=
  weight_walk_le site.back site.rest site.offset site.depth 0

/-- A text that has a tag is shorter without its markup, by two bytes at least. -/
theorem weight_of_tagged {back text : Text} (offset depth : Nat)
    (uncommented : Uncommented ⟨back, text, offset, depth⟩) :
    Untagged ⟨back, text, offset, depth⟩ ∨
      weight (plainFragments ⟨back, text, offset, depth⟩) + 2 ≤ text.length := by
  induction back, text using lexeme_induction .standard generalizing offset depth with
  | nil back => exact .inl (by simp [Untagged, code_nil])
  | code back byte rest plain ih =>
      obtain ⟨no_comment, uncommented⟩ := (uncommented_cons _ _ _ _ plain).mp uncommented
      have unmarked : markup? ⟨back, byte :: rest, offset, depth⟩ = Markup.tag? (byte :: rest) := by
        rw [markup?, no_comment]
        rfl
      cases tag : Markup.tag? (byte :: rest) with
      | some length =>
          obtain ⟨first, inside, after, inside_ne, split, rfl⟩ := Markup.exists_of_tag? tag
          obtain ⟨rfl, rest_eq⟩ := List.cons.inj split
          have long := List.length_pos_of_ne_nil inside_ne
          rw [tag, split] at unmarked
          obtain ⟨inner, fragments_eq⟩ := plainFragments_markup offset depth plain unmarked
          have bound := weight_plainFragments_le
            ⟨(byte :: (inside ++ [Byte.greaterThan])).reverse ++ back,
            after, offset + (byte :: (inside ++ [Byte.greaterThan])).length, inner⟩
          refine .inr ?_
          rw [split, fragments_eq, weight, List.length_append]
          rw [List.length_cons, List.length_append, List.length_singleton] at bound ⊢
          dsimp only at bound
          omega
      | none =>
          obtain ⟨inner, fragments_eq⟩ :=
            plainFragments_byte offset depth back rest plain (unmarked.trans tag)
          have single : (Fragment.ofByte byte = .gap ∨ Fragment.ofByte byte = .kept [byte]) := by
            rw [Fragment.ofByte]
            cases byte.isSpace <;> simp
          rcases ih (offset + 1) inner ((uncommented_depth _ _ _ _).mp uncommented) with
            untagged | shorter
          · refine .inl ?_
            rw [Untagged, code_cons _ _ _ _ plain, List.forall_mem_cons]
            exact ⟨tag, (untagged_depth _ _ _ _).mp untagged⟩
          · refine .inr ?_
            rw [fragments_eq, List.length_cons]
            rcases single with same | same <;> rw [same, weight] <;> simp <;> omega
  | literal back mark literal rest quote closed ih =>
      obtain ⟨inner, fragments_eq⟩ :=
        plainFragments_literal offset depth back literal rest quote closed
      rw [uncommented_literal _ _ _ _ _ quote closed] at uncommented
      rcases ih (offset + (literal.length + 1)) inner ((uncommented_depth _ _ _ _).mp uncommented)
        with untagged | shorter
      · refine .inl ?_
        rw [Untagged, code_literal _ _ _ _ _ quote closed]
        exact (untagged_depth _ _ _ _).mp untagged
      · refine .inr ?_
        rw [fragments_eq, weight, List.length_cons, List.length_cons, List.length_append]
        omega
  | unclosed back mark rest quote unclosed =>
      exact .inl (by simp [Untagged, code_unclosed _ _ _ _ quote unclosed])

end NormalForm

/-! ## Sanitized statements -/

/-- What is kept of a text is a part of it. -/
theorem NormalForm.infix_of_mem_plainFragments {text bytes : Text}
    (member : .kept bytes ∈ plainFragments (start text)) : bytes <:+: text := by
  obtain ⟨site, visited, kept⟩ := List.mem_map.mp member
  have whole := back_rest_of_mem_walk visited
  have later : site.rest <:+: text := ⟨site.back.reverse, [], by simpa [start] using whole⟩
  rw [plainFragment] at kept
  split at kept
  · obtain rfl := Fragment.kept.inj kept
    exact (List.take_prefix _ _).isInfix.trans later
  · split at kept
    · rename_i byte _ byte_eq
      rw [Fragment.ofByte] at kept
      split at kept
      · cases kept
      · obtain rfl := Fragment.kept.inj kept
        obtain ⟨rest, rest_eq⟩ := List.head?_eq_some_iff.mp byte_eq
        have begins : [byte] <+: site.rest := ⟨rest, rest_eq.symm⟩
        exact begins.isInfix.trans later
    · cases kept

open Token in
/-- A sanitized statement has no fences and no comments, and it is in normal form. -/
theorem plain_sanitize (received : Text) :
    Unfenced received.sanitize ∧ Uncommented (start received.sanitize) ∧
      received.sanitize.normalize = received.sanitize := by
  obtain ⟨tokens, lexed, quiet, fragments_eq, normalize_eq⟩ :=
    exists_normalizePlain (Markup.unfence received)
  have sanitize_eq : received.sanitize = (spell tokens).normalize := normalize_eq
  refine ⟨?_, ?_, by rw [sanitize_eq, normalize_normalize]⟩
  · rw [sanitize_eq]
    refine unfenced_normal lexed fun token member => ?_
    have part (mark : Byte) (content : Text) (same : fragments token = [.kept (mark :: content)]) :
        Unfenced (mark :: content) := by
      refine (Markup.unfenced_unfence received).of_isInfix
        (NormalForm.infix_of_mem_plainFragments ?_)
      rw [fragments_eq]
      exact List.mem_flatMap.mpr ⟨token, member, same ▸ List.mem_cons_self⟩
    obtain ⟨front, back, split⟩ := List.append_of_mem member
    obtain ⟨-, ⟨-, follows⟩, -⟩ :=
      linked_append.mp (split ▸ lexed : Lexed none (front ++ token :: back))
    cases token with
    | word written =>
        exact Unfenced.of_not_mem fun tick => absurd (follows.1.identifiers _ tick) (by decide)
    | byte plain =>
        refine Unfenced.of_not_mem fun tick => ?_
        obtain rfl : Byte.backtick = plain := by simpa [bytes] using tick
        exact absurd follows.2 (by decide)
    | literal mark content => exact part mark content rfl
    | remnant mark content => exact part mark content rfl
  · rw [sanitize_eq, normalize_spell lexed]
    exact uncommented_spell After.nil (lexed_normal lexed) (linked_normal spaceable_quiet quiet) 0 0

/-- A text in normal form is its own sanitized form when it has no fences, no
comments and no tags. -/
theorem sanitize_of_plain {text : Text} (unfenced : Unfenced text)
    (uncommented : Uncommented (start text)) (untagged : Untagged (start text))
    (normal : text.normalize = text) : text.sanitize = text := by
  rw [sanitize, Markup.unfence_of_unfenced unfenced, normalizePlain]
  exact (congrArg (fun fragments => NormalForm.terminate (Fragment.join fragments))
    (NormalForm.plainFragments_of_plain uncommented untagged)).trans normal

theorem length_terminate_le (text : Text) :
    (NormalForm.terminate text).length ≤ text.length + 1 := by
  have bound := length_dropRightWhile_le Token.trails text
  rw [Token.terminate_eq]
  split
  · exact Nat.zero_le _
  · rw [List.length_append, List.length_singleton]
    omega

/-- A sanitized statement stays as it is when it is sanitized again exactly when
no tag is left in it. -/
theorem sanitize_sanitize_iff (received : Text) :
    received.sanitize.sanitize = received.sanitize ↔
      ∀ site ∈ (start received.sanitize).code, Markup.tag? site.rest = none := by
  obtain ⟨unfenced, uncommented, normal⟩ := plain_sanitize received
  refine ⟨fun same => ?_, fun untagged => sanitize_of_plain unfenced uncommented untagged normal⟩
  refine (NormalForm.weight_of_tagged 0 0 uncommented).resolve_right fun shorter => ?_
  change NormalForm.weight (NormalForm.plainFragments (start received.sanitize)) + 2 ≤ _ at shorter
  have ends :=
    length_terminate_le (Fragment.join (NormalForm.plainFragments (start received.sanitize)))
  have joined := NormalForm.length_join_le (NormalForm.plainFragments (start received.sanitize))
  have whole :
      NormalForm.terminate (Fragment.join (NormalForm.plainFragments (start received.sanitize))) =
      received.sanitize := by
    rw [sanitize, Markup.unfence_of_unfenced unfenced] at same
    exact same
  rw [whole] at ends
  omega

/-- Where a tag stands inside another, only the inner one is taken out at first. -/
theorem sanitize_sanitize_ne :
    (ascii "SELECT a <b<i>> c").sanitize.sanitize ≠ (ascii "SELECT a <b<i>> c").sanitize := by
  decide

end TenantScope
