import Mathlib.Data.List.Infix
import TenantScope.Proofs.Finding
import TenantScope.Proofs.Occurrences
import TenantScope.Proofs.Terminators

/-!
# Counting by items

How often a word or a semicolon stands outside the literals of a text, and whether a backslash
leaves open where a literal ends, can be told from its items.
-/

namespace TenantScope

open Text Site Literal

namespace Token

/-! ## Places outside literals -/

section Outside

variable {test : Site → Bool}
  (inside : ∀ site : Site, site.afterIdentifier = true → site.byte?.any Byte.isIdentifier = true →
    test site = false)

include inside

/-- Nothing is counted in the middle of a word. -/
theorem countP_code_inside {back written : Text} (rest : Text) (offset depth : Nat)
    (identifiers : ∀ byte ∈ written, byte.isIdentifier = true)
    (begun : back.head?.any Byte.isIdentifier = true) :
    (code ⟨back, written ++ rest, offset, depth⟩).countP test =
      (code ⟨written.reverse ++ back, rest, offset + written.length, depth⟩).countP test := by
  induction written generalizing back offset with
  | nil => rfl
  | cons byte written ih =>
      obtain ⟨identifier, identifiers⟩ := List.forall_mem_cons.mp identifiers
      have silent :=
        inside ⟨back, byte :: (written ++ rest), offset, depth⟩ begun
          (by simpa [byte?] using identifier)
      rw [List.cons_append, code_cons _ _ _ _ (Byte.isQuote_of_isIdentifier byte identifier),
        List.countP_cons_of_neg (by simp [silent]),
        depthAfter_of_flat (Byte.depthless_of_isIdentifier byte identifier),
        ih (offset + 1) identifiers (by simpa using identifier)]
      simp [Nat.add_assoc, Nat.add_comm 1]

/-- What is counted outside literals is counted among the items, if it is seen at the beginning of a
word or at a visible byte. -/
theorem countP_code_spell {feature : Feature}
    (begins : ∀ back written rest offset depth called, IsName written →
      back.head?.any Byte.isIdentifier = false →
      rest.head?.any Byte.isIdentifier = false →
      test ⟨back, written ++ rest, offset, depth⟩ = feature (.word (upper written)) called)
    (stands : ∀ back plain rest offset depth called, plain.isIdentifier = false →
      test ⟨back, plain :: rest, offset, depth⟩ = (!plain.isSpace && feature (.byte plain) called))
    (unquoted : ∀ mark content escapes called,
      feature (.literal mark content escapes) called = false)
    {back : Text} {previous : Option Token} {tokens : List Token} (after : After back previous)
    (lexed : Lexed previous tokens) : ∀ before offset depth,
    (code ⟨back, spell tokens, offset, depth⟩).countP test =
      Item.tally feature false (items before tokens) := by
  refine token_induction ?nil ?word ?byte ?literal ?remnant after lexed
  case nil =>
    intro back before offset depth
    rw [spell_nil, code_nil]
    rfl
  case word =>
    intro back written tokens name outside ends ih before offset depth
    obtain ⟨letter, letters, rfl⟩ := List.exists_cons_of_ne_nil name.nonempty
    obtain ⟨identifier, identifiers⟩ := List.forall_mem_cons.mp name.identifiers
    have here := begins back (letter :: letters) (spell tokens) offset depth
      (Item.opens false (items (some (word (letter :: letters))) tokens)) name outside ends
    rw [List.cons_append] at here
    have later := ih (some (word (letter :: letters))) (offset + (letters.length + 1)) depth
    rw [List.reverse_cons, List.append_assoc, List.singleton_append] at later
    rw [spell_cons, bytes, List.cons_append,
      code_cons _ _ _ _ (Byte.isQuote_of_isIdentifier letter identifier),
      List.countP_cons, here, depthAfter_of_flat (Byte.depthless_of_isIdentifier letter identifier),
      countP_code_inside inside _ _ _ identifiers (by simpa using identifier), Nat.add_assoc offset,
      Nat.add_comm 1, later, items, item?, Option.toList_some, List.singleton_append,
      Item.tally_cons, Nat.add_comm]
    cases feature (.word (upper (letter :: letters))) _ <;> rfl
  case byte =>
    intro back plain tokens identifier quote ih before offset depth
    have here := stands back plain (spell tokens) offset depth
      (Item.opens false (items (some (.byte plain)) tokens)) identifier
    rw [spell_cons, bytes, List.singleton_append, code_cons _ _ _ _ quote, List.countP_cons, here,
      ih (some (.byte plain)), items, item?]
    cases space : plain.isSpace with
    | true => simp
    | false =>
        simp only [Bool.not_false, Bool.true_and, Bool.false_eq_true, if_false, Option.toList_some,
          List.singleton_append, Item.tally_cons]
        rw [Nat.add_comm]
        cases feature (.byte plain) _ <;> rfl
  case literal =>
    intro back mark content tokens quote closed ih before offset depth
    rw [spell_cons, bytes, List.cons_append, code_literal _ _ _ _ _ quote closed,
      ih (some (.literal mark content)), items, item?]
    simp [unquoted]
  case remnant =>
    intro back mark content quote unclosed before offset depth
    rw [spell_cons, bytes, spell_nil, List.append_nil, code_unclosed _ _ _ _ quote unclosed, items,
      item?]
    simp [unquoted, items]

end Outside

end Token

/-! ## Words, semicolons and backslashes -/

namespace Feature

/-- A semicolon outside literals. -/
def terminator : Feature
  | .byte plain, _ => plain == Byte.semicolon
  | _, _ => false

/-- A string literal that is no escape string has a backslash before an apostrophe. -/
def ambiguous : Feature
  | .literal mark content escapes, _ =>
      mark == Byte.apostrophe && !escapes && decide ([Byte.backslash, Byte.apostrophe] <:+: content)
  | _, _ => false

theorem named_literal (keyword : Text) (mark : Byte) (content : Text) (escapes called : Bool) :
    named keyword (.literal mark content escapes) called = false := by
  have nothing (inside : Bool) (text : Text) : finds (fun _ => false) inside text = false := by
    induction text generalizing inside with
    | nil => rfl
    | cons byte text ih => simp [finds, ih]
  exact nothing false (mark :: content)

end Feature

namespace Text

open Token

/-- A word is counted as often as it is an item. -/
theorem count_eq_tally {keyword : Text} (name : IsName keyword) (text : Text) :
    Word.count keyword text = Item.tally (Feature.named keyword) false text.items := by
  have same (site : Site) : site.hasWord keyword = (site.spoken == keyword) := by
    rw [Bool.eq_iff_iff, hasWord_of_isName name, beq_iff_eq]
  rw [Word.count_of_isName name]
  conv => lhs; rw [← spell_tokens text]
  refine countP_code_spell (fun site begun identifier => ?_)
    (fun back written rest offset depth called is_name outside ends => ?_)
    (fun back plain rest offset depth called identifier => ?_)
    (Feature.named_literal keyword) After.nil (lexed_tokens text) none 0 0
  · rw [same, spoken, if_pos begun]
    simpa using name.nonempty.symm
  · rw [same, spoken_spell is_name rest outside ends]
    rfl
  · have silent : spoken ⟨back, plain :: rest, offset, depth⟩ = [] := by
      by_contra said
      obtain ⟨-, byte, after, rest_eq, word⟩ := exists_of_spoken_ne said
      obtain ⟨rfl, -⟩ := List.cons.inj rest_eq
      simp [identifier] at word
    rw [same, silent, show Feature.named keyword (.byte plain) called = false from rfl]
    simpa using name.nonempty.symm

/-- The semicolons outside literals are items. -/
theorem length_semicolons (text : Text) :
    (semicolons text).length = Item.tally Feature.terminator false text.items := by
  rw [semicolons, List.length_map, ← List.countP_eq_length_filter]
  conv => lhs; rw [← spell_tokens text]
  refine countP_code_spell (fun site begun identifier => ?_)
    (fun back written rest offset depth called is_name outside ends => ?_)
    (fun back plain rest offset depth called identifier => ?_) (fun _ _ _ _ => rfl) After.nil
    (lexed_tokens text) none 0 0
  · cases byte_eq : site.byte? with
    | none => rfl
    | some byte =>
        have other : byte ≠ Byte.semicolon := fun same => by
          rw [byte_eq, same] at identifier
          exact absurd identifier (by decide)
        simpa using other
  · obtain ⟨letter, letters, rfl⟩ := List.exists_cons_of_ne_nil is_name.nonempty
    have identifier := is_name.identifiers letter List.mem_cons_self
    have other : letter ≠ Byte.semicolon := fun same => absurd (same ▸ identifier) (by decide)
    simp [byte?, other, Feature.terminator]
  · rw [show Feature.terminator (.byte plain) called = (plain == Byte.semicolon) from rfl]
    cases space : plain.isSpace with
    | false => simp [byte?]
    | true =>
        have other : plain ≠ Byte.semicolon := fun same => absurd (same ▸ space) (by decide)
        simpa [byte?] using other

/-- A literal that nothing follows into is ambiguous as its item is, where its mark is an apostrophe
and the token before it makes it no escape string. -/
private theorem ambiguous_iff {back : Text} {previous : Option Token} (after : After back previous)
    {mark : Byte} {content rest : Text} {offset depth : Nat}
    (width_eq : width .standard ⟨back, mark :: (content ++ rest), offset, depth⟩ =
      content.length + 1)
    (called : Bool) :
    (Site.byte? ⟨back, mark :: (content ++ rest), offset, depth⟩ = some Byte.apostrophe ∧
      opensEscapeString ⟨back, mark :: (content ++ rest), offset, depth⟩ = false ∧
        [Byte.backslash, Byte.apostrophe] <:+: ((mark :: (content ++ rest)).take
          (width .standard ⟨back, mark :: (content ++ rest), offset, depth⟩)).drop 1) ↔
      Feature.ambiguous (.literal mark content (escapes previous mark)) called = true := by
  have escapes_eq :
      opensEscapeString ⟨back, mark :: (content ++ rest), offset, depth⟩ = escapes previous mark :=
    (escapesAt_mk .standard back mark _ offset depth).trans (after.escapesAfter_eq mark)
  rw [escapes_eq, width_eq]
  simp [byte?, Feature.ambiguous, and_assoc]

/-- A backslash leaves open where a literal of a text ends when an item says so. -/
private theorem exists_ambiguous_spell {back : Text} {previous : Option Token} {tokens : List Token}
    (after : After back previous) (lexed : Lexed previous tokens) (offset depth : Nat) :
    (∃ literal ∈ literals ⟨back, spell tokens, offset, depth⟩,
      literal.byte? = some Byte.apostrophe ∧
        opensEscapeString literal = false ∧
          [Byte.backslash, Byte.apostrophe] <:+:
          (literal.rest.take (width .standard literal)).drop 1) ↔
      0 < Item.tally Feature.ambiguous false (Token.items previous tokens) := by
  induction tokens generalizing back previous offset depth with
  | nil => simp [literals_nil, Token.items]
  | cons token tokens ih =>
      have following := lexed
      obtain ⟨⟨-, follows⟩, lexed⟩ := lexed
      rw [Token.items, spell_cons]
      cases token with
      | word written =>
          rw [bytes, literals_word follows.1, ih (after.of_word follows.1 follows.2) lexed]
          simp [item?, Item.tally_cons, Feature.ambiguous]
      | byte plain =>
          rw [bytes, List.singleton_append, literals_cons _ _ _ _ follows.2,
            ih (After.of_plain back follows.1 (.byte plain) rfl) lexed, item?]
          cases plain.isSpace <;> simp [Feature.ambiguous]
      | literal mark content =>
          have closes := after.closing?_spell following
          rw [bytes, List.cons_append, literals_literal _ _ _ _ _ follows.1 closes,
            List.exists_mem_cons_iff, ih (After.of_literal back follows.1 follows.2.2) lexed,
            ambiguous_iff after (by rw [width_cons, closes]; rfl), item?, Option.toList_some,
            List.singleton_append, Item.tally_cons_pos]
      | remnant mark content =>
          have unclosed := after.closing?_remnant following
          obtain rfl := eq_nil_of_remnant following
          have width_eq :
              width .standard ⟨back, mark :: (content ++ []), offset, depth⟩ = content.length +
                1 := by
            rw [List.append_nil, width_cons, unclosed]
            rfl
          have here := ambiguous_iff after width_eq false
          rw [List.append_nil] at here
          rw [bytes, spell_nil, List.append_nil, literals_unclosed _ _ _ _ follows.1 unclosed,
            List.exists_mem_cons_iff, here, item?, Option.toList_some, List.singleton_append,
            Item.tally_cons_pos]
          simp [Token.items]

/-- A backslash leaves open where a literal ends when an item says so. -/
theorem ambiguousBackslash?_iff_tally (text : Text) : (ambiguousBackslash? text).isSome = true ↔
    0 < Item.tally Feature.ambiguous false text.items := by
  rw [ambiguousBackslash?_isSome_iff]
  conv => lhs; rw [← spell_tokens text]
  exact exists_ambiguous_spell After.nil (lexed_tokens text) 0 0

/-- Where the semicolon that ends a text is the only one, nothing follows it. -/
theorem isStacked_of_tally_le {text : Text} (ended : Ended 1 text) (closed : Closed (start text))
    (one : Item.tally Feature.terminator false text.items ≤ 1) : Policy.isStacked text = false := by
  obtain ⟨front, rfl, -⟩ := ended
  rw [List.replicate_one] at closed one ⊢
  have plain : ∀ byte ∈ [Byte.semicolon], byte.isQuote = false := List.forall_mem_singleton.mpr rfl
  have front_closed : Closed (start front) := closed_of_append_plain plain closed
  have seam : Seam (front.reverse ++ []) [Byte.semicolon] :=
    Seam.of_plain_head (by decide) (by decide) _ _
  have nothing : semicolons front = [] := by
    rw [items_append front_closed (by simpa using seam), items_byte (by decide) (by decide),
      Item.tally_append] at one
    rw [← List.length_eq_zero_iff, length_semicolons]
    have last : Item.tally Feature.terminator false
        (if Byte.semicolon.isSpace then [] else [.byte Byte.semicolon]) = 1 :=
      rfl
    have same : Item.opens false (if Byte.semicolon.isSpace then [] else [.byte Byte.semicolon]) =
        false := rfl
    rw [last, same] at one
    omega
  have split : (start (front ++ [Byte.semicolon])).code =
      (start front).code.map (extend [Byte.semicolon]) ++ _ := code_append 0 0 front_closed seam
  refine Bool.eq_false_iff.mpr fun stacked => ?_
  obtain ⟨site, member, terminates, byte, byte_mem, -, other⟩ := (Policy.isStacked_iff _).mp stacked
  rw [split, List.mem_append] at member
  rcases member with within | last
  · obtain ⟨place, place_mem, rfl⟩ := List.mem_map.mp within
    rw [byte?_extend (rest_ne_nil_of_mem_walk (List.mem_filter.mp place_mem).1)] at terminates
    have found : place.offset ∈ semicolons front :=
      List.mem_map_of_mem (List.mem_filter.mpr ⟨place_mem, by simp [terminates]⟩)
    simp [nothing] at found
  · rw [code_cons _ _ _ _ (by decide), code_nil, List.mem_singleton] at last
    subst last
    exact other (List.mem_singleton.mp byte_mem)

end Text

end TenantScope
