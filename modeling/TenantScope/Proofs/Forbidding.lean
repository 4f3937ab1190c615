import TenantScope.Proofs.Verdicts
import TenantScope.Settings

/-!
# Forbidden keywords that take effect

A forbidden keyword is looked for letter by letter, and a blank in it stands for white space in the
statement.  Written as words with one blank between each and the next it is found wherever these
words are said, whatever white space is between them.  Written in any other way it is not even found
in its own words.
-/

namespace TenantScope

open Text Site

/-! ## Words between white space -/

namespace Byte

private theorem toUpper_spaces : ∀ byte : Byte,
    byte.toUpper.isSpace = byte.isSpace ∧ (byte.isSpace = true → byte.toUpper = byte) := by
  decide +kernel

theorem isSpace_toUpper (byte : Byte) : byte.toUpper.isSpace = byte.isSpace :=
  (toUpper_spaces byte).1

theorem toUpper_of_isSpace {byte : Byte} : byte.isSpace = true → byte.toUpper = byte :=
  (toUpper_spaces byte).2

end Byte

namespace Text

/-- The runs of bytes between the white space of a text. -/
def words (text : Text) : List Text :=
  (text.splitOnP Byte.isSpace).filter fun word => !word.isEmpty

/-- Words with one blank between each and the next. -/
def phrase (words : List Text) : Text :=
  [Byte.blank].intercalate words

/-- The text is written as words with one blank between each and the next, one word at least. -/
structure IsPhrase (text : Text) : Prop where
  nonempty : words text ≠ []
  phrase_eq : phrase (words text) = text

instance (text : Text) : Decidable (IsPhrase text) :=
  decidable_of_iff (words text ≠ [] ∧ phrase (words text) = text)
    ⟨fun ⟨nonempty, phrase_eq⟩ => ⟨nonempty, phrase_eq⟩,
      fun written => ⟨written.nonempty, written.phrase_eq⟩⟩

/-- A nonempty run of bytes without white space. -/
structure IsSolid (word : Text) : Prop where
  nonempty : word ≠ []
  visible : ∀ byte ∈ word, byte.isSpace = false

theorem words_of_space {byte : Byte} (space : byte.isSpace = true) (text : Text) :
    words (byte :: text) = words text := by
  rw [words, List.splitOnP_cons_eq_if_modifyHead, if_pos space]
  rfl

theorem words_solid {word : Text} (solid : IsSolid word) : words word = [word] := by
  have kept : word.isEmpty = false := List.isEmpty_eq_false_iff.mpr solid.nonempty
  rw [words, List.splitOnP_eq_singleton solid.visible]
  simp [kept]

theorem words_solid_append {word : Text} (solid : IsSolid word) {byte : Byte}
    (space : byte.isSpace = true) (text : Text) :
    words (word ++ byte :: text) = word :: words text := by
  have kept : word.isEmpty = false := List.isEmpty_eq_false_iff.mpr solid.nonempty
  rw [words, List.splitOnP_append_cons_of_forall_mem solid.visible _ space]
  simp [kept, words]

/-- A text begins with white space, or with a word that white space or its end follows. -/
theorem words_induction {motive : Text → Prop} (nil : motive [])
    (space : ∀ byte text, byte.isSpace = true → motive text → motive (byte :: text))
    (last : ∀ word, IsSolid word → motive word)
    (next : ∀ word byte text, IsSolid word → byte.isSpace = true → motive text →
      motive (word ++ byte :: text))
    (text : Text) : motive text := by
  induction size : text.length using Nat.strongRecOn generalizing text with
  | _ size ih =>
      subst size
      cases text with
      | nil => exact nil
      | cons byte text =>
          cases first : byte.isSpace with
          | true => exact space byte text first (ih _ (by simp) text rfl)
          | false =>
              have split :=
                List.takeWhile_append_dropWhile (p := fun byte => !byte.isSpace) (l := byte :: text)
              have solid : IsSolid ((byte :: text).takeWhile fun byte => !byte.isSpace) :=
                ⟨by simp [first], fun other member => by simpa using List.mem_takeWhile_imp member⟩
              have stops :=
                List.head?_dropWhile_not (fun byte : Byte => !byte.isSpace) (byte :: text)
              rw [← split]
              cases rest_eq : (byte :: text).dropWhile fun byte => !byte.isSpace with
              | nil => rw [List.append_nil]; exact last _ solid
              | cons gap rest =>
                  rw [rest_eq] at stops
                  refine next _ _ _ solid (by simpa using stops) (ih _ ?_ rest rfl)
                  have whole := congrArg List.length split
                  rw [rest_eq, List.length_append, List.length_cons] at whole
                  omega

theorem isSolid_of_mem_words {text word : Text} (member : word ∈ words text) : IsSolid word := by
  induction text using words_induction with
  | nil => simp [words] at member
  | space byte text space ih => exact ih (words_of_space space text ▸ member)
  | last only solid =>
      rw [words_solid solid, List.mem_singleton] at member
      exact member ▸ solid
  | next first byte text solid space ih =>
      rw [words_solid_append solid space, List.mem_cons] at member
      exact member.elim (fun same => same ▸ solid) ih

@[simp]
theorem phrase_nil : phrase [] = [] :=
  rfl

@[simp]
theorem phrase_singleton (word : Text) : phrase [word] = word :=
  List.intercalate_singleton

theorem phrase_cons (word : Text) {words : List Text} (nonempty : words ≠ []) :
    phrase (word :: words) = word ++ Byte.blank :: phrase words := by
  obtain ⟨other, words, rfl⟩ := List.exists_cons_of_ne_nil nonempty
  simp [phrase, List.intercalate_cons_cons]

/-- Written as a phrase the words of a text take less room than the text, unless they are written
there with one byte of white space between each and the next. -/
theorem length_phrase_words (text : Text) :
    (phrase (words text)).length < text.length ∨
      (phrase (words text)).length = text.length ∧
        ((∀ byte ∈ text, byte.isSpace = true → byte = Byte.blank) →
          phrase (words text) = text) := by
  induction text using words_induction with
  | nil => exact .inr ⟨rfl, fun _ => rfl⟩
  | space byte text space ih =>
      rw [words_of_space space, List.length_cons]
      exact .inl (ih.elim (fun shorter => by omega) fun same => by omega)
  | last only solid =>
      exact .inr ⟨by rw [words_solid solid, phrase_singleton],
        fun _ => by rw [words_solid solid, phrase_singleton]⟩
  | next first byte text solid space ih =>
      rw [words_solid_append solid space]
      by_cases nothing : words text = []
      · rw [nothing, phrase_singleton, List.length_append, List.length_cons]
        exact .inl (by omega)
      · rw [phrase_cons first nothing, List.length_append, List.length_append, List.length_cons,
          List.length_cons]
        refine ih.imp (fun shorter => by omega) fun ⟨same, written⟩ => ⟨by omega, fun blanks => ?_⟩
        have gap := blanks byte (by simp) space
        rw [gap, written fun other member => blanks other (by simp [member])]

end Text

/-! ## Words that are said -/

namespace Text

/-- A text says words in their order and in any case, with white space between each and the next. -/
inductive Speaks : List Text → Text → Prop
  | last {word written : Text} : upper written = upper word → Speaks [word] written
  | next {word written gap rest : Text} {words : List Text} : upper written = upper word →
      gap ≠ [] →
      (∀ byte ∈ gap, byte.isSpace = true) → Speaks words rest →
      Speaks (word :: words) (written ++ (gap ++ rest))

/-- Words are said somewhere in the text, literals included, and no byte of
another word touches them. -/
structure Mentions (words : List Text) (before said after : Text) : Prop where
  speaks : Speaks words said
  begins : before.getLast?.any Byte.isIdentifier = false
  ends : after.head?.any Byte.isIdentifier = false

theorem isSolid_of_upper_eq {word written : Text} (solid : IsSolid word)
    (same : upper written = upper word) :
    IsSolid written where
  nonempty empty := solid.nonempty (by simpa [empty, upper] using same.symm)
  visible := by
    intro byte member
    have upper_mem : byte.toUpper ∈ upper word := same ▸ List.mem_map_of_mem member
    obtain ⟨other, other_mem, other_eq⟩ := List.mem_map.mp upper_mem
    rw [← Byte.isSpace_toUpper, ← other_eq, Byte.isSpace_toUpper]
    exact solid.visible other other_mem

section Speaks

variable {words : List Text} {said : Text} (solid : ∀ word ∈ words, IsSolid word)
  (speaks : Speaks words said)

include solid speaks

/-- Words that are said begin and end visibly. -/
theorem Speaks.visible :
    (∃ first rest, said = first :: rest ∧ first.isSpace = false) ∧
      ∃ front last, said = front ++ [last] ∧ last.isSpace = false := by
  induction speaks with
  | last same =>
      have written := isSolid_of_upper_eq (solid _ (by simp)) same
      refine ⟨?_, ?_⟩
      · obtain ⟨first, rest, rfl⟩ := List.exists_cons_of_ne_nil written.nonempty
        exact ⟨first, rest, rfl, written.visible first (by simp)⟩
      · obtain ⟨front, last, rfl⟩ := (List.eq_nil_or_concat _).resolve_left written.nonempty
        exact ⟨front, last, List.concat_eq_append, written.visible last (by simp)⟩
  | next same gap_ne gap speaks ih =>
      have written := isSolid_of_upper_eq (solid _ (by simp)) same
      obtain ⟨first, rest, rfl⟩ := List.exists_cons_of_ne_nil written.nonempty
      obtain ⟨-, front, last, said_eq, visible⟩ :=
        ih fun word member => solid word (by simp [member])
      exact ⟨⟨first, _, rfl, written.visible first (by simp)⟩, _, last,
        by rw [said_eq, ← List.append_assoc, ← List.append_assoc], visible⟩

/-- A keyword written as a phrase is spelled where its words are said. -/
theorem Speaks.spelled? (after : Text) :
    Word.spelled? (upper (phrase words)) (said ++ after) = some (said.length, after) := by
  have ne_blank {word : Text} (solid : IsSolid word) :
      ∀ letter ∈ upper word, letter ≠ Byte.blank := by
    rintro letter member rfl
    obtain ⟨byte, byte_mem, byte_eq⟩ := List.mem_map.mp member
    have space := Byte.isSpace_toUpper byte
    rw [byte_eq, solid.visible byte byte_mem] at space
    exact absurd space (by decide)
  induction speaks with
  | last same =>
      rw [phrase_singleton]
      exact (Word.spelled?_of_plain (ne_blank (solid _ (by simp)))).mpr ⟨_, rfl, same, rfl⟩
  | @next word written blanks rest words same blanks_ne blank speaks ih =>
      have first := solid word (by simp)
      have others := fun word member => solid word (List.mem_cons_of_mem _ member)
      have nonempty : words ≠ [] := by rintro rfl; cases speaks
      obtain ⟨⟨visible, later, rest_eq, is_visible⟩, -⟩ := speaks.visible others
      have upper_eq :
          upper (phrase (word :: words)) = upper word ++ Byte.blank :: upper (phrase words) := by
        rw [phrase_cons word nonempty, upper, List.map_append, List.map_cons]
        rfl
      have stops : (rest ++ after).takeWhile Byte.isSpace = [] ∧
          (rest ++ after).dropWhile Byte.isSpace = rest ++ after := by
        rw [rest_eq]
        simp [is_visible]
      rw [upper_eq, List.append_assoc, List.append_assoc]
      refine (Word.spelled?_phrase (ne_blank first)).mpr ⟨written.length, blanks ++ (rest ++ after),
        rest.length, (Word.spelled?_of_plain (ne_blank first)).mpr ⟨written, rfl, same, rfl⟩, ?_,
        ?_, ?_⟩
      · rw [List.takeWhile_append_of_pos blank]
        simp [blanks_ne]
      · rw [List.dropWhile_append_of_pos blank, stops.2]
        exact ih others
      · rw [List.takeWhile_append_of_pos blank, stops.1]
        simp

end Speaks

/-- The words of a text are said by it written as a phrase. -/
theorem speaks_phrase {words : List Text} (nonempty : words ≠ []) :
    Speaks words (phrase words) := by
  induction words with
  | nil => exact absurd rfl nonempty
  | cons word words ih =>
      by_cases last : words = []
      · rw [last, phrase_singleton]
        exact .last rfl
      · rw [phrase_cons word last]
        exact @Speaks.next word word [Byte.blank] (phrase words) words rfl (List.cons_ne_nil _ _)
          (List.forall_mem_singleton.mpr rfl) (ih last)

namespace Mentions

variable {words : List Text} {before said after : Text} (solid : ∀ word ∈ words, IsSolid word)
  (mentions : Mentions words before said after)

include solid mentions

/-- Trimming a text takes nothing of the words that are said in it. -/
theorem trim : ∃ before' after', (before ++ (said ++ after)).trim = before' ++ (said ++ after') ∧
    Mentions words before' said after' := by
  obtain ⟨⟨first, rest, said_first, first_visible⟩, front, last, said_last, last_visible⟩ :=
    mentions.speaks.visible solid
  obtain ⟨trail, trail_blank, after_eq⟩ := exists_trimRight_append after
  have before_eq := List.takeWhile_append_dropWhile (p := Byte.isSpace) (l := before)
  refine ⟨before.dropWhile Byte.isSpace, after.trimRight, ?_, mentions.speaks, ?_, ?_⟩
  · have whole : before ++ (said ++ after) = before.takeWhile Byte.isSpace ++
        ((before.dropWhile Byte.isSpace ++ (said ++ after.trimRight)) ++ trail) := by
      conv_lhs => rw [← before_eq, after_eq]
      simp only [List.append_assoc]
    rw [whole]
    refine trim_of_visible (fun _ => isSpace_of_mem_takeWhile) trail_blank (fun byte head_eq => ?_)
      fun byte last_eq => ?_
    · cases lead : before.dropWhile Byte.isSpace with
      | nil =>
          rw [lead, said_first] at head_eq
          exact Option.some.inj head_eq ▸ first_visible
      | cons other more =>
          have visible := List.head?_dropWhile_not Byte.isSpace before
          rw [lead] at head_eq visible
          exact Option.some.inj head_eq ▸ visible
    · cases trimmed : after.trimRight with
      | nil =>
          rw [trimmed, said_last, List.append_nil, ← List.append_assoc, List.getLast?_concat]
            at last_eq
          exact Option.some.inj last_eq ▸ last_visible
      | cons other more =>
          rw [trimmed, ← List.append_assoc,
            List.getLast?_append_of_ne_nil _ (List.cons_ne_nil other more),
            ← trimmed] at last_eq
          exact getLast?_trimRight byte last_eq
  · cases lead : before.dropWhile Byte.isSpace with
    | nil => rfl
    | cons other more =>
        have begins := mentions.begins
        rw [← before_eq, lead, List.getLast?_append_of_ne_nil _ (List.cons_ne_nil other more)]
          at begins
        exact begins
  · have ends := mentions.ends
    rw [after_eq] at ends
    cases trimmed : after.trimRight with
    | nil => rfl
    | cons other more =>
        rw [trimmed] at ends
        exact ends

/-- A keyword written as a phrase is where its words are said. -/
theorem hasWord :
    (atOffset (before ++ (said ++ after)) before.length).hasWord (upper (phrase words)) = true := by
  have place :
      atOffset (before ++ (said ++ after)) before.length =
        ⟨before.reverse, said ++ after, before.length, 0⟩ := by
    rw [atOffset, List.take_left, List.drop_left]
  have spelled := mentions.speaks.spelled? solid after
  obtain ⟨⟨first, rest, said_eq, -⟩, -⟩ := mentions.speaks.visible solid
  rw [place, hasWord_iff]
  refine ⟨fun empty => ?_, by simp [said_eq], ?_, said.length, after, spelled, mentions.ends⟩
  · rw [empty, said_eq] at spelled
    cases spelled
  · rw [afterIdentifier, previous?, List.head?_reverse]
    exact mentions.begins

end Mentions

/-! ## Keywords that are found in their own words -/

/-- The white space of a phrase is blanks. -/
theorem eq_blank_of_mem_phrase {words : List Text} (solid : ∀ word ∈ words, IsSolid word)
    {byte : Byte} (member : byte ∈ phrase words) (space : byte.isSpace = true) :
    byte = Byte.blank := by
  induction words with
  | nil => cases member
  | cons word words ih =>
      have visible (inside : byte ∈ word) : byte = Byte.blank :=
        absurd (space.symm.trans ((solid word (by simp)).visible byte inside)) Bool.noConfusion
      by_cases last : words = []
      · rw [last, phrase_singleton] at member
        exact visible member
      · rw [phrase_cons word last, List.mem_append, List.mem_cons] at member
        obtain inside | gap | later := member
        · exact visible inside
        · exact gap
        · exact ih (fun word listed => solid word (by simp [listed])) later

/-- A keyword is no longer than the text that spells it, and its white space is blanks when
that of the text is. -/
theorem spelled?_of_blanks {keyword text after : Text} {length : Nat}
    (blanks : ∀ byte ∈ text, byte.isSpace = true → byte = Byte.blank)
    (spelled : Word.spelled? keyword text = some (length, after)) :
    keyword.length ≤ text.length ∧ ∀ letter ∈ keyword, letter.isSpace = true →
    letter = Byte.blank := by
  induction keyword generalizing text length with
  | nil => exact ⟨Nat.zero_le _, fun _ member => absurd member List.not_mem_nil⟩
  | cons letter keyword ih =>
      rw [List.length_cons, List.forall_mem_cons]
      by_cases gap : letter = Byte.blank
      · simp only [Word.spelled?, gap, beq_self_eq_true, if_true] at spelled
        have parts := List.takeWhile_append_dropWhile (p := Byte.isSpace) (l := text)
        split at spelled
        · cases spelled
        · rename_i spaces_ne
          obtain ⟨⟨other, rest⟩, found, same⟩ := Option.map_eq_some_iff.mp spelled
          obtain ⟨-, rfl⟩ := Prod.mk.inj same
          obtain ⟨shorter, written⟩ := ih
            (fun byte member => blanks byte ((List.dropWhile_suffix _).subset member)) found
          have whole := congrArg List.length parts
          have positive := List.length_pos_iff.mpr spaces_ne
          rw [List.length_append] at whole
          exact ⟨by omega, fun _ => gap, written⟩
      · cases text with
        | nil => rw [Word.spelled?, if_neg (by simpa using gap)] at spelled; cases spelled
        | cons byte rest =>
            rw [Word.spelled?_cons gap] at spelled
            split at spelled
            · rename_i same
              obtain ⟨⟨other, _⟩, found, pair_eq⟩ := Option.map_eq_some_iff.mp spelled
              obtain ⟨-, rfl⟩ := Prod.mk.inj pair_eq
              obtain ⟨shorter, written⟩ := ih
                (fun other member => blanks other (List.mem_cons_of_mem byte member)) found
              refine ⟨Nat.succ_le_succ shorter, fun space => ?_, written⟩
              rw [← same, Byte.isSpace_toUpper] at space
              rw [← same, Byte.toUpper_of_isSpace space]
              exact blanks byte (by simp) space
            · cases spelled

/-- A keyword that is found in its own words is written as a phrase. -/
theorem isPhrase_of_hasWord {keyword : Text} (nonempty : words keyword ≠ []) {place : Nat}
    (found : (atOffset (phrase (words keyword)).trim place).hasWord (upper keyword) = true) :
    IsPhrase keyword where
  nonempty := nonempty
  phrase_eq := by
    obtain ⟨-, -, -, length, after, spelled, -⟩ := hasWord_iff.mp found
    obtain ⟨lead, trail, -, -, split⟩ := exists_trim_append (phrase (words keyword))
    have inside :
        (atOffset (phrase (words keyword)).trim place).rest <:+: phrase (words keyword) := by
      refine (List.drop_suffix place _).isInfix.trans ⟨lead, trail, ?_⟩
      rw [List.append_assoc, ← split]
    have solid := fun word => @isSolid_of_mem_words keyword word
    obtain ⟨shorter, blanks⟩ := spelled?_of_blanks
      (fun byte member => eq_blank_of_mem_phrase solid (inside.subset member)) spelled
    have bound := inside.length_le
    rw [length_upper] at shorter
    obtain longer | ⟨-, written⟩ := length_phrase_words keyword
    · omega
    · refine written fun byte member space => ?_
      have upper_blank :=
        blanks byte.toUpper (List.mem_map_of_mem member) (by rwa [Byte.isSpace_toUpper])
      rwa [Byte.toUpper_of_isSpace space] at upper_blank

end Text

/-! ## Keywords of a policy -/

namespace Policy

/-- A statement in which a forbidden keyword is at some place is rejected. -/
theorem exists_rejection_of_hasWord {policy : Policy} {keyword text : Text}
    (listed : keyword ∈ policy.keywords) {place : Nat}
    (found : (atOffset text.trim place).hasWord (upper keyword) = true) :
    ∃ rejection, policy.rejection? text = some rejection := by
  rw [← Option.isSome_iff_exists, ← Option.ne_none_iff_isSome]
  intro allowed
  rw [rejection?_eq_findSome?, List.findSome?_eq_none_iff] at allowed
  have silent := allowed .keyword (by decide)
  rw [Rule.rejection?, Option.map_eq_none_iff, firstKeyword?_eq_none_iff] at silent
  rw [silent (upper keyword) (List.mem_map_of_mem listed) place] at found
  cases found

end Policy

namespace Settings

/-- A keyword takes effect: it has words, and it is found in every statement in
which they are said. -/
def TakesEffect (keyword : Text) : Prop :=
  words keyword ≠ [] ∧ ∀ before said after, Mentions (words keyword) before said after →
    ∃ place, (atOffset (before ++ (said ++ after)).trim place).hasWord (upper keyword) = true

theorem takesEffect_iff (keyword : Text) : TakesEffect keyword ↔ IsPhrase keyword := by
  have solid := fun word => @isSolid_of_mem_words keyword word
  constructor
  · rintro ⟨nonempty, effective⟩
    obtain ⟨place, found⟩ :=
      effective [] (phrase (words keyword)) [] ⟨speaks_phrase nonempty, rfl, rfl⟩
    rw [List.append_nil, List.nil_append] at found
    exact isPhrase_of_hasWord nonempty found
  · rintro ⟨nonempty, phrase_eq⟩
    refine ⟨nonempty, fun before said after mentions => ?_⟩
    obtain ⟨before', after', trim_eq, mentions⟩ := mentions.trim solid
    exact ⟨before'.length, trim_eq ▸ phrase_eq ▸ mentions.hasWord solid⟩

/-- All keywords that are forbidden by default take effect. -/
theorem takesEffect_of_default : ∀ keyword ∈ ({} : Policy).keywords, TakesEffect keyword := by
  simp only [takesEffect_iff]
  decide

/-- Settings that are read, by any conventions, forbid something.  A keyword of theirs takes effect
when it is written as a phrase, and then every statement in which its words are said is rejected;
otherwise it is not even found in its own words. -/
theorem keywords_take_effect {path : Text} {document : Document} {settings : Settings}
    {conventions : Document.Conventions}
    (read : ofDocument path document conventions = .ok settings) :
    settings.rules.policy.keywords ≠ [] ∧
      ∀ keyword ∈ settings.rules.policy.keywords,
        (TakesEffect keyword ↔ IsPhrase keyword) ∧
          (IsPhrase keyword → ∀ before said after, Mentions (words keyword) before said after →
            ∃ rejection, settings.rules.policy.rejection? (before ++ (said ++ after)) =
              some rejection) := by
  refine ⟨?_, fun keyword listed =>
    ⟨takesEffect_iff keyword, fun written before said after mentions => ?_⟩⟩
  · have sound := fault?_of_ofDocument read
    intro nothing
    rw [fault?, nothing] at sound
    cases sound
  · obtain ⟨place, found⟩ := ((takesEffect_iff keyword).mpr written).2 before said after mentions
    exact Policy.exists_rejection_of_hasWord listed found

/-- A document that lists forbidden keywords and says nothing else. -/
def forbidding (keywords : List Text) : Document :=
  .mapping [(ascii "classifier",
    .mapping [(ascii "dangerous_keywords", .sequence (keywords.map .scalar))])]

/-- A document that forbids two phrases, and a statement that says one of them in a literal. -/
theorem keywords_take_effect_in_literal :
    ofDocument [] (forbidding [ascii "DROP", ascii "replace into"]) =
        .ok { rules := { policy := { keywords := [ascii "DROP", ascii "replace into"] } } } ∧
      IsPhrase (ascii "replace into") ∧
      Mentions (words (ascii "replace into")) (ascii "SELECT '") (ascii "Replace\n\tINTO")
        (ascii "' FROM t") ∧
      ∃ rejection, ({ keywords := [ascii "DROP", ascii "replace into"] } : Policy).rejection?
        (ascii "SELECT '" ++ (ascii "Replace\n\tINTO" ++ ascii "' FROM t")) = some rejection := by
  have read : ofDocument [] (forbidding [ascii "DROP", ascii "replace into"]) =
      .ok { rules := { policy := { keywords := [ascii "DROP", ascii "replace into"] } } } := rfl
  have said : Mentions (words (ascii "replace into")) (ascii "SELECT '") (ascii "Replace\n\tINTO")
      (ascii "' FROM t") :=
    ⟨@Speaks.next (ascii "replace") (ascii "Replace") (ascii "\n\t") (ascii "INTO") [ascii "into"]
      (by decide) (by decide) (List.all_eq_true.mp (by decide)) (.last (by decide)), by decide, by
        decide⟩
  exact ⟨read, by decide, said,
    ((keywords_take_effect read).2 (ascii "replace into") (by decide)).2 (by decide) _ _ _ said⟩

/-- Keywords that take no effect are read: one without words, and one with a blank behind its word,
which a statement then says and is allowed. -/
theorem keywords_without_effect :
    ofDocument [] (forbidding [[], ascii "DROP "]) =
        .ok { rules := { policy := { keywords := [[], ascii "DROP "] } } } ∧
      words [] = [] ∧
      Mentions (words (ascii "DROP ")) (ascii "SELECT a ") (ascii "drop") (ascii " FROM t") ∧
      ({ keywords := [[], ascii "DROP "] } : Policy).rejection?
        (ascii "SELECT a " ++ (ascii "drop" ++ ascii " FROM t")) = none := by
  have said : Mentions (words (ascii "DROP ")) (ascii "SELECT a ") (ascii "drop")
      (ascii " FROM t") :=
    ⟨.last (by decide), by decide, by decide⟩
  exact ⟨rfl, rfl, said, by decide +kernel⟩

end Settings

end TenantScope
