import TenantScope.Proofs.Lexemes
import TenantScope.Word

/-!
# Occurrences of names

A name is a word that holds no blank, such as a keyword of one word or a column.  It occurs at a
place when the whole word that begins there is the name in some case, so at most one name occurs at
a place and none in the middle of a word.  A phrase, such as `GROUP BY`, is two names with white
space between them.
-/

namespace TenantScope

namespace Byte

private theorem toUpper_agrees : ∀ byte : Byte,
    byte.toUpper.isIdentifier = byte.isIdentifier ∧ byte.toUpper.toUpper = byte.toUpper := by
  decide +kernel

theorem isIdentifier_toUpper (byte : Byte) : byte.toUpper.isIdentifier = byte.isIdentifier :=
  (toUpper_agrees byte).1

theorem toUpper_toUpper (byte : Byte) : byte.toUpper.toUpper = byte.toUpper :=
  (toUpper_agrees byte).2

theorem isIdentifier_blank : Byte.isIdentifier Byte.blank = false := by
  decide

end Byte

namespace Text

/-- A text of one or more bytes of words. -/
structure IsName (text : Text) : Prop where
  nonempty : text ≠ []
  identifiers : ∀ byte ∈ text, byte.isIdentifier = true

instance (text : Text) : Decidable (IsName text) :=
  decidable_of_iff (text ≠ [] ∧ text.all Byte.isIdentifier = true)
    ⟨fun ⟨nonempty, identifiers⟩ => ⟨nonempty, List.all_eq_true.mp identifiers⟩,
      fun name => ⟨name.nonempty, List.all_eq_true.mpr name.identifiers⟩⟩

theorem IsName.upper {text : Text} (name : IsName text) : IsName (upper text) where
  nonempty := by simpa [Text.upper] using name.nonempty
  identifiers byte member := by
    obtain ⟨original, original_mem, rfl⟩ := List.mem_map.mp member
    rw [Byte.isIdentifier_toUpper]
    exact name.identifiers original original_mem

/-- Length of the rest of the word that an index lies in. -/
def wordLength (text : Text) (index : Nat) : Nat :=
  ((text.drop index).takeWhile Byte.isIdentifier).length

theorem exists_identifier {text : Text} {index place : Nat} (begun : index ≤ place)
    (inside : place < index + wordLength text index) :
    ∃ byte, text[place]? = some byte ∧ byte.isIdentifier = true := by
  have within : place - index < ((text.drop index).takeWhile Byte.isIdentifier).length := by
    change _ < wordLength text index
    omega
  have identifier := List.mem_takeWhile_imp (List.getElem_mem within)
  rw [(List.takeWhile_prefix _).getElem, List.getElem_drop] at identifier
  have position : index + (place - index) = place := by omega
  simp only [position] at identifier
  exact ⟨_, List.getElem?_eq_getElem _, identifier⟩

end Text

namespace Word

open Text

theorem spelled?_cons {letter : Byte} (not_blank : letter ≠ Byte.blank) (keyword : Text)
    (byte : Byte) (rest : Text) :
    spelled? (letter :: keyword) (byte :: rest) =
      if byte.toUpper = letter then
        (spelled? keyword rest).map fun (length, after) => (length + 1, after)
      else none := by
  conv => lhs; unfold spelled?
  simp [not_blank]

/-- A word without blanks is spelled by bytes whose upper-case forms are its letters. -/
theorem spelled?_of_plain {name text after : Text} {length : Nat}
    (plain : ∀ letter ∈ name, letter ≠ Byte.blank) :
    spelled? name text = some (length, after) ↔
      ∃ written, text = written ++ after ∧ upper written = name ∧ length = written.length := by
  induction name generalizing text length with
  | nil =>
      simp only [spelled?, Option.some.injEq, Prod.mk.injEq]
      constructor
      · rintro ⟨rfl, rfl⟩
        exact ⟨[], rfl, rfl, rfl⟩
      · rintro ⟨written, rfl, empty, rfl⟩
        obtain rfl : written = [] := by simpa [upper] using empty
        exact ⟨rfl, rfl⟩
  | cons letter name ih =>
      obtain ⟨not_blank, plain⟩ := List.forall_mem_cons.mp plain
      cases text with
      | nil => simp [spelled?, not_blank, upper]
      | cons byte rest =>
          rw [spelled?_cons not_blank]
          split
          · rename_i same
            simp only [Option.map_eq_some_iff, Prod.exists, Prod.mk.injEq]
            constructor
            · rintro ⟨inner, rest_after, found, rfl, rfl⟩
              obtain ⟨written, rfl, rfl, rfl⟩ := (ih plain).mp found
              exact ⟨byte :: written, rfl, by simp [upper, same], rfl⟩
            · rintro ⟨written, text_eq, name_eq, rfl⟩
              cases written with
              | nil => simp [upper] at name_eq
              | cons first written =>
                  simp only [List.cons_append, List.cons.injEq] at text_eq
                  simp only [upper, List.map_cons, List.cons.injEq] at name_eq
                  exact ⟨written.length, after,
                    (ih plain).mpr ⟨written, text_eq.2, name_eq.2, rfl⟩, rfl, rfl⟩
          · rename_i differs
            simp only [reduceCtorEq, false_iff, not_exists]
            rintro written ⟨text_eq, name_eq, -⟩
            cases written with
            | nil => simp [upper] at name_eq
            | cons first written =>
                simp only [List.cons_append, List.cons.injEq] at text_eq
                simp only [upper, List.map_cons, List.cons.injEq] at name_eq
                exact differs (text_eq.1 ▸ name_eq.1)

theorem ne_blank_of_identifiers {name : Text}
    (identifiers : ∀ letter ∈ name, letter.isIdentifier = true) :
    ∀ letter ∈ name, letter ≠ Byte.blank := by
  rintro letter member rfl
  exact absurd (identifiers _ member) (by decide)

/-- A name is spelled by bytes whose upper-case forms are its letters. -/
theorem spelled?_eq_some {name text after : Text} {length : Nat}
    (identifiers : ∀ letter ∈ name, letter.isIdentifier = true) :
    spelled? name text = some (length, after) ↔
      ∃ written, text = written ++ after ∧ upper written = name ∧ length = written.length :=
  spelled?_of_plain (ne_blank_of_identifiers identifiers)

/-- A phrase is spelled when its two words are, with white space between them. -/
theorem spelled?_phrase {first second text after : Text} {total : Nat}
    (plain : ∀ letter ∈ first, letter ≠ Byte.blank) :
    spelled? (first ++ Byte.blank :: second) text = some (total, after) ↔
      ∃ length rest other, spelled? first text = some (length, rest) ∧
        rest.takeWhile Byte.isSpace ≠ [] ∧
        spelled? second (rest.dropWhile Byte.isSpace) = some (other, after) ∧
        total = length + ((rest.takeWhile Byte.isSpace).length + other) := by
  induction first generalizing text total with
  | nil =>
      simp only [List.nil_append, spelled?, beq_self_eq_true, if_true]
      cases gap : text.takeWhile Byte.isSpace with
      | nil =>
          simp only [reduceCtorEq, false_iff, not_exists]
          rintro length rest other ⟨same, gap_ne, -⟩
          obtain ⟨rfl, rfl⟩ : 0 = length ∧ text = rest := by simpa using same
          exact gap_ne gap
      | cons byte blanks =>
          constructor
          · intro found
            obtain ⟨⟨other, rest⟩, found_second, same⟩ := Option.map_eq_some_iff.mp found
            obtain ⟨rfl, rfl⟩ := Prod.mk.injEq .. ▸ same
            exact ⟨0, text, other, rfl, by rw [gap]; simp, found_second, by simp [gap]⟩
          · rintro ⟨length, rest, other, same, -, found_second, rfl⟩
            obtain ⟨rfl, rfl⟩ : 0 = length ∧ text = rest := by simpa using same
            simp [found_second, gap]
  | cons letter first ih =>
      obtain ⟨not_blank, plain⟩ := List.forall_mem_cons.mp plain
      cases text with
      | nil => simp [spelled?, not_blank]
      | cons byte text =>
          rw [List.cons_append, spelled?_cons not_blank, spelled?_cons not_blank]
          split
          · constructor
            · intro found
              obtain ⟨⟨inner, rest_after⟩, found_inner, same⟩ := Option.map_eq_some_iff.mp found
              obtain ⟨rfl, rfl⟩ := Prod.mk.injEq .. ▸ same
              obtain ⟨length, rest, other, found_first, gap, found_second, inner_eq⟩ :=
                (ih plain).mp found_inner
              exact ⟨length + 1, rest, other, by simp [found_first], gap, found_second, by omega⟩
            · rintro ⟨length, rest, other, found_first, gap, found_second, rfl⟩
              obtain ⟨⟨inner, rest⟩, found_inner, same⟩ := Option.map_eq_some_iff.mp found_first
              obtain ⟨rfl, rfl⟩ := Prod.mk.injEq .. ▸ same
              rw [(ih plain).mpr ⟨inner, rest, other, found_inner, gap, found_second, rfl⟩]
              simp
              omega
          · simp

end Word

namespace Site

open Text

/-! ## The word at a place -/

/-- The word that begins at the place, in upper case; empty in the middle of a word. -/
def spoken (site : Site) : Text :=
  if site.afterIdentifier then [] else upper (site.rest.takeWhile Byte.isIdentifier)

/-- The word after the one at the place and the white space that follows it, in upper case. -/
def nextSpoken (site : Site) : Text :=
  upper (((site.rest.dropWhile Byte.isIdentifier).dropWhile Byte.isSpace).takeWhile
    Byte.isIdentifier)

theorem takeWhile_isIdentifier_append {written after : Text}
    (identifiers : ∀ byte ∈ written, byte.isIdentifier = true)
    (ends : after.head?.any Byte.isIdentifier = false) :
    (written ++ after).takeWhile Byte.isIdentifier = written := by
  rw [List.takeWhile_append_of_pos identifiers]
  cases after with
  | nil => simp
  | cons byte rest => simpa using ends

theorem dropWhile_isIdentifier_append {written after : Text}
    (identifiers : ∀ byte ∈ written, byte.isIdentifier = true)
    (ends : after.head?.any Byte.isIdentifier = false) :
    (written ++ after).dropWhile Byte.isIdentifier = after := by
  rw [List.dropWhile_append_of_pos identifiers]
  cases after with
  | nil => simp
  | cons byte rest => simpa using ends

theorem isIdentifier_of_upper_eq {name written : Text}
    (identifiers : ∀ letter ∈ name, letter.isIdentifier = true) (same : upper written = name) :
    ∀ byte ∈ written, byte.isIdentifier = true := by
  intro byte member
  rw [← Byte.isIdentifier_toUpper]
  exact identifiers _ (same ▸ List.mem_map_of_mem member)

theorem head?_dropWhile_isIdentifier (text : Text) :
    (text.dropWhile Byte.isIdentifier).head?.any Byte.isIdentifier = false := by
  have stops := List.head?_dropWhile_not Byte.isIdentifier text
  cases head_eq : (text.dropWhile Byte.isIdentifier).head? with
  | none => rfl
  | some byte => simpa [head_eq] using stops

/-- A text that begins with a byte of a word begins with a whole word. -/
theorem exists_leading_word {byte : Byte} (identifier : byte.isIdentifier = true) (rest : Text) :
    ∃ written after, byte :: rest = written ++ after ∧ IsName written ∧
      after.head?.any Byte.isIdentifier = false := by
  refine ⟨(byte :: rest).takeWhile Byte.isIdentifier, (byte :: rest).dropWhile Byte.isIdentifier,
    List.takeWhile_append_dropWhile.symm, ⟨?_, fun other member => List.mem_takeWhile_imp member⟩,
    head?_dropWhile_isIdentifier _⟩
  rw [List.takeWhile_cons_of_pos identifier]
  exact List.cons_ne_nil _ _

/-- The words of a text from a place on: a name is spelled there, as a whole word, when
it is the word there. -/
theorem spelled?_whole {name : Text} (identifiers : ∀ letter ∈ name, letter.isIdentifier = true)
    (text : Text) :
    (∃ after, Word.spelled? name text = some (name.length, after) ∧
      after.head?.any Byte.isIdentifier = false) ↔
      upper (text.takeWhile Byte.isIdentifier) = name := by
  constructor
  · rintro ⟨after, found, ends⟩
    obtain ⟨written, rfl, rfl, -⟩ := (Word.spelled?_eq_some identifiers).mp found
    rw [takeWhile_isIdentifier_append (isIdentifier_of_upper_eq identifiers rfl) ends]
  · intro same
    refine ⟨text.dropWhile Byte.isIdentifier, (Word.spelled?_eq_some identifiers).mpr
      ⟨text.takeWhile Byte.isIdentifier, List.takeWhile_append_dropWhile.symm, same, ?_⟩,
      head?_dropWhile_isIdentifier text⟩
    rw [← same, length_upper]

/-- A name occurs at a place when it is the word there. -/
theorem word?_of_isName {name : Text} (is_name : IsName name) (site : Site) :
    site.word? name = if site.spoken = name then some name.length else none := by
  have not_empty : name.isEmpty = false := by simpa using is_name.nonempty
  unfold word? spoken
  cases site.afterIdentifier with
  | true => simp [is_name.nonempty.symm]
  | false =>
      simp only [not_empty, Bool.false_or, Bool.or_false, Bool.false_eq_true, if_false]
      have whole := spelled?_whole is_name.identifiers site.rest
      by_cases same : upper (site.rest.takeWhile Byte.isIdentifier) = name
      · obtain ⟨after, found, ends⟩ := whole.mpr same
        have rest_ne : site.rest.isEmpty = false := by
          refine Bool.eq_false_iff.mpr fun empty => is_name.nonempty ?_
          rw [← same, List.isEmpty_iff.mp empty]
          rfl
        simp [same, found, ends, rest_ne]
      · rw [if_neg same]
        split
        · rfl
        · cases found : Word.spelled? name site.rest with
          | none => rfl
          | some result =>
              obtain ⟨length, after⟩ := result
              obtain ⟨written, -, name_eq, length_eq⟩ :=
                (Word.spelled?_eq_some is_name.identifiers).mp found
              have length_name : length = name.length := by
                rw [length_eq, ← name_eq, length_upper]
              subst length_name
              simp only
              split
              · rfl
              · rename_i ends
                exact absurd (whole.mp ⟨after, found, by simpa using ends⟩) same

theorem hasWord_of_isName {name : Text} (is_name : IsName name) (site : Site) :
    site.hasWord name = true ↔ site.spoken = name := by
  rw [hasWord, word?_of_isName is_name]
  split <;> simp_all

theorem hasWord_iff {keyword : Text} {site : Site} :
    site.hasWord keyword = true ↔
      keyword ≠ [] ∧ site.rest ≠ [] ∧ site.afterIdentifier = false ∧
        ∃ length after, Word.spelled? keyword site.rest = some (length, after) ∧
          after.head?.any Byte.isIdentifier = false := by
  unfold hasWord word?
  cases site.afterIdentifier with
  | true => simp
  | false =>
      by_cases keyword_nil : keyword = []
      · simp [keyword_nil]
      by_cases rest_nil : site.rest = []
      · simp [rest_nil]
      cases found : Word.spelled? keyword site.rest with
      | none => simp
      | some result =>
          obtain ⟨length, after⟩ := result
          cases ends : after.head?.any Byte.isIdentifier <;>
            simp_all [List.isEmpty_eq_false_iff.mpr keyword_nil,
              List.isEmpty_eq_false_iff.mpr rest_nil]

/-- Between the first and the second word of a phrase there is white space. -/
private theorem takeWhile_isSpace_ne_nil {rest : Text}
    (ends : rest.head?.any Byte.isIdentifier = false)
    (next : (rest.dropWhile Byte.isSpace).takeWhile Byte.isIdentifier ≠ []) :
    rest.takeWhile Byte.isSpace ≠ [] := by
  cases rest with
  | nil => simp at next
  | cons byte rest =>
      have plain : byte.isIdentifier = false := by simpa using ends
      cases space : byte.isSpace with
      | true => simp [space]
      | false => simp [space, plain] at next

private theorem head?_of_takeWhile_isSpace {rest : Text} (gap : rest.takeWhile Byte.isSpace ≠ []) :
    rest.head?.any Byte.isIdentifier = false := by
  cases rest with
  | nil => rfl
  | cons byte rest =>
      cases space : byte.isSpace with
      | true => simpa using Byte.isIdentifier_of_isSpace byte space
      | false => simp [space] at gap

/-- A phrase occurs at a place when its first word is the word there and its second the next one. -/
theorem hasWord_phrase {first second : Text} (is_first : IsName first) (is_second : IsName second)
    (site : Site) :
    site.hasWord (first ++ Byte.blank :: second) = true ↔
      site.spoken = first ∧ site.nextSpoken = second := by
  rw [hasWord_iff, spoken, nextSpoken]
  constructor
  · rintro ⟨-, -, begins, length, after, found, ends⟩
    obtain ⟨length, rest, other, found_first, gap, found_second, -⟩ :=
      (Word.spelled?_phrase (Word.ne_blank_of_identifiers is_first.identifiers)).mp found
    obtain ⟨written, rest_eq, rfl, -⟩ := (Word.spelled?_eq_some is_first.identifiers).mp found_first
    obtain ⟨next, dropped_eq, rfl, -⟩ :=
      (Word.spelled?_eq_some is_second.identifiers).mp found_second
    have identifiers := isIdentifier_of_upper_eq is_first.identifiers rfl
    have written_ends := head?_of_takeWhile_isSpace gap
    rw [begins, rest_eq, takeWhile_isIdentifier_append identifiers written_ends,
      dropWhile_isIdentifier_append identifiers written_ends, dropped_eq,
      takeWhile_isIdentifier_append (isIdentifier_of_upper_eq is_second.identifiers rfl) ends]
    exact ⟨rfl, rfl⟩
  · rintro ⟨first_eq, second_eq⟩
    have begins : site.afterIdentifier = false := by
      cases begins : site.afterIdentifier with
      | false => rfl
      | true => exact absurd (by simpa [begins] using first_eq.symm) is_first.nonempty
    rw [begins, if_neg (by simp)] at first_eq
    obtain ⟨after, found_second, ends⟩ := (spelled?_whole is_second.identifiers _).mpr second_eq
    have found_first : Word.spelled? first site.rest =
        some (first.length, site.rest.dropWhile Byte.isIdentifier) :=
      (Word.spelled?_eq_some is_first.identifiers).mpr
        ⟨_, List.takeWhile_append_dropWhile.symm, first_eq, by rw [← first_eq, length_upper]⟩
    have gap := takeWhile_isSpace_ne_nil (head?_dropWhile_isIdentifier site.rest) fun nothing =>
      is_second.nonempty (by rw [← second_eq, nothing]; rfl)
    refine ⟨by simp, fun empty => is_first.nonempty ?_, begins, _, after,
      (Word.spelled?_phrase (Word.ne_blank_of_identifiers is_first.identifiers)).mpr
        ⟨_, _, _, found_first, gap, found_second, rfl⟩, ends⟩
    rw [← first_eq, empty]
    rfl

/-- A word begins with a byte of words. -/
theorem exists_of_spoken_ne {site : Site} (spoken_ne : site.spoken ≠ []) :
    site.afterIdentifier = false ∧
      ∃ byte rest, site.rest = byte :: rest ∧ byte.isIdentifier = true := by
  unfold spoken at spoken_ne
  split at spoken_ne
  · exact absurd rfl spoken_ne
  · rename_i begins
    refine ⟨by simpa using begins, ?_⟩
    cases rest_eq : site.rest with
    | nil => simp [rest_eq, upper] at spoken_ne
    | cons byte rest =>
        cases word : byte.isIdentifier with
        | true => exact ⟨byte, rest, rfl, word⟩
        | false => simp [rest_eq, word, upper] at spoken_ne

theorem not_atParen_of_spoken_ne {site : Site} (spoken_ne : site.spoken ≠ []) :
    site.atParen = false := by
  obtain ⟨-, byte, rest, rest_eq, word⟩ := exists_of_spoken_ne spoken_ne
  simpa [atParen, byte?, rest_eq] using Byte.not_paren_of_isIdentifier byte word

theorem length_spoken_le (site : Site) : site.spoken.length ≤ site.rest.length := by
  unfold spoken
  split
  · simp
  · simpa using (List.takeWhile_sublist _).length_le

/-- The word at a place is made of the bytes there. -/
theorem isIdentifier_of_mem_take {site : Site} {byte : Byte}
    (member : byte ∈ site.rest.take site.spoken.length) : byte.isIdentifier = true := by
  unfold spoken at member
  split at member
  · simp at member
  · rw [length_upper, ← List.prefix_iff_eq_take.mp (List.takeWhile_prefix _)] at member
    exact List.mem_takeWhile_imp member

/-! ## Words in a longer text -/

private theorem takeWhile_isIdentifier_of_seam {back rest after : Text} (rest_ne : rest ≠ [])
    (seam : Seam (rest.reverse ++ back) after) :
    (rest ++ after).takeWhile Byte.isIdentifier = rest.takeWhile Byte.isIdentifier := by
  rw [List.takeWhile_append]
  split
  · rename_i whole
    have identifiers : ∀ byte ∈ rest, byte.isIdentifier = true := by
      rw [← (List.takeWhile_prefix _).eq_of_length whole]
      exact fun byte member => List.mem_takeWhile_imp member
    obtain ⟨first, last, rfl⟩ := (List.eq_nil_or_concat rest).resolve_left rest_ne
    have ends : after.head?.any Byte.isIdentifier = false :=
      seam.word (by simpa using identifiers last (by simp))
    have nothing : after.takeWhile Byte.isIdentifier = [] := by
      simpa using takeWhile_isIdentifier_append (List.forall_mem_nil _) ends
    rw [nothing, List.append_nil, List.takeWhile_eq_self_iff.mpr identifiers]
  · rfl

private theorem dropWhile_isIdentifier_of_seam {back rest after : Text} (rest_ne : rest ≠ [])
    (seam : Seam (rest.reverse ++ back) after) :
    (rest ++ after).dropWhile Byte.isIdentifier = rest.dropWhile Byte.isIdentifier ++ after := by
  have split := takeWhile_isIdentifier_of_seam rest_ne seam
  have whole := List.takeWhile_append_dropWhile (p := Byte.isIdentifier) (l := rest ++ after)
  have part := List.takeWhile_append_dropWhile (p := Byte.isIdentifier) (l := rest)
  rw [split] at whole
  refine List.append_cancel_left (whole.trans ?_)
  rw [← List.append_assoc, part]

/-- What comes after a seam does not change the words before it. -/
theorem spoken_extend {site : Site} {after : Text} (rest_ne : site.rest ≠ [])
    (seam : Seam (site.rest.reverse ++ site.back) after) :
    (site.extend after).spoken = site.spoken := by
  simp only [spoken, extend, takeWhile_isIdentifier_of_seam rest_ne seam]
  rfl

/-- What comes before a seam does not change the words after it. -/
theorem spoken_precede {site : Site} {before : Text} (offset : Nat)
    (begins : site.back = [] → site.rest.head?.any Byte.isIdentifier = true →
      before.head?.any Byte.isIdentifier = false) :
    (site.precede before offset).spoken = site.spoken := by
  cases back_eq : site.back with
  | cons byte back => simp [spoken, precede, afterIdentifier, previous?, back_eq]
  | nil =>
      have fresh : site.afterIdentifier = false := by simp [afterIdentifier, previous?, back_eq]
      cases word : site.rest.head?.any Byte.isIdentifier with
      | true =>
          have preceded : (site.precede before offset).afterIdentifier = false := by
            simpa [afterIdentifier, previous?, precede, back_eq] using begins back_eq word
          rw [spoken, spoken, fresh, preceded]
          rfl
      | false =>
          have nothing : site.rest.takeWhile Byte.isIdentifier = [] := by
            cases rest_eq : site.rest with
            | nil => rfl
            | cons byte rest => simpa [rest_eq] using word
          simp [spoken, precede, nothing, upper]

/-- The last letters of `GROUP` and `ORDER`. -/
def endsPhraseWord (byte : Byte) : Bool :=
  byte.toUpper == Byte.ofChar 'P' || byte.toUpper == Byte.ofChar 'R'

/-- The first letter of `BY`. -/
def beginsPhraseWord (byte : Byte) : Bool :=
  byte.toUpper == Byte.ofChar 'B'

/-- A seam at which no phrase runs on either. -/
structure Break (back text : Text) : Prop extends Seam back text where
  /-- What comes before does not end in the first word of a phrase, or what follows does not begin
  with the second one. -/
  phrase : (back.dropWhile Byte.isSpace).head?.any endsPhraseWord = true →
    (text.dropWhile Byte.isSpace).head?.any beginsPhraseWord = false

theorem Break.of_blank_right {text : Text} (blank : ∀ byte ∈ text, byte.isSpace = true)
    (back : Text) : Break back text where
  toSeam := Seam.of_blank_right blank back
  phrase _ := by simp [List.dropWhile_eq_nil_iff.mpr blank]

private theorem isIdentifier_of_phraseWord : ∀ byte : Byte,
    (endsPhraseWord byte = true → byte.isIdentifier = true) ∧
      (beginsPhraseWord byte = true → byte.isIdentifier = true) := by
  decide +kernel

theorem isIdentifier_of_endsPhraseWord (byte : Byte) :
    endsPhraseWord byte = true → byte.isIdentifier = true :=
  (isIdentifier_of_phraseWord byte).1

theorem isIdentifier_of_beginsPhraseWord (byte : Byte) :
    beginsPhraseWord byte = true → byte.isIdentifier = true :=
  (isIdentifier_of_phraseWord byte).2

/-- Anything may follow a visible byte that belongs to no word and to no literal. -/
theorem Break.of_plain_last {byte : Byte} (identifier : byte.isIdentifier = false)
    (quote : byte.isQuote = false) (visible : byte.isSpace = false) (back text : Text) :
    Break (byte :: back) text where
  toSeam := Seam.of_plain_last identifier quote back text
  phrase ends := by
    rw [List.dropWhile_cons_of_neg (by simp [visible])] at ends
    simp [isIdentifier_of_endsPhraseWord byte (by simpa using ends)] at identifier

/-- A visible byte that belongs to no word and to no literal may follow anything. -/
theorem Break.of_plain_head {byte : Byte} (identifier : byte.isIdentifier = false)
    (quote : byte.isQuote = false) (visible : byte.isSpace = false) (back rest : Text) :
    Break back (byte :: rest) where
  toSeam := Seam.of_plain_head identifier quote back rest
  phrase _ := by
    rw [List.dropWhile_cons_of_neg (by simp [visible])]
    refine Bool.eq_false_iff.mpr fun begins => ?_
    simp [isIdentifier_of_beginsPhraseWord byte (by simpa using begins)] at identifier

/-- A word that ends in the last letter of a phrase's first word is no word of white space. -/
theorem head?_dropWhile_of_word {written gap first : Text} {last : Byte} (back : Text)
    (written_eq : upper written = first ++ [last])
    (identifiers : ∀ byte ∈ written, byte.isIdentifier = true)
    (blank : ∀ byte ∈ gap, byte.isSpace = true) :
    (((written ++ gap).reverse ++ back).dropWhile Byte.isSpace).head?.map Byte.toUpper =
      some last := by
  obtain ⟨written, byte, rfl⟩ := (List.eq_nil_or_concat written).resolve_left fun empty => by
    simp [empty, upper] at written_eq
  have not_space : byte.isSpace = false := by
    have word := identifiers byte (by simp)
    cases space : byte.isSpace with
    | false => rfl
    | true => simp [Byte.isIdentifier_of_isSpace byte space] at word
  have last_eq : byte.toUpper = last := by
    simpa [upper] using congrArg List.getLast? written_eq
  rw [List.reverse_append, List.append_assoc,
    List.dropWhile_append_of_pos (by simpa using blank)]
  simp [not_space, last_eq]

/-- After the first word of a phrase, a break keeps the second word on one side. -/
theorem nextSpoken_extend {site : Site} {after first : Text} {last : Byte}
    (rest_ne : site.rest ≠ []) (broken : Break (site.rest.reverse ++ site.back) after)
    (spoken_eq : site.spoken = first ++ [last]) (ends : endsPhraseWord last = true) :
    (site.extend after).nextSpoken = ascii "BY" ↔ site.nextSpoken = ascii "BY" := by
  have word_eq : upper (site.rest.takeWhile Byte.isIdentifier) = first ++ [last] := by
    rw [spoken] at spoken_eq
    split at spoken_eq
    · simp at spoken_eq
    · exact spoken_eq
  have split := List.takeWhile_append_dropWhile (p := Byte.isIdentifier) (l := site.rest)
  have dropped := dropWhile_isIdentifier_of_seam rest_ne broken.toSeam
  simp only [nextSpoken, extend, dropped]
  by_cases blank : ∀ byte ∈ site.rest.dropWhile Byte.isIdentifier, byte.isSpace = true
  · -- What precedes the break ends in the first word and white space.
    have last_eq := head?_dropWhile_of_word site.back word_eq
      (fun _ member => List.mem_takeWhile_imp member) blank
    rw [split] at last_eq
    have phrase := broken.phrase (by
      cases head_eq : ((site.rest.reverse ++ site.back).dropWhile Byte.isSpace).head? with
      | none => simp [head_eq] at last_eq
      | some byte =>
          obtain rfl : byte.toUpper = last := by simpa [head_eq] using last_eq
          simpa [endsPhraseWord, Byte.toUpper_toUpper] using ends)
    rw [List.dropWhile_append_of_pos blank, List.dropWhile_eq_nil_iff.mpr blank]
    constructor
    · intro second
      cases after_eq : after.dropWhile Byte.isSpace with
      | nil => simp [after_eq, upper, ascii] at second
      | cons byte rest =>
          rw [after_eq] at second phrase
          cases word : byte.isIdentifier with
          | false => simp [word, upper, ascii] at second
          | true =>
              have initial : byte.toUpper = Byte.ofChar 'B' := by
                simpa [word, upper, ascii] using congrArg List.head? second
              simp [beginsPhraseWord, initial] at phrase
    · intro second
      simp [upper, ascii] at second
  · have kept_ne : (site.rest.dropWhile Byte.isIdentifier).dropWhile Byte.isSpace ≠ [] :=
      fun empty =>
      blank (List.dropWhile_eq_nil_iff.mp empty)
    have gap_split := List.takeWhile_append_dropWhile (p := Byte.isSpace)
      (l := site.rest.dropWhile Byte.isIdentifier)
    have seam := broken.toSeam
    rw [← split, ← gap_split, List.reverse_append, List.reverse_append, List.append_assoc,
      List.append_assoc] at seam
    rw [List.dropWhile_append, if_neg (by simpa using kept_ne),
      takeWhile_isIdentifier_of_seam kept_ne seam]

/-! ## Words as units -/

open Literal in
/-- Induction along the words of a text: a whole word, another byte outside literals, a closed
literal, or a literal that runs to the end. -/
@[elab_as_elim]
theorem word_induction (dialect : Dialect) {motive : Text → Text → Prop}
    (nil : ∀ back, motive back [])
    (word : ∀ back written rest, IsName written → back.head?.any Byte.isIdentifier = false →
      rest.head?.any Byte.isIdentifier = false → motive (written.reverse ++ back) rest →
      motive back (written ++ rest))
    (plain : ∀ back byte rest, byte.isIdentifier = false → byte.isQuote = false →
      motive (byte :: back) rest → motive back (byte :: rest))
    (literal : ∀ back mark literal rest, mark.isQuote = true →
      closing? mark (escapesAfter dialect back mark) (literal ++ rest) = some literal.length →
      motive (literal.reverse ++ mark :: back) rest → motive back (mark :: (literal ++ rest)))
    (unclosed : ∀ back mark rest, mark.isQuote = true →
      closing? mark (escapesAfter dialect back mark) rest = none → motive back (mark :: rest))
    (back text : Text)
    (begins : back.head?.any Byte.isIdentifier = true →
      text.head?.any Byte.isIdentifier = false) : motive back text := by
  induction size : text.length using Nat.strongRecOn generalizing back text with
  | _ size ih =>
      subst size
      cases text with
      | nil => exact nil back
      | cons byte rest =>
          cases identifier : byte.isIdentifier with
          | true =>
              obtain ⟨written, after, split, name, ends⟩ := exists_leading_word identifier rest
              have shorter : after.length < (byte :: rest).length := by
                have positive := List.length_pos_iff.mpr name.nonempty
                rw [split, List.length_append]
                omega
              have starts : back.head?.any Byte.isIdentifier = false := by
                refine Bool.eq_false_iff.mpr fun inside => ?_
                simp [identifier] at begins
                exact absurd inside (by simpa using begins)
              rw [split]
              exact word back written after name starts ends (ih _ shorter _ _ (fun _ => ends) rfl)
          | false =>
              cases quote : byte.isQuote with
              | false =>
                  exact plain back byte rest identifier quote
                    (ih rest.length (by simp) (byte :: back) rest (by simp [identifier]) rfl)
              | true =>
                  cases closed : closing? byte (escapesAfter dialect back byte) rest with
                  | none => exact unclosed back byte rest quote closed
                  | some length =>
                      obtain ⟨content, after, rfl, content_closed⟩ := exists_of_closing? closed
                      have shorter : after.length < (byte :: (content ++ after)).length := by
                        rw [List.length_cons, List.length_append]
                        omega
                      have marked : (content.reverse ++ byte :: back).head? = some byte := by
                        have last := getLast?_take_of_closing? content_closed
                        rw [List.take_left] at last
                        rw [List.head?_append, List.head?_reverse, last, Option.some_or]
                      exact literal back byte content after quote content_closed
                        (ih _ shorter _ _ (by rw [marked]; simp [identifier]) rfl)

end Site

end TenantScope
