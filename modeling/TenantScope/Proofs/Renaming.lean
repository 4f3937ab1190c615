import Mathlib.Data.List.Forall2
import TenantScope.Proofs.Wording
import TenantScope.Repair.ColumnAlias

/-!
# Renaming columns in conditions

A column is renamed where it is a word of its own after a `WHERE` or an `AND` and before an equals
sign.  Nothing else of the text changes, so it is read as it was but for these words, and the signs
and the table of a query stay the same.
-/

namespace TenantScope

open Text Site Literal

namespace Token

/-! ## Renaming tokens -/

/-- A condition begins after the word. -/
def introduces (written : Text) : Bool :=
  upper written == ascii "WHERE" || upper written == ascii "AND"

/-- An equals sign comes next after white space. -/
def comparedNext : List Token → Bool
  | byte plain :: tokens => if plain.isSpace then comparedNext tokens else plain == Byte.equals
  | _ => false

section Rename

variable (column replacement : Text)

/-- The word at the beginning of a condition, or its replacement if it is the column, given in upper
case, and is compared. -/
def renamed (follows : Bool) (written : Text) (tokens : List Token) : Text :=
  if follows && upper written == column && comparedNext tokens then replacement else written

/-- The tokens with the column replaced where it begins a condition and is compared; `follows` tells
that a `WHERE` or an `AND` has come before. -/
def rename : (follows : Bool) → List Token → List Token
  | _, [] => []
  | follows, word written :: tokens =>
      word (renamed column replacement follows written tokens) :: rename (introduces written) tokens
  | follows, byte plain :: tokens => byte plain :: rename (follows && plain.isSpace) tokens
  | _, literal mark content :: tokens => literal mark content :: rename false tokens
  | _, remnant mark content :: tokens => remnant mark content :: rename false tokens

/-- Offsets of the words that are replaced in tokens that begin at `offset`. -/
def renamedPlaces : (follows : Bool) → (offset : Nat) → List Token → List Nat
  | _, _, [] => []
  | follows, offset, word written :: tokens =>
      (if follows && upper written == column && comparedNext tokens then some offset
        else none).toList ++
        renamedPlaces (introduces written) (offset + written.length) tokens
  | follows, offset, byte plain :: tokens =>
      renamedPlaces (follows && plain.isSpace) (offset + 1) tokens
  | _, offset, literal _ content :: tokens =>
      renamedPlaces false (offset + (content.length + 1)) tokens
  | _, offset, remnant _ content :: tokens =>
      renamedPlaces false (offset + (content.length + 1)) tokens

end Rename

/-- Where no word is replaced, the tokens stay. -/
theorem rename_of_renamedPlaces {column : Text} (replacement : Text) {follows : Bool} {offset : Nat}
    {tokens : List Token} (nowhere : renamedPlaces column follows offset tokens = []) :
    rename column replacement follows tokens = tokens := by
  induction tokens generalizing follows offset with
  | nil => rfl
  | cons token tokens ih =>
      cases token with
      | word written =>
          rw [renamedPlaces, List.append_eq_nil_iff] at nowhere
          rw [rename, renamed, ih nowhere.2]
          split
          · rename_i found
            rw [if_pos found] at nowhere
            exact absurd nowhere.1 (List.cons_ne_nil _ _)
          · rfl
      | _ => exact congrArg (List.cons _) (ih nowhere)

/-- Tokens that differ in their words at most. -/
def Similar : List Token → List Token → Prop :=
  List.Forall₂ fun token other =>
    token = other ∨ ∃ written rewritten, token = word written ∧ other = word rewritten

theorem similar_refl (tokens : List Token) : Similar tokens tokens :=
  List.forall₂_same.mpr fun _ _ => .inl rfl

theorem similar_append {tokens tokens' others others' : List Token} (first : Similar tokens tokens')
    (second : Similar others others') : Similar (tokens ++ others) (tokens' ++ others') :=
  List.rel_append first second

section Similar

variable {column replacement : Text}

theorem similar_rename (follows : Bool) (tokens : List Token) :
    Similar tokens (rename column replacement follows tokens) := by
  induction tokens generalizing follows with
  | nil => exact .nil
  | cons token tokens ih =>
      cases token with
      | word written => exact .cons (.inr ⟨_, _, rfl, rfl⟩) (ih _)
      | byte plain => exact .cons (.inl rfl) (ih _)
      | literal mark content => exact .cons (.inl rfl) (ih _)
      | remnant mark content => exact .cons (.inl rfl) (ih _)

theorem parens_of_similar {tokens others : List Token} (similar : Similar tokens others) :
    parens others = parens tokens := by
  induction similar with
  | nil => rfl
  | cons same _ ih =>
      rw [parens, parens, List.filterMap_cons, List.filterMap_cons, ← parens, ← parens, ih]
      rcases same with rfl | ⟨written, rewritten, rfl, rfl⟩ <;> rfl

theorem whole_of_similar {tokens others : List Token} (similar : Similar tokens others) :
    Whole others ↔ Whole tokens := by
  induction similar with
  | nil => exact Iff.rfl
  | cons same _ ih =>
      rw [Whole, Whole, List.forall_mem_cons, List.forall_mem_cons, ← Whole, ← Whole, ih]
      rcases same with rfl | ⟨written, rewritten, rfl, rfl⟩ <;> exact Iff.rfl

theorem spaced_of_similar {tokens others : List Token} (similar : Similar tokens others)
    {may : Bool} (spaced : Spaced may tokens) : Spaced may others := by
  induction similar generalizing may with
  | nil => exact spaced
  | cons same _ ih =>
      rcases same with rfl | ⟨written, rewritten, rfl, rfl⟩
      · rw [Spaced] at spaced ⊢
        split
        · rename_i gap
          rw [if_pos gap] at spaced
          exact ⟨spaced.1, spaced.2.1, ih spaced.2.2⟩
        · rename_i gap
          rw [if_neg gap] at spaced
          exact ih spaced
      · exact (spaced_of_visible rfl _).mpr (ih ((spaced_of_visible rfl _).mp spaced))

end Similar

/-! ## Renamed tokens are read as they are written -/

section Rename

variable {column replacement : Text}

theorem comparedNext_rename (follows : Bool) (tokens : List Token) :
    comparedNext (rename column replacement follows tokens) = comparedNext tokens := by
  induction tokens generalizing follows with
  | nil => rfl
  | cons token tokens ih =>
      cases token <;> simp only [rename, comparedNext, ih]

/-- A compared word is followed by a byte of its own, which any word may stand before. -/
theorem lexed_of_comparedNext {written other : Text} {tokens : List Token}
    (compared : comparedNext tokens = true) (lexed : Lexed (some (word written)) tokens) :
    Lexed (some (word other)) tokens := by
  cases tokens with
  | nil => trivial
  | cons token tokens =>
      cases token with
      | byte plain => exact ⟨⟨rfl, lexed.1.2⟩, lexed.2⟩
      | word written => simp [comparedNext] at compared
      | literal mark content => simp [comparedNext] at compared
      | remnant mark content => simp [comparedNext] at compared

theorem lexed_rename (name : IsName replacement) {previous : Option Token} {tokens : List Token}
    (lexed : Lexed previous tokens) (follows : Bool) :
    Lexed previous (rename column replacement follows tokens) := by
  induction tokens generalizing previous follows with
  | nil => trivial
  | cons token tokens ih =>
      obtain ⟨joined, lexed⟩ := lexed
      cases token with
      | word written =>
          have tail := ih lexed (introduces written)
          rw [rename, renamed]
          split
          · rename_i hit
            simp only [Bool.and_eq_true] at hit
            exact ⟨⟨joined.1, name, joined.2.2⟩,
              lexed_of_comparedNext ((comparedNext_rename _ _).trans hit.2) tail⟩
          · exact ⟨joined, tail⟩
      | byte plain => exact ⟨joined, ih lexed _⟩
      | literal mark content => exact ⟨joined, ih lexed _⟩
      | remnant mark content => exact ⟨joined, ih lexed _⟩

/-- The last one of some tokens is never compared, so it stays. -/
theorem getLast?_rename (follows : Bool) (tokens : List Token) :
    (rename column replacement follows tokens).getLast? = tokens.getLast? := by
  induction tokens generalizing follows with
  | nil => rfl
  | cons token tokens ih =>
      cases tokens with
      | nil => cases token <;> simp [rename, renamed, comparedNext]
      | cons next tokens =>
          have tail (follows : Bool) (token : Token) :
              (token :: rename column replacement follows (next :: tokens)).getLast? =
                (next :: tokens).getLast? := by
            rw [List.getLast?_cons, ih]
            cases last : (next :: tokens).getLast? with
            | none => simp at last
            | some last => rfl
          have same : (token :: next :: tokens).getLast? = (next :: tokens).getLast? := by
            simp [List.getLast?_cons]
          rw [same]
          cases token <;> exact tail _ _

end Rename

/-! ## What renaming keeps -/

/-- A name that is none of the keywords of one word that repair and the outline look for. -/
structure IsOrdinary (word : Text) : Prop where
  name : IsName word
  unreserved : upper word ∉ [ascii "CASE", ascii "END", ascii "AND", ascii "OR", ascii "WHERE",
    ascii "HAVING", ascii "LIMIT", ascii "FROM"]

instance (word : Text) : Decidable (IsOrdinary word) :=
  decidable_of_iff (IsName word ∧ ∀ keyword ∈ [ascii "CASE", ascii "END", ascii "AND", ascii "OR",
      ascii "WHERE", ascii "HAVING", ascii "LIMIT", ascii "FROM"], ¬ upper word = keyword)
    ⟨fun ⟨name, unreserved⟩ => ⟨name, List.forall_mem_ne.mp unreserved⟩,
      fun plain => ⟨plain.name, List.forall_mem_ne.mpr plain.unreserved⟩⟩

theorem upper_upper (text : Text) : upper (upper text) = upper text := by
  simp [upper, Byte.toUpper_toUpper]

theorem IsOrdinary.upper {name : Text} (ordinary : IsOrdinary name) : IsOrdinary (upper name) :=
  ⟨ordinary.name.upper, by rw [upper_upper]; exact ordinary.unreserved⟩

/-- Where no word comes next, an ordinary name is not the first word of a phrase either. -/
theorem IsOrdinary.ofWords? {name : Text} (ordinary : IsOrdinary name) :
    Sign.ofWords? (Text.upper name) [] = none := by
  have unreserved := ordinary.unreserved
  have silent : ([] : Text) ≠ ascii "BY" := by decide
  simp only [List.mem_cons, List.not_mem_nil, or_false, not_or] at unreserved
  simp [Sign.ofWords?, unreserved, silent]

theorem IsOrdinary.introduces {name : Text} (ordinary : IsOrdinary name) :
    introduces name = false := by
  have unreserved := ordinary.unreserved
  simp only [List.mem_cons, List.not_mem_nil, or_false, not_or] at unreserved
  simp [Token.introduces, unreserved]

section Kept

variable {column replacement : Text}

/-- A word stays as it is, or it is the column and becomes the replacement. -/
theorem renamed_cases (column replacement : Text) (follows : Bool) (written : Text)
    (tokens : List Token) :
    renamed column replacement follows written tokens = written ∨
      (follows = true ∧ upper written = column ∧ comparedNext tokens = true) ∧
        renamed column replacement follows written tokens = replacement := by
  rw [renamed]
  split
  · rename_i hit
    simp only [Bool.and_eq_true, beq_iff_eq] at hit
    exact .inr ⟨⟨hit.1.1, hit.1.2, hit.2⟩, rfl⟩
  · exact .inl rfl

/-- After a word that begins no condition the next word stays. -/
theorem nextWord_rename (tokens others : List Token) :
    nextWord (rename column replacement false tokens ++ others) = nextWord (tokens ++ others) := by
  induction tokens with
  | nil => rfl
  | cons token tokens ih =>
      cases token with
      | word written =>
          rw [rename, renamed, Bool.false_and, Bool.false_and, if_neg Bool.false_ne_true]
          rfl
      | byte plain =>
          rw [rename, List.cons_append, List.cons_append, nextWord, nextWord, Bool.false_and, ih]
      | literal mark content => rfl
      | remnant mark content => rfl

/-- An equals sign comes before any word. -/
theorem nextWord_of_comparedNext {tokens : List Token} (compared : comparedNext tokens = true)
    (others : List Token) : nextWord (tokens ++ others) = [] := by
  induction tokens with
  | nil => simp [comparedNext] at compared
  | cons token tokens ih =>
      cases token with
      | byte plain =>
          rw [comparedNext] at compared
          rw [List.cons_append, nextWord]
          split
          · rename_i space
            rw [if_pos space] at compared
            exact ih compared
          · rfl
      | word written => simp [comparedNext] at compared
      | literal mark content => rfl
      | remnant mark content => rfl

/-- The `WHERE` that begins a region stays. -/
theorem rename_where (column_ordinary : IsOrdinary column) (column_upper : upper column = column)
    {written : Text} (is_where : upper written = ascii "WHERE") (follows : Bool)
    (tokens : List Token) :
    rename column replacement follows (word written :: tokens) =
      word written :: rename column replacement (introduces written) tokens := by
  rcases renamed_cases column replacement follows written tokens with kept | ⟨⟨-, same, -⟩, -⟩
  · rw [rename, kept]
  · have reserved := column_ordinary.unreserved
    rw [column_upper, ← same, is_where] at reserved
    exact absurd (by simp) reserved

variable (ordinary : IsOrdinary replacement) (column_ordinary : IsOrdinary column)
  (column_upper : upper column = column)

include ordinary column_ordinary column_upper

/-- Renaming again changes nothing. -/
theorem rename_rename (follows : Bool) (tokens : List Token) :
    rename column replacement follows (rename column replacement follows tokens) =
      rename column replacement follows tokens := by
  induction tokens generalizing follows with
  | nil => rfl
  | cons token tokens ih =>
      cases token with
      | word written =>
          rw [rename, rename]
          rcases renamed_cases column replacement follows written tokens with
            kept | ⟨⟨-, same, -⟩, replaced⟩
          · rw [kept, ih, renamed, comparedNext_rename, ← renamed, kept]
          · have silent : introduces written = introduces replacement := by
              rw [ordinary.introduces, ← column_ordinary.introduces, introduces, introduces, same,
                column_upper]
            rw [replaced, silent, ih, renamed]
            split <;> rfl
      | byte plain => rw [rename, rename, ih]
      | literal mark content => rw [rename, rename, ih]
      | remnant mark content => rw [rename, rename, ih]

/-- Renaming keeps the signs of a text. -/
theorem heard_rename (follows dotted : Bool) (depth : Nat) (tokens others : List Token) :
    heard (fun spoken tokens => Sign.ofWords? spoken (nextWord tokens)) dotted depth
        (rename column replacement follows tokens ++ others) =
      heard (fun spoken tokens => Sign.ofWords? spoken (nextWord tokens)) dotted depth
        (tokens ++ others) := by
  induction tokens generalizing follows dotted depth with
  | nil => rfl
  | cons token tokens ih =>
      cases token with
      | word written =>
          have same : Sign.ofWords? (upper (renamed column replacement follows written tokens))
              (nextWord (rename column replacement (introduces written) tokens ++ others)) =
                Sign.ofWords? (upper written) (nextWord (tokens ++ others)) := by
            rcases renamed_cases column replacement follows written tokens with
              kept | ⟨⟨-, same, compared⟩, replaced⟩
            · rw [kept]
              refine Sign.ofWords?_congr fun phrase => ?_
              have silent : introduces written = false := by
                rw [introduces]
                rcases phrase with named | named <;> rw [named] <;> decide
              rw [silent, nextWord_rename]
            · rw [replaced, same, nextWord_of_comparedNext compared,
                nextWord_of_comparedNext ((comparedNext_rename _ _).trans compared),
                ordinary.ofWords?, ← column_upper, column_ordinary.ofWords?]
          simp only [rename, List.cons_append, heard, ih, same]
      | byte plain => simp only [rename, List.cons_append, heard, ih]
      | literal mark content => simp only [rename, List.cons_append, heard, ih]
      | remnant mark content => simp only [rename, List.cons_append, heard, ih]

end Kept

/-! ## Tokens before others that say the same -/

section Heard

variable {element : Type} {say : Text → List Token → Option element}

/-- Tokens say the same before others that say the same. -/
theorem heard_append_congr {tokens others : List Token}
    (same : ∀ dotted depth, heard say dotted depth tokens = heard say dotted depth others)
    (say_eq : ∀ spoken front, say spoken (front ++ tokens) = say spoken (front ++ others))
    (front : List Token) (dotted : Bool) (depth : Nat) :
    heard say dotted depth (front ++ tokens) = heard say dotted depth (front ++ others) := by
  induction front generalizing dotted depth with
  | nil => exact same dotted depth
  | cons token front ih => cases token <;> simp only [List.cons_append, heard, ih, say_eq]

end Heard

theorem nextWord_append_congr {tokens others : List Token}
    (same : nextWord tokens = ascii "BY" ↔ nextWord others = ascii "BY") (front : List Token) :
    nextWord (front ++ tokens) = ascii "BY" ↔ nextWord (front ++ others) = ascii "BY" := by
  induction front with
  | nil => exact same
  | cons token front ih =>
      cases token with
      | byte plain =>
          rw [List.cons_append, List.cons_append, nextWord, nextWord]
          split
          · exact ih
          · exact Iff.rfl
      | _ => exact Iff.rfl

theorem kinds_append_congr {tokens others : List Token}
    (same : ∀ dotted depth,
      heard (fun spoken tokens => Sign.ofWords? spoken (nextWord tokens)) dotted depth tokens =
        heard (fun spoken tokens => Sign.ofWords? spoken (nextWord tokens)) dotted depth others)
    (next : nextWord tokens = ascii "BY" ↔ nextWord others = ascii "BY") (front : List Token) :
    kinds (front ++ tokens) = kinds (front ++ others) :=
  heard_append_congr same
    (fun _ front => Sign.ofWords?_congr fun _ => nextWord_append_congr next front) front false 0

/-- The end of a literal that is never closed says nothing. -/
theorem kinds_remnant (front : List Token) (mark : Byte) (content other : Text) :
    kinds (front ++ [remnant mark content]) = kinds (front ++ [remnant mark other]) := by
  refine kinds_append_congr (fun _ _ => ?_) ?_ front
  · rfl
  · exact Iff.rfl

section Renamed

variable {column replacement : Text} (ordinary : IsOrdinary replacement)
  (column_ordinary : IsOrdinary column) (column_upper : upper column = column)

include ordinary column_ordinary column_upper

/-- Renaming from a `WHERE` on keeps the signs of a text. -/
theorem kinds_rename {written : Text} (is_where : upper written = ascii "WHERE")
    (front : List Token) (follows : Bool) (tokens others : List Token) :
    kinds (front ++ (rename column replacement follows (word written :: tokens) ++ others)) =
      kinds (front ++ (word written :: tokens ++ others)) := by
  refine kinds_append_congr (fun dotted depth =>
    heard_rename ordinary column_ordinary column_upper follows dotted depth _ _) ?_ front
  rw [rename_where column_ordinary column_upper is_where]
  exact Iff.rfl

end Renamed

end Token

namespace TableName

theorem read_of_space {space : Byte} (blank : space.isSpace = true) (text : Text) :
    read (space :: text) = read text := by
  rw [read, List.dropWhile_cons_of_pos blank, read]

theorem read_of_visible {text : Text} (visible : text.head?.any Byte.isSpace = false) :
    read text = (text.takeWhile continues).filter fun byte => !isMark byte := by
  rw [read]
  cases text with
  | nil => rfl
  | cons byte text => rw [List.dropWhile_cons_of_neg (by simpa using visible)]

theorem takeWhile_append_congr {test : Byte → Bool} {text other : Text}
    (same : text.takeWhile test = other.takeWhile test) (front : Text) :
    (front ++ text).takeWhile test = (front ++ other).takeWhile test := by
  induction front with
  | nil => exact same
  | cons byte front ih =>
      rw [List.cons_append, List.cons_append, List.takeWhile_cons, List.takeWhile_cons, ih]

/-- A name is read the same before texts that name the same. -/
theorem read_append_congr {text other : Text}
    (direct : text.takeWhile continues = other.takeWhile continues)
    (read_eq : read text = read other) (front : Text) :
    read (front ++ text) = read (front ++ other) := by
  induction front with
  | nil => exact read_eq
  | cons byte front ih =>
      rw [List.cons_append, List.cons_append]
      cases blank : byte.isSpace with
      | true => rw [read_of_space blank, read_of_space blank, ih]
      | false =>
          have same := takeWhile_append_congr direct (byte :: front)
          rw [List.cons_append, List.cons_append] at same
          rw [read_of_visible (by simpa using blank), read_of_visible (by simpa using blank), same]

end TableName

namespace Token

section Tables

variable {column replacement : Text}

/-- No column is replaced before white space has come after a `WHERE` or an `AND`. -/
theorem takeWhile_rename {follows : Bool} {previous : Option Token} {tokens others : List Token}
    (lexed : Lexed previous (tokens ++ others))
    (begins : follows = true → previous.any isWord = true) :
    (spell (rename column replacement follows tokens ++ others)).takeWhile TableName.continues =
      (spell (tokens ++ others)).takeWhile TableName.continues := by
  induction tokens generalizing follows previous with
  | nil => rfl
  | cons token tokens ih =>
      have lexed_rest := lexed.2
      have fresh := lexed.1.2
      cases token with
      | word written =>
          have unfollowed : follows = false := Bool.eq_false_iff.mpr fun followed => by
            have word := begins followed
            rw [fresh.2] at word
            cases word
          rw [rename, renamed, unfollowed, Bool.false_and, Bool.false_and,
            if_neg Bool.false_ne_true]
          exact TableName.takeWhile_append_congr (ih lexed_rest fun _ => rfl) written
      | byte plain =>
          rw [rename, List.cons_append, List.cons_append, spell_cons, spell_cons, bytes,
            List.singleton_append, List.singleton_append, List.takeWhile_cons, List.takeWhile_cons]
          cases continued : TableName.continues plain with
          | false => rfl
          | true =>
              have dot : plain = Byte.dot := by
                have unmarked : TableName.isMark plain = false := by
                  have unquoted := fresh.2
                  simp only [Byte.isQuote, Bool.or_eq_false_iff] at unquoted
                  simp [TableName.isMark, unquoted]
                simpa [TableName.continues, fresh.1, unmarked] using continued
              have visible : plain.isSpace = false := by
                rw [dot]
                decide
              rw [visible, Bool.and_false, ih lexed_rest fun followed => by cases followed]
      | literal mark content =>
          exact TableName.takeWhile_append_congr
            (ih lexed_rest fun followed => by cases followed) (mark :: content)
      | remnant mark content =>
          exact TableName.takeWhile_append_congr
            (ih lexed_rest fun followed => by cases followed) (mark :: content)

theorem head?_bytes_of_visible {previous : Option Token} {token : Token}
    (follows : Follows previous token) (visible : token.isGap = false) (rest : Text) :
    (token.bytes ++ rest).head?.any Byte.isSpace = false := by
  cases token with
  | word written =>
      obtain ⟨letter, written, rfl⟩ := List.exists_cons_of_ne_nil follows.1.nonempty
      simpa [bytes] using Byte.isSpace_of_isIdentifier letter
        (follows.1.identifiers letter (by simp))
  | byte plain => simpa [bytes, isGap] using visible
  | literal mark content => simpa [bytes] using Byte.isSpace_of_isQuote mark follows.1
  | remnant mark content => simpa [bytes] using Byte.isSpace_of_isQuote mark follows.1

/-- The name of a table after a word that begins no condition stays. -/
theorem read_rename {previous : Option Token} {tokens others : List Token}
    (lexed : Lexed previous (tokens ++ others)) :
    TableName.read (spell (rename column replacement false tokens ++ others)) =
      TableName.read (spell (tokens ++ others)) := by
  induction tokens generalizing previous with
  | nil => rfl
  | cons token tokens ih =>
      have same : (spell (rename column replacement false (token :: tokens) ++ others)).takeWhile
          TableName.continues = (spell (token :: tokens ++ others)).takeWhile TableName.continues :=
        takeWhile_rename lexed fun followed => by cases followed
      obtain ⟨follows, kept⟩ : ∃ follows, rename column replacement false (token :: tokens) =
          token :: rename column replacement follows tokens := by
        cases token <;> exact ⟨_, rfl⟩
      cases gap : token.isGap with
      | true =>
          obtain ⟨plain, rfl, space⟩ := exists_of_isGap gap
          exact (TableName.read_of_space space _).trans ((ih lexed.2).trans
            (TableName.read_of_space space _).symm)
      | false =>
          have visible := head?_bytes_of_visible lexed.1.2 gap
          rw [TableName.read_of_visible (by rw [kept]; exact visible _),
            TableName.read_of_visible (by exact visible _), same]

section Sources

variable (ordinary : IsOrdinary replacement) (column_ordinary : IsOrdinary column)
  (column_upper : upper column = column)

include ordinary column_ordinary column_upper

theorem heard_source_rename {previous : Option Token} {tokens others : List Token}
    (lexed : Lexed previous (tokens ++ others)) (follows dotted : Bool) (depth : Nat) :
    heard source? dotted depth (rename column replacement follows tokens ++ others) =
      heard source? dotted depth (tokens ++ others) := by
  induction tokens generalizing previous follows dotted depth with
  | nil => rfl
  | cons token tokens ih =>
      cases token with
      | word written =>
          have same : source? (upper (renamed column replacement follows written tokens))
              (rename column replacement (introduces written) tokens ++ others) =
                source? (upper written) (tokens ++ others) := by
            have other {name : Text} (ordinary : IsOrdinary name) :
                Text.upper name ≠ ascii "FROM" :=
              fun named => ordinary.unreserved (by simp [named])
            rcases renamed_cases column replacement follows written tokens with
              kept | ⟨⟨-, same, -⟩, replaced⟩
            · rw [kept, source?, source?]
              split
              · rename_i named
                have silent : introduces written = false := by
                  rw [introduces, named]
                  decide
                rw [silent, read_rename lexed.2]
              · rfl
            · rw [replaced, same, source?, source?, if_neg (other ordinary), ← column_upper,
                if_neg (other column_ordinary)]
          simp only [rename, List.cons_append, heard, ih lexed.2, same]
      | _ => simp only [rename, List.cons_append, heard, ih lexed.2]

/-- A query reads from the same table when columns are replaced from a `WHERE` on. -/
theorem tables_rename {front tokens others : List Token} {written : Text}
    (lexed : Lexed none (front ++ (word written :: tokens ++ others)))
    (is_where : upper written = ascii "WHERE") (follows : Bool) :
    tables (front ++ (rename column replacement follows (word written :: tokens) ++ others)) =
      tables (front ++ (word written :: tokens ++ others)) := by
  have rest_lexed := (linked_append.mp lexed).2
  have kept := @rename_where _ replacement column_ordinary column_upper _ is_where follows
    tokens
  have direct : (spell (word written :: rename column replacement (introduces written) tokens ++
      others)).takeWhile TableName.continues =
        (spell (word written :: tokens ++ others)).takeWhile TableName.continues :=
    TableName.takeWhile_append_congr (takeWhile_rename rest_lexed.2 fun _ => rfl) written
  have read_eq :
      TableName.read (spell (word written :: rename column replacement (introduces written)
      tokens ++ others)) = TableName.read (spell (word written :: tokens ++ others)) := by
    have visible := head?_bytes_of_visible rest_lexed.1.2 (rfl : (word written).isGap = false)
    exact (TableName.read_of_visible (visible _)).trans
      ((congrArg _ direct).trans (TableName.read_of_visible (visible _)).symm)
  refine heard_append_congr
    (fun dotted depth => heard_source_rename ordinary column_ordinary column_upper
    rest_lexed follows dotted depth) (fun spoken front => ?_) front false 0
  rw [kept, source?, source?, spell_append front, spell_append front,
    TableName.read_append_congr direct read_eq]

end Sources

end Tables
end Token

end TenantScope
