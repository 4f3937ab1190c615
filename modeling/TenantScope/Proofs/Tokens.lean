import TenantScope.NormalForm
import TenantScope.Proofs.Nesting

/-!
# Texts as lists of tokens

A text is spelled by its tokens: whole words, literals, and the single bytes between them.  A list
of tokens is read again as it was written when neighbours do not run into one another, and then what
the reading of the text says can be computed from the tokens, whatever bytes they are made of.
-/

namespace TenantScope

open Text Site Literal

namespace Literal

/-- No further mark comes directly after a closed literal. -/
theorem head?_drop_of_closing? {mark : Byte} {escapes : Bool} {text : Text} {length : Nat}
    (closed : closing? mark escapes text = some length) :
    (text.drop length).head? ≠ some mark := by
  fun_induction closing? mark escapes text generalizing length with
  | case1 => simp at closed
  | case2 => simp at closed
  | case3 _ _ _ _ ih =>
      obtain ⟨inner, found, rfl⟩ := Option.map_eq_some_iff.mp closed
      simpa using ih found
  | case4 =>
      obtain rfl : 1 = length := by simpa using closed
      simp
  | case5 _ _ _ _ _ _ ih =>
      obtain ⟨inner, found, rfl⟩ := Option.map_eq_some_iff.mp closed
      simpa using ih found
  | case6 _ _ _ next _ single =>
      obtain rfl : 1 = length := by simpa using closed
      simpa using single
  | case7 _ _ _ _ ih =>
      obtain ⟨inner, found, rfl⟩ := Option.map_eq_some_iff.mp closed
      simpa using ih found

end Literal

/-- A unit that a text is spelled by. -/
inductive Token
  /-- A whole word. -/
  | word (written : Text)
  /-- A byte outside words and literals. -/
  | byte (plain : Byte)
  /-- A closed literal with its mark, and what follows that mark through the closing one. -/
  | literal (mark : Byte) (content : Text)
  /-- A literal that is never closed, with its mark and the rest of the text. -/
  | remnant (mark : Byte) (content : Text)
  deriving DecidableEq, Repr

namespace Token

/-- The bytes of a token. -/
def bytes : Token → Text
  | word written => written
  | byte plain => [plain]
  | literal mark content => mark :: content
  | remnant mark content => mark :: content

/-- The text that tokens spell. -/
def spell (tokens : List Token) : Text :=
  tokens.flatMap bytes

@[simp]
theorem spell_nil : spell [] = [] :=
  rfl

@[simp]
theorem spell_cons (token : Token) (tokens : List Token) :
    spell (token :: tokens) = token.bytes ++ spell tokens :=
  rfl

@[simp]
theorem spell_append (tokens others : List Token) :
    spell (tokens ++ others) = spell tokens ++ spell others :=
  List.flatMap_append

def isWord : Token → Bool
  | word _ => true
  | _ => false

def isRemnant : Token → Bool
  | remnant _ _ => true
  | _ => false

/-- A byte of white space. -/
def isGap : Token → Bool
  | byte plain => plain.isSpace
  | _ => false

theorem exists_of_isGap {token : Token} (gap : token.isGap = true) :
    ∃ plain, token = byte plain ∧ plain.isSpace = true := by
  cases token <;> simp_all [isGap]

/-- A literal with the given mark. -/
def isMarked (mark : Byte) : Token → Bool
  | literal other _ => other == mark
  | _ => false

/-- The letter that makes a literal after it an escape string. -/
def isEscapeLetter : Token → Bool
  | word [letter] => letter == Byte.ofChar 'E' || letter == Byte.ofChar 'e'
  | _ => false

/-- A literal with the given mark reads a backslash as an escape after the token. -/
def escapes (previous : Option Token) (mark : Byte) : Bool :=
  mark == Byte.apostrophe && previous.any isEscapeLetter

/-! ## Tokens that are read as they are written -/

/-- Each token may stand after the one before it, the first one after the token `previous`. -/
def Linked (joins : Option Token → Token → Prop) : Option Token → List Token → Prop
  | _, [] => True
  | previous, token :: tokens => joins previous token ∧ Linked joins (some token) tokens

theorem linked_append {joins : Option Token → Token → Prop} {previous : Option Token}
    {tokens others : List Token} :
    Linked joins previous (tokens ++ others) ↔
      Linked joins previous tokens ∧ Linked joins (tokens.getLast?.or previous) others := by
  induction tokens generalizing previous with
  | nil => simp [Linked]
  | cons token tokens ih =>
      have last : ((token :: tokens).getLast?.or previous) = tokens.getLast?.or (some token) := by
        rw [List.getLast?_cons]
        cases tokens.getLast? <;> rfl
      rw [List.cons_append, Linked, Linked, ih, last, and_assoc]

/-- A token is read as it is written after the one before it. -/
def Follows (previous : Option Token) : Token → Prop
  | word written => IsName written ∧ previous.any isWord = false
  | byte plain => plain.isIdentifier = false ∧ plain.isQuote = false
  | literal mark content =>
      mark.isQuote = true ∧ previous.any (isMarked mark) = false ∧
        closing? mark (escapes previous mark) content = some content.length
  | remnant mark content =>
      mark.isQuote = true ∧ previous.any (isMarked mark) = false ∧
        closing? mark (escapes previous mark) content = none

/-- A token is read as it is written after the one before it, which does not run to the end. -/
def Joins (previous : Option Token) (token : Token) : Prop :=
  previous.any isRemnant = false ∧ Follows previous token

/-- Tokens are read one by one as they are written after the token `previous`; only the last of them
may be a literal that is never closed. -/
def Lexed : Option Token → List Token → Prop :=
  Linked Joins

/-- The bytes `back`, nearest first, weigh for the reading of a text after them as if they
ended in the token. -/
structure After (back : Text) (previous : Option Token) : Prop where
  word : back.head?.any Byte.isIdentifier = previous.any isWord
  escape : endsInEscapeLetter back = previous.any isEscapeLetter

theorem After.nil : After [] none where
  word := rfl
  escape := rfl

theorem After.escapesAfter_eq {back : Text} {previous : Option Token} (after : After back previous)
    (mark : Byte) : escapesAfter .standard back mark = escapes previous mark := by
  simp [escapesAfter, escapes, after.escape]

theorem After.of_word {back : Text} {previous : Option Token} (after : After back previous)
    {written : Text} (name : IsName written) (begins : previous.any isWord = false) :
    After (written.reverse ++ back) (some (.word written)) := by
  obtain ⟨front, last, rfl⟩ := (List.eq_nil_or_concat written).resolve_left name.nonempty
  have identifier := name.identifiers last (by simp)
  refine ⟨by simp [identifier, isWord], ?_⟩
  rcases List.eq_nil_or_concat front with rfl | ⟨front, other, rfl⟩
  · have fresh := after.word.trans begins
    simp [endsInEscapeLetter, isEscapeLetter, fresh]
  · have inside := name.identifiers other (by simp)
    have long : isEscapeLetter (.word ((front.concat other).concat last)) = false := by
      cases front <;> simp [isEscapeLetter]
    simpa [endsInEscapeLetter, inside] using long.symm

theorem After.of_plain (back : Text) {last : Byte} (identifier : last.isIdentifier = false)
    (previous : Token) (plain : previous.isWord = false) :
    After (last :: back) (some previous) := by
  have letterless : previous.isEscapeLetter = false := by
    cases previous <;> simp_all [isEscapeLetter, isWord]
  exact ⟨by simp [identifier, plain], by
    simp [endsInEscapeLetter, not_escapeLetter_of_not_isIdentifier last identifier, letterless]⟩

theorem After.of_literal (back : Text) {content : Text} {mark : Byte} {escapes : Bool}
    (quote : mark.isQuote = true)
    (closed : closing? mark escapes content = some content.length) :
    After (content.reverse ++ mark :: back) (some (.literal mark content)) := by
  have last := getLast?_of_closing? closed
  obtain ⟨front, rfl⟩ := List.getLast?_eq_some_iff.mp last
  simpa using After.of_plain (front.reverse ++ mark :: back)
    (Byte.isIdentifier_of_isQuote mark quote) (.literal mark _) rfl

/-- The bytes of a token that is not left open weigh as the token. -/
theorem After.of_token {back : Text} {previous : Option Token} (after : After back previous)
    {token : Token} (follows : Follows previous token) (whole : token.isRemnant = false) :
    After (token.bytes.reverse ++ back) (some token) := by
  cases token with
  | word written => exact after.of_word follows.1 follows.2
  | byte plain => exact After.of_plain back follows.1 (.byte plain) rfl
  | literal mark content => simpa [bytes] using After.of_literal back follows.1 follows.2.2
  | remnant mark content => cases whole

/-- A token other than a word begins with a byte outside words. -/
theorem exists_bytes_cons {previous : Option Token} {token : Token}
    (follows : Follows previous token) (wordless : token.isWord = false) :
    ∃ first rest, token.bytes = first :: rest ∧ first.isIdentifier = false := by
  cases token with
  | word written => cases wordless
  | byte plain => exact ⟨plain, [], rfl, follows.1⟩
  | literal mark content => exact ⟨mark, content, rfl, Byte.isIdentifier_of_isQuote mark follows.1⟩
  | remnant mark content => exact ⟨mark, content, rfl, Byte.isIdentifier_of_isQuote mark follows.1⟩

/-- What follows a token is not read on with it. -/
theorem head?_spell_of_word {written : Text} {tokens : List Token}
    (lexed : Lexed (some (.word written)) tokens) :
    (spell tokens).head?.any Byte.isIdentifier = false := by
  cases tokens with
  | nil => rfl
  | cons token tokens =>
      obtain ⟨⟨-, follows⟩, -⟩ := lexed
      cases token with
      | word other => simp [Follows, isWord] at follows
      | byte plain => simpa [bytes] using follows.1
      | literal mark content => simpa [bytes] using Byte.isIdentifier_of_isQuote mark follows.1
      | remnant mark content => simpa [bytes] using Byte.isIdentifier_of_isQuote mark follows.1

/-- A mark is not written twice between two literals. -/
theorem head?_spell_of_literal {mark : Byte} {content : Text} {tokens : List Token}
    (quote : mark.isQuote = true) (lexed : Lexed (some (.literal mark content)) tokens) :
    (spell tokens).head? ≠ some mark := by
  cases tokens with
  | nil => simp
  | cons token tokens =>
      obtain ⟨⟨-, follows⟩, -⟩ := lexed
      cases token with
      | word written =>
          obtain ⟨letter, rest, rfl⟩ := List.exists_cons_of_ne_nil follows.1.nonempty
          have identifier := follows.1.identifiers letter (by simp)
          have apart : letter ≠ mark := fun same => by
            subst same
            simp [Byte.isIdentifier_of_isQuote letter quote] at identifier
          simpa [bytes] using apart
      | byte plain =>
          have apart : plain ≠ mark := fun same => by simp [← same, follows.2] at quote
          simpa [bytes] using apart
      | literal other content =>
          have apart : mark ≠ other := by simpa [isMarked] using follows.2.1
          simpa [bytes] using apart.symm
      | remnant other content =>
          have apart : mark ≠ other := by simpa [isMarked] using follows.2.1
          simpa [bytes] using apart.symm

/-- A literal among tokens ends at its own closing mark. -/
theorem closing?_spell {previous : Option Token} {mark : Byte} {content : Text}
    {tokens : List Token} (lexed : Lexed previous (literal mark content :: tokens)) :
    closing? mark (escapes previous mark) (content ++ spell tokens) = some content.length := by
  obtain ⟨⟨-, quote, -, closed⟩, lexed⟩ := lexed
  exact closing?_append closed _ fun same => absurd same (head?_spell_of_literal quote lexed)

theorem After.closing?_spell {back : Text} {previous : Option Token} (after : After back previous)
    {mark : Byte} {content : Text} {tokens : List Token}
    (lexed : Lexed previous (literal mark content :: tokens)) :
    closing? mark (escapesAfter .standard back mark) (content ++ spell tokens) =
      some content.length := by
  rw [after.escapesAfter_eq]
  exact Token.closing?_spell lexed

/-- A literal that is never closed is the last token. -/
theorem eq_nil_of_remnant {previous : Option Token} {mark : Byte} {content : Text}
    {tokens : List Token} (lexed : Lexed previous (remnant mark content :: tokens)) :
    tokens = [] := by
  cases tokens with
  | nil => rfl
  | cons token tokens => simp [Lexed, Linked, Joins, isRemnant] at lexed

theorem After.closing?_remnant {back : Text} {previous : Option Token} (after : After back previous)
    {mark : Byte} {content : Text} {tokens : List Token}
    (lexed : Lexed previous (remnant mark content :: tokens)) :
    closing? mark (escapesAfter .standard back mark) content = none := by
  rw [after.escapesAfter_eq]
  exact lexed.1.2.2.2

/-- A token other than a word is one lexeme. -/
theorem After.lexemeWidth_token {back : Text} {previous : Option Token}
    (after : After back previous) {token : Token} {tokens : List Token}
    (lexed : Lexed previous (token :: tokens)) (wordless : token.isWord = false)
    (offset depth : Nat) :
    lexemeWidth .standard ⟨back, token.bytes ++ spell tokens, offset, depth⟩ =
      token.bytes.length := by
  have follows := lexed.1.2
  cases token with
  | word written => cases wordless
  | byte plain => exact lexemeWidth_code _ _ _ _ _ follows.2
  | literal mark content =>
      rw [bytes, List.cons_append, lexemeWidth_quote _ _ _ _ _ follows.1,
        after.closing?_spell lexed]
      rfl
  | remnant mark content =>
      obtain rfl := eq_nil_of_remnant lexed
      rw [spell_nil, List.append_nil, bytes, lexemeWidth_quote _ _ _ _ _ follows.1,
        after.closing?_remnant lexed]
      rfl

/-- Induction along tokens that are read as they are written. -/
@[elab_as_elim]
theorem token_induction {motive : Text → List Token → Prop}
    (nil : ∀ back, motive back [])
    (word : ∀ back written tokens, IsName written → back.head?.any Byte.isIdentifier = false →
      (spell tokens).head?.any Byte.isIdentifier = false →
      motive (written.reverse ++ back) tokens → motive back (.word written :: tokens))
    (byte : ∀ back plain tokens, plain.isIdentifier = false → plain.isQuote = false →
      motive (plain :: back) tokens → motive back (.byte plain :: tokens))
    (literal : ∀ back mark content tokens, mark.isQuote = true →
      closing? mark (escapesAfter .standard back mark) (content ++ spell tokens) =
        some content.length →
      motive (content.reverse ++ mark :: back) tokens →
      motive back (.literal mark content :: tokens))
    (remnant : ∀ back mark content, mark.isQuote = true →
      closing? mark (escapesAfter .standard back mark) content = none →
      motive back [.remnant mark content])
    {back : Text} {previous : Option Token} {tokens : List Token} (after : After back previous)
    (lexed : Lexed previous tokens) : motive back tokens := by
  induction tokens generalizing back previous with
  | nil => exact nil back
  | cons token tokens ih =>
      have ⟨⟨_, follows⟩, later⟩ := lexed
      cases token with
      | word written =>
          exact word back written tokens follows.1 (after.word.trans follows.2)
            (head?_spell_of_word later) (ih (after.of_word follows.1 follows.2) later)
      | byte plain =>
          exact byte back plain tokens follows.1 follows.2
            (ih (After.of_plain back follows.1 (.byte plain) rfl) later)
      | literal mark content =>
          exact literal back mark content tokens follows.1 (after.closing?_spell lexed)
            (ih (After.of_literal back follows.1 follows.2.2) later)
      | remnant mark content =>
          obtain rfl := eq_nil_of_remnant lexed
          exact remnant back mark content follows.1 (after.closing?_remnant lexed)

/-- Every text is spelled by tokens that are read as they are written. -/
theorem exists_lexed_after {back : Text} {previous : Option Token} {text : Text}
    (after : After back previous) (unfinished : previous.any isRemnant = false)
    (begins : previous.any isWord = true → text.head?.any Byte.isIdentifier = false)
    (single : ∀ mark, previous.any (isMarked mark) = true → text.head? ≠ some mark) :
    ∃ tokens, Lexed previous tokens ∧ spell tokens = text := by
  rw [← after.word] at begins
  suffices reading : ∀ previous, After back previous → previous.any isRemnant = false →
      (∀ mark, previous.any (isMarked mark) = true → text.head? ≠ some mark) →
      ∃ tokens, Lexed previous tokens ∧ spell tokens = text from
    reading previous after unfinished single
  clear after unfinished single
  refine word_induction .standard ?nil ?word ?plain ?literal ?unclosed back text begins
  case nil =>
    intro back previous after unfinished single
    exact ⟨[], trivial, rfl⟩
  case word =>
    intro back written rest name begins ends ih previous after unfinished single
    have fresh := after.word.symm.trans begins
    obtain ⟨tokens, lexed, spelled⟩ := ih _ (after.of_word name fresh) rfl (by simp [isMarked])
    exact ⟨.word written :: tokens, ⟨⟨unfinished, name, fresh⟩, lexed⟩, by simp [bytes, spelled]⟩
  case plain =>
    intro back byte rest identifier quote ih previous after unfinished single
    have next := After.of_plain back identifier (.byte byte) rfl
    obtain ⟨tokens, lexed, spelled⟩ := ih _ next rfl (by simp [isMarked])
    exact ⟨.byte byte :: tokens, ⟨⟨unfinished, identifier, quote⟩, lexed⟩,
      by simp [bytes, spelled]⟩
  case literal =>
    intro back mark content rest quote closed ih previous after unfinished single
    have apart : previous.any (isMarked mark) = false :=
      Bool.eq_false_iff.mpr fun marked => single mark marked rfl
    have following := head?_drop_of_closing? closed
    rw [List.drop_left] at following
    have inside := closing?_of_append closed le_rfl
    obtain ⟨tokens, lexed, spelled⟩ := ih _ (After.of_literal back quote inside) rfl (by
      intro other marked
      obtain rfl : mark = other := by simpa [isMarked] using marked
      exact following)
    rw [after.escapesAfter_eq] at inside
    exact ⟨.literal mark content :: tokens, ⟨⟨unfinished, quote, apart, inside⟩, lexed⟩,
      by simp [bytes, spelled]⟩
  case unclosed =>
    intro back mark rest quote unclosed previous after unfinished single
    have apart : previous.any (isMarked mark) = false :=
      Bool.eq_false_iff.mpr fun marked => single mark marked rfl
    rw [after.escapesAfter_eq] at unclosed
    exact ⟨[.remnant mark rest], ⟨⟨unfinished, quote, apart, unclosed⟩, trivial⟩,
      by simp [bytes]⟩

theorem exists_lexed (text : Text) : ∃ tokens, Lexed none tokens ∧ spell tokens = text :=
  exists_lexed_after After.nil rfl (by simp) (by simp)

/-! ## What the reading of a text says -/

/-- The bytes of a word are read one by one. -/
theorem exists_lexemes_word {written : Text} (rest : Text)
    (identifiers : ∀ byte ∈ written, byte.isIdentifier = true) (back : Text) (offset depth : Nat) :
    ∃ places, lexemes ⟨back, written ++ rest, offset, depth⟩ =
        places ++ lexemes ⟨written.reverse ++ back, rest, offset + written.length, depth⟩ ∧
      (∀ place ∈ places, place.byte?.any Byte.isIdentifier = true) ∧
      places.map NormalForm.fragment = written.map fun byte => .kept [byte] := by
  induction written generalizing back offset with
  | nil => exact ⟨[], by simp, by simp, rfl⟩
  | cons byte written ih =>
      have identifier := identifiers byte (by simp)
      have quote := Byte.isQuote_of_isIdentifier byte identifier
      have flat := Byte.depthless_of_isIdentifier byte identifier
      obtain ⟨places, read, words, fragments⟩ :=
        ih (fun other member => identifiers other (by simp [member])) (byte :: back) (offset + 1)
      refine ⟨⟨back, byte :: (written ++ rest), offset, depth⟩ :: places, ?_, ?_, ?_⟩
      · rw [List.cons_append, lexemes_code _ _ _ _ _ quote, depthAfter_of_flat flat, read]
        simp [Nat.add_assoc, Nat.add_comm 1]
      · simpa [byte?, identifier] using words
      · simp [fragments, NormalForm.fragment, byte?, quote, Fragment.ofByte,
          Byte.isSpace_of_isIdentifier byte identifier]

theorem atQuote_of_identifier {place : Site} (word : place.byte?.any Byte.isIdentifier = true) :
    place.atQuote = false := by
  rw [atQuote]
  cases byte_eq : place.byte? with
  | none => rfl
  | some byte => exact Byte.isQuote_of_isIdentifier byte (by simpa [byte_eq] using word)

section Words

variable {written : Text} (name : IsName written) (back rest : Text) (offset depth : Nat)

include name

theorem literals_word :
    literals ⟨back, written ++ rest, offset, depth⟩ =
      literals ⟨written.reverse ++ back, rest, offset + written.length, depth⟩ := by
  obtain ⟨places, read, words, -⟩ := exists_lexemes_word rest name.identifiers back offset depth
  have unquoted : (places.filter fun place => place.atQuote) = [] :=
    List.filter_eq_nil_iff.mpr fun place member => by
      simp [atQuote_of_identifier (words place member)]
  rw [literals, literals, read, List.filter_append, unquoted, List.nil_append]

theorem closed_word :
    Closed ⟨back, written ++ rest, offset, depth⟩ ↔
      Closed ⟨written.reverse ++ back, rest, offset + written.length, depth⟩ := by
  rw [Closed, Closed, literals_word name]

theorem exists_code_word :
    ∃ places, code ⟨back, written ++ rest, offset, depth⟩ =
        places ++ code ⟨written.reverse ++ back, rest, offset + written.length, depth⟩ ∧
      ∀ place ∈ places, place.byte?.any Byte.isIdentifier = true := by
  obtain ⟨places, read, words, -⟩ := exists_lexemes_word rest name.identifiers back offset depth
  have plain : (places.filter fun place => !place.atQuote) = places :=
    List.filter_eq_self.mpr fun place member => by
      simp [atQuote_of_identifier (words place member)]
  exact ⟨places, by rw [code, read, List.filter_append, plain, code], words⟩

theorem nested_word :
    Nested ⟨back, written ++ rest, offset, depth⟩ ↔
      Nested ⟨written.reverse ++ back, rest, offset + written.length, depth⟩ := by
  obtain ⟨places, read, words⟩ := exists_code_word name back rest offset depth
  have open_places : ∀ place ∈ places, place.byte? = some Byte.closeParen → place.depth ≠ 0 := by
    intro place member paren
    have word := words place member
    rw [paren] at word
    exact absurd word (by decide)
  rw [Nested, Nested, read, List.forall_mem_append]
  exact and_iff_right open_places

theorem endDepth_word :
    endDepth ⟨back, written ++ rest, offset, depth⟩ =
      endDepth ⟨written.reverse ++ back, rest, offset + written.length, depth⟩ := by
  obtain ⟨places, read, words⟩ := exists_code_word name back rest offset depth
  have unchanged : places.foldl
      (fun depth place => place.byte?.elim depth (depthAfter · depth)) depth = depth := by
    clear read
    induction places with
    | nil => rfl
    | cons place places ih =>
        have flat : place.byte?.elim depth (depthAfter · depth) = depth := by
          cases byte_eq : place.byte? with
          | none => rfl
          | some byte =>
              have word := words place (by simp)
              exact depthAfter_of_flat
                (Byte.depthless_of_isIdentifier byte (by simpa [byte_eq] using word)) depth
        rw [List.foldl_cons, flat]
        exact ih fun place member => words place (by simp [member])
  rw [endDepth, endDepth, read, List.foldl_append, unchanged]

end Words

/-- What stays of a token when the spacing of its text is settled. -/
def fragments : Token → List Fragment
  | word written => written.map fun byte => .kept [byte]
  | byte plain => [.ofByte plain]
  | literal mark content => [.kept (mark :: content)]
  | remnant mark content => [.kept (mark :: content)]

/-- No token is a literal that is never closed. -/
def Whole (tokens : List Token) : Prop :=
  ∀ token ∈ tokens, token.isRemnant = false

instance (tokens : List Token) : Decidable (Whole tokens) :=
  inferInstanceAs (Decidable (∀ _ ∈ _, _))

/-- The parenthesis that a token is. -/
def paren? : Token → Option Byte
  | byte plain => if plain == Byte.openParen || plain == Byte.closeParen then some plain else none
  | _ => none

/-- The parentheses among tokens. -/
def parens (tokens : List Token) : List Byte :=
  tokens.filterMap paren?

theorem parens_cons_of_paren {plain : Byte}
    (paren : plain = Byte.openParen ∨ plain = Byte.closeParen) (tokens : List Token) :
    parens (byte plain :: tokens) = plain :: parens tokens := by
  simp [parens, paren?, paren]

theorem parens_cons_of_flat {plain : Byte}
    (flat : ¬ (plain = Byte.openParen ∨ plain = Byte.closeParen)) (tokens : List Token) :
    parens (byte plain :: tokens) = parens tokens := by
  simp [parens, paren?, not_or.mp flat]

/-- Number of parentheses open after the given ones, unless one of them closes none. -/
def level? (depth : Nat) : List Byte → Option Nat
  | [] => some depth
  | paren :: parens =>
      if paren = Byte.closeParen ∧ depth = 0 then none
      else level? (depthAfter paren depth) parens

section Reading

variable {back : Text} {previous : Option Token} {tokens : List Token}

theorem fragments_spell (after : After back previous) (lexed : Lexed previous tokens) :
    ∀ offset depth, (lexemes ⟨back, spell tokens, offset, depth⟩).map NormalForm.fragment =
      tokens.flatMap fragments := by
  refine token_induction ?nil ?word ?byte ?literal ?remnant after lexed
  case nil =>
    intro back offset depth
    simp [lexemes_nil]
  case word =>
    intro back written tokens name begins ends ih offset depth
    obtain ⟨places, read, -, kept⟩ :=
      exists_lexemes_word (spell tokens) name.identifiers back offset depth
    rw [spell_cons, bytes, read, List.map_append, kept, ih]
    rfl
  case byte =>
    intro back plain tokens identifier quote ih offset depth
    rw [spell_cons, bytes, List.singleton_append, lexemes_code _ _ _ _ _ quote, List.map_cons, ih]
    simp [NormalForm.fragment, byte?, quote, fragments]
  case literal =>
    intro back mark content tokens quote closed ih offset depth
    rw [spell_cons, bytes, List.cons_append, lexemes_literal _ _ _ _ _ _ quote closed,
      List.map_cons, ih]
    simp [NormalForm.fragment, byte?, quote, fragments, width_cons, closed]
  case remnant =>
    intro back mark content quote unclosed offset depth
    rw [spell_cons, bytes, spell_nil, List.append_nil, lexemes_unclosed _ _ _ _ _ quote unclosed]
    simp [NormalForm.fragment, byte?, quote, fragments, width_cons, unclosed]

/-- The literals of a text are closed when none of its tokens is left open. -/
theorem closed_spell (after : After back previous) (lexed : Lexed previous tokens) :
    ∀ offset depth, Closed ⟨back, spell tokens, offset, depth⟩ ↔ Whole tokens := by
  refine token_induction ?nil ?word ?byte ?literal ?remnant after lexed
  case nil =>
    intro back offset depth
    simp [Whole, closed_nil]
  case word =>
    intro back written tokens name begins ends ih offset depth
    rw [spell_cons, bytes, closed_word name, ih]
    simp [Whole, isRemnant]
  case byte =>
    intro back plain tokens identifier quote ih offset depth
    rw [spell_cons, bytes, List.singleton_append, closed_cons _ _ _ _ quote, ih]
    simp [Whole, isRemnant]
  case literal =>
    intro back mark content tokens quote closed ih offset depth
    rw [spell_cons, bytes, List.cons_append, closed_literal _ _ _ _ _ quote closed, ih]
    simp [Whole, isRemnant]
  case remnant =>
    intro back mark content quote unclosed offset depth
    rw [spell_cons, bytes, spell_nil, List.append_nil]
    simp [Whole, isRemnant, not_closed_unclosed _ _ _ _ quote unclosed]

/-- How many parentheses are open at the end of a text, and whether each closing one closes one of
them, can be told from its parentheses alone. -/
theorem level_spell (after : After back previous) (lexed : Lexed previous tokens) :
    ∀ offset depth level, Nested ⟨back, spell tokens, offset, depth⟩ ∧
      endDepth ⟨back, spell tokens, offset, depth⟩ = level ↔
        level? depth (parens tokens) = some level := by
  refine token_induction ?nil ?word ?byte ?literal ?remnant after lexed
  case nil =>
    intro back offset depth level
    simp [parens, level?, endDepth_nil, Nested, code_nil]
  case word =>
    intro back written tokens name begins ends ih offset depth level
    rw [spell_cons, bytes, nested_word name, endDepth_word name, ih]
    rfl
  case byte =>
    intro back plain tokens identifier quote ih offset depth level
    rw [spell_cons, bytes, List.singleton_append, nested_cons quote, endDepth_cons _ _ _ _ quote,
      and_assoc, ih]
    by_cases paren : plain = Byte.openParen ∨ plain = Byte.closeParen
    · rw [parens_cons_of_paren paren, level?]
      by_cases stray : plain = Byte.closeParen ∧ depth = 0
      · simp [stray]
      · rw [if_neg stray]
        exact and_iff_right fun closing zero => stray ⟨closing, zero⟩
    · rw [parens_cons_of_flat paren, depthAfter_of_flat (not_or.mp paren)]
      exact and_iff_right fun closing => absurd closing (not_or.mp paren).2
  case literal =>
    intro back mark content tokens quote closed ih offset depth level
    have nested_eq : Nested ⟨back, mark :: (content ++ spell tokens), offset, depth⟩ ↔
        Nested ⟨content.reverse ++ mark :: back, spell tokens, offset + (content.length + 1),
          depth⟩ := by
      rw [Nested, Nested, code_literal _ _ _ _ _ quote closed]
    rw [spell_cons, bytes, List.cons_append, nested_eq, endDepth_literal _ _ _ _ _ quote closed, ih]
    rfl
  case remnant =>
    intro back mark content quote unclosed offset depth level
    have code_eq := code_unclosed offset depth back content quote unclosed
    have unnested : parens [remnant mark content] = [] := rfl
    simp [spell, bytes, Nested, endDepth, code_eq, unnested, level?]

theorem closed_start_spell (lexed : Lexed none tokens) :
    Closed (start (spell tokens)) ↔ Whole tokens :=
  closed_spell After.nil lexed 0 0

/-- The parentheses of a text are balanced when those among its tokens are. -/
theorem balanced_spell (lexed : Lexed none tokens) :
    Balanced (spell tokens) ↔ level? 0 (parens tokens) = some 0 := by
  rw [← level_spell After.nil lexed 0 0 0]
  exact ⟨fun balanced => ⟨balanced.nested, balanced.level⟩,
    fun ⟨nested, level⟩ => ⟨nested, level⟩⟩

end Reading

/-! ## One list of tokens for each text -/

theorem bytes_ne_nil {previous : Option Token} {token : Token} (follows : Follows previous token) :
    token.bytes ≠ [] := by
  cases token with
  | word written => exact follows.1.nonempty
  | _ => simp [bytes]

/-- Tokens end as their last one does. -/
theorem After.of_lexed {back : Text} {previous : Option Token} {tokens : List Token}
    (after : After back previous) (lexed : Lexed previous tokens) (whole : Whole tokens) :
    After ((spell tokens).reverse ++ back) (tokens.getLast?.or previous) := by
  induction tokens generalizing back previous with
  | nil => exact after
  | cons token tokens ih =>
      obtain ⟨⟨-, follows⟩, lexed⟩ := lexed
      rw [Whole, List.forall_mem_cons] at whole
      have rest := ih (after.of_token follows whole.1) lexed whole.2
      rw [spell_cons, List.reverse_append, List.append_assoc, List.getLast?_cons]
      cases last : tokens.getLast? with
      | none => simpa [last] using rest
      | some token => simpa [last] using rest

/-- The word that tokens begin with; empty if they begin with none. -/
def leading : List Token → Text
  | word written :: _ => written
  | _ => []

theorem takeWhile_spell {previous : Option Token} {tokens : List Token}
    (lexed : Lexed previous tokens) :
    (spell tokens).takeWhile Byte.isIdentifier = leading tokens := by
  cases tokens with
  | nil => rfl
  | cons token tokens =>
      obtain ⟨⟨-, follows⟩, lexed⟩ := lexed
      rw [spell_cons]
      cases token with
      | word written =>
          exact takeWhile_isIdentifier_append follows.1.identifiers (head?_spell_of_word lexed)
      | byte plain => simp [bytes, follows.1, leading]
      | literal mark content =>
          simp [bytes, Byte.isIdentifier_of_isQuote mark follows.1, leading]
      | remnant mark content =>
          simp [bytes, Byte.isIdentifier_of_isQuote mark follows.1, leading]

/-- A text is spelled by one list of tokens only. -/
theorem eq_of_spell_eq {previous : Option Token} {tokens others : List Token}
    (lexed : Lexed previous tokens) (other_lexed : Lexed previous others)
    (spelled : spell tokens = spell others) : tokens = others := by
  induction tokens generalizing previous others with
  | nil =>
      cases others with
      | nil => rfl
      | cons other others => simp [bytes_ne_nil other_lexed.1.2] at spelled
  | cons token tokens ih =>
      cases others with
      | nil => simp [bytes_ne_nil lexed.1.2] at spelled
      | cons other others =>
          suffices same : token = other by
            subst same
            rw [ih lexed.2 other_lexed.2 (List.append_cancel_left spelled)]
          have words := congrArg (List.takeWhile Byte.isIdentifier) spelled
          rw [takeWhile_spell lexed, takeWhile_spell other_lexed] at words
          have follows := lexed.1.2
          have other_follows := other_lexed.1.2
          -- The first byte tells words, plain bytes and marks apart, and the mark how
          -- far a literal runs.
          cases token with
          | word written =>
              cases other with
              | word other => exact congrArg word words
              | _ => exact absurd words follows.1.nonempty
          | byte plain =>
              cases other with
              | word other => exact absurd words.symm other_follows.1.nonempty
              | byte other => simp_all [bytes]
              | _ => simp_all [bytes, Follows]
          | literal mark content =>
              cases other with
              | word other => exact absurd words.symm other_follows.1.nonempty
              | byte other => simp_all [bytes, Follows]
              | literal other_mark other =>
                  obtain ⟨rfl, rest_eq⟩ : mark = other_mark ∧
                      content ++ spell tokens = other ++ spell others := by
                    simpa [bytes] using spelled
                  have length_eq := closing?_spell lexed
                  rw [rest_eq, closing?_spell other_lexed, Option.some.injEq] at length_eq
                  rw [(List.append_inj rest_eq length_eq.symm).1]
              | remnant other_mark other =>
                  obtain rfl := eq_nil_of_remnant other_lexed
                  obtain ⟨rfl, rest_eq⟩ : mark = other_mark ∧ content ++ spell tokens = other := by
                    simpa [bytes] using spelled
                  have closed := closing?_spell lexed
                  rw [rest_eq, other_follows.2.2] at closed
                  cases closed
          | remnant mark content =>
              obtain rfl := eq_nil_of_remnant lexed
              cases other with
              | word other => exact absurd words.symm other_follows.1.nonempty
              | byte other => simp_all [bytes, Follows]
              | literal other_mark other =>
                  obtain ⟨rfl, rest_eq⟩ : mark = other_mark ∧ content = other ++ spell others := by
                    simpa [bytes] using spelled
                  have closed := closing?_spell other_lexed
                  rw [← rest_eq, follows.2.2] at closed
                  cases closed
              | remnant other_mark other =>
                  obtain rfl := eq_nil_of_remnant other_lexed
                  simpa [bytes] using spelled

end Token

end TenantScope
