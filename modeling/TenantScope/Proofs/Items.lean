import TenantScope.Proofs.Dialects
import TenantScope.Proofs.Stages

/-!
# What a text holds besides white space

A text can be taken apart into its tokens.  Of these its items are left when white space is
passed over and words are taken in upper case, and texts in a row hold the items of the one and
then those of the other.
-/

namespace TenantScope

open Text Site Literal

/-! ## The tokens of a text -/

namespace Site

/-- Width of the token at a place: a literal, a word or one byte. -/
def tokenWidth (site : Site) : Nat :=
  if site.atQuote then Literal.width .standard site
  else max 1 (site.rest.takeWhile Byte.isIdentifier).length

/-- The token that begins at a place. -/
def token (site : Site) : Token :=
  match site.rest with
  | [] => .word []
  | byte :: rest =>
      if byte.isQuote then
        match closing? byte (escapesAt .standard site) rest with
        | some length => .literal byte (rest.take length)
        | none => .remnant byte rest
      else if byte.isIdentifier then .word (site.rest.takeWhile Byte.isIdentifier)
      else .byte byte

end Site

/-- The tokens of a text. -/
def Text.tokens (text : Text) : List Token :=
  ((start text).tour tokenWidth).map token

namespace Token

/-- Tokens are read from a place on. -/
private def ReadAs (back rest : Text) (tokens : List Token) : Prop :=
  ∀ offset depth, ((Site.mk back rest offset depth).tour tokenWidth).map Site.token = tokens

private theorem readAs_unit {back unit rest : Text} {token : Token} {tokens : List Token}
    (nonempty : unit ≠ [])
    (width_eq : ∀ offset depth, tokenWidth ⟨back, unit ++ rest, offset, depth⟩ = unit.length)
    (token_eq : ∀ offset depth, Site.token ⟨back, unit ++ rest, offset, depth⟩ = token)
    (others : ReadAs (unit.reverse ++ back) rest tokens) :
    ReadAs back (unit ++ rest) (token :: tokens) := by
  intro offset depth
  obtain ⟨level, tour_eq⟩ := tour_unit nonempty (width_eq offset depth)
  rw [tour_eq, List.map_cons, token_eq, others]

/-- A text has the tokens that it is spelled by. -/
theorem tokens_spell {tokens : List Token} (lexed : Lexed none tokens) :
    (spell tokens).tokens = tokens := by
  suffices read : ReadAs [] (spell tokens) tokens from read 0 0
  refine token_induction
    (motive := fun back tokens => ReadAs back (spell tokens) tokens) ?nil ?word ?byte
    ?literal ?remnant After.nil lexed
  case nil => exact fun back offset depth => rfl
  case word =>
    intro back written tokens name begins ends others
    have whole := takeWhile_isIdentifier_append name.identifiers ends
    obtain ⟨letter, letters, rfl⟩ := List.exists_cons_of_ne_nil name.nonempty
    have identifier := name.identifiers letter List.mem_cons_self
    have plain := Byte.isQuote_of_isIdentifier letter identifier
    rw [spell_cons, bytes]
    refine readAs_unit name.nonempty (fun offset depth => ?_) (fun offset depth => ?_) others
    · rw [tokenWidth, whole]
      simp [atQuote, byte?, plain]
    · rw [Site.token, whole]
      simp [plain, identifier]
  case byte =>
    intro back plain tokens identifier quote others
    rw [spell_cons, bytes]
    refine readAs_unit (List.cons_ne_nil plain []) (fun offset depth => ?_)
      (fun offset depth => ?_) others
    · simp [tokenWidth, atQuote, byte?, quote, identifier]
    · simp [Site.token, quote, identifier]
  case literal =>
    intro back mark content tokens quote closed others
    rw [spell_cons, bytes]
    refine readAs_unit (List.cons_ne_nil mark content) (fun offset depth => ?_)
      (fun offset depth => ?_) (by simpa using others)
    · simp [tokenWidth, atQuote, byte?, quote, width_cons, closed]
    · simp [Site.token, escapesAt_mk, quote, closed]
  case remnant =>
    intro back mark content quote unclosed
    rw [spell_cons, bytes]
    refine readAs_unit (List.cons_ne_nil mark content) (fun offset depth => ?_)
      (fun offset depth => ?_) (fun _ _ => rfl)
    · simp [tokenWidth, atQuote, byte?, quote, width_cons, unclosed]
    · simp [Site.token, escapesAt_mk, quote, unclosed]

end Token

namespace Text

open Token

theorem lexed_tokens (text : Text) : Lexed none text.tokens := by
  obtain ⟨tokens, lexed, rfl⟩ := exists_lexed text
  rwa [tokens_spell lexed]

theorem spell_tokens (text : Text) : spell text.tokens = text := by
  obtain ⟨tokens, lexed, rfl⟩ := exists_lexed text
  rw [tokens_spell lexed]

theorem whole_tokens {text : Text} : Whole text.tokens ↔ Closed (start text) := by
  rw [← closed_start_spell (lexed_tokens text), spell_tokens]

end Text

/-! ## Items -/

/-- Something in a text that is no white space. -/
inductive Item
  /-- A whole word, in upper case. -/
  | word (spoken : Text)
  /-- A byte outside words and literals. -/
  | byte (plain : Byte)
  /-- A literal with its mark, what follows that mark, and whether it is an escape string. -/
  | literal (mark : Byte) (content : Text) (escapes : Bool)
  deriving DecidableEq, Repr

namespace Token

/-- The item that a token is after the token `previous`, if it is no white space. -/
def item? (previous : Option Token) : Token → Option Item
  | word written => some (.word (upper written))
  | byte plain => if plain.isSpace then none else some (.byte plain)
  | literal mark content => some (.literal mark content (escapes previous mark))
  | remnant mark content => some (.literal mark content (escapes previous mark))

/-- The items among tokens after the token `previous`. -/
def items : (previous : Option Token) → List Token → List Item
  | _, [] => []
  | previous, token :: tokens => (item? previous token).toList ++ items (some token) tokens

/-- A token before others has a say in them only when it makes the first one an escape string. -/
theorem items_congr {previous other : Option Token}
    (same : previous.any isEscapeLetter = other.any isEscapeLetter) (tokens : List Token) :
    items previous tokens = items other tokens := by
  cases tokens with
  | nil => rfl
  | cons token tokens => cases token <;> simp only [items, item?, escapes, same]

/-- No token before others has a say in them when they begin with no apostrophe. -/
theorem items_of_unquoted {tokens : List Token}
    (unquoted : (spell tokens).head? ≠ some Byte.apostrophe) (previous other : Option Token) :
    items previous tokens = items other tokens := by
  cases tokens with
  | nil => rfl
  | cons token tokens =>
      have plain {mark : Byte} (apart : mark ≠ Byte.apostrophe) (previous : Option Token) :
          escapes previous mark = false := by
        simp [escapes, apart]
      cases token with
      | word written => rfl
      | byte plain => rfl
      | literal mark content =>
          have apart : mark ≠ Byte.apostrophe := by simpa [bytes] using unquoted
          simp only [items, item?, plain apart]
      | remnant mark content =>
          have apart : mark ≠ Byte.apostrophe := by simpa [bytes] using unquoted
          simp only [items, item?, plain apart]

theorem items_append (previous : Option Token) (tokens others : List Token) :
    items previous (tokens ++ others) =
      items previous tokens ++ items (tokens.getLast?.or previous) others := by
  induction tokens generalizing previous with
  | nil => rfl
  | cons token tokens ih =>
      have last : (token :: tokens).getLast?.or previous = tokens.getLast?.or (some token) := by
        rw [List.getLast?_cons]
        cases tokens.getLast? <;> rfl
      rw [List.cons_append, items, ih, items, last, List.append_assoc]

/-- Tokens that begin with no escape string are read as they would be at the beginning of a text. -/
theorem lexed_of_fresh {previous : Option Token} {tokens : List Token}
    (lexed : Lexed previous tokens)
    (fresh : (spell tokens).head? = some Byte.apostrophe → previous.any isEscapeLetter = false) :
    Lexed none tokens ∧ items previous tokens = items none tokens := by
  cases tokens with
  | nil => exact ⟨trivial, rfl⟩
  | cons token tokens =>
      obtain ⟨⟨-, follows⟩, lexed⟩ := lexed
      have same {mark : Byte} {content : Text}
          (begins : token.bytes = mark :: content) : escapes previous mark = escapes none mark := by
        by_cases apostrophe : mark = Byte.apostrophe
        · subst apostrophe
          simp [escapes, fresh (by rw [spell_cons, begins]; rfl)]
        · simp [escapes, apostrophe]
      cases token with
      | word written => exact ⟨⟨⟨rfl, follows.1, rfl⟩, lexed⟩, rfl⟩
      | byte plain => exact ⟨⟨⟨rfl, follows⟩, lexed⟩, rfl⟩
      | literal mark content =>
          have same := same rfl
          exact ⟨⟨⟨rfl, follows.1, rfl, same ▸ follows.2.2⟩, lexed⟩,
            by rw [items, items, item?, item?, same]⟩
      | remnant mark content =>
          have same := same rfl
          exact ⟨⟨⟨rfl, follows.1, rfl, same ▸ follows.2.2⟩, lexed⟩,
            by rw [items, items, item?, item?, same]⟩

/-- Tokens that end in a literal end in its mark. -/
theorem head?_reverse_of_isMarked {tokens : List Token} (lexed : Lexed none tokens) {mark : Byte}
    (marked : (tokens.getLast?.or none).any (isMarked mark) = true) :
    mark.isQuote = true ∧ (spell tokens).reverse.head? = some mark := by
  rcases List.eq_nil_or_concat tokens with rfl | ⟨front, last, rfl⟩
  · simp at marked
  · rw [List.concat_eq_append] at lexed marked ⊢
    obtain ⟨-, ⟨-, follows⟩, -⟩ := linked_append.mp lexed
    cases last with
    | literal other content =>
        obtain rfl : other = mark := by simpa [isMarked] using marked
        have ends := getLast?_of_closing? follows.2.2
        obtain ⟨inside, rfl⟩ := List.getLast?_eq_some_iff.mp ends
        exact ⟨follows.1, by simp [bytes]⟩
    | word written => simp [isMarked] at marked
    | byte plain => simp [isMarked] at marked
    | remnant other content => simp [isMarked] at marked

end Token

namespace Text

open Token

/-- What the text holds besides white space. -/
def items (text : Text) : List Item :=
  Token.items none text.tokens

theorem items_spell {tokens : List Token} (lexed : Lexed none tokens) :
    items (spell tokens) = Token.items none tokens := by
  rw [items, tokens_spell lexed]

/-- The tokens of two texts in a row are those of the one and those of the other,
and so are the items. -/
theorem tokens_append {text after : Text} (closed : Closed (start text))
    (seam : Seam text.reverse after) :
    (text ++ after).tokens = text.tokens ++ after.tokens ∧
      items (text ++ after) = items text ++ items after := by
  have lexed := lexed_tokens text
  have whole := whole_tokens.mpr closed
  have ending := After.nil.of_lexed lexed whole
  rw [spell_tokens, List.append_nil] at ending
  have unfinished : (text.tokens.getLast?.or none).any isRemnant = false := by
    cases last : text.tokens.getLast? with
    | none => rfl
    | some token => exact whole token (List.mem_of_getLast? last)
  have single (mark : Byte) (marked : (text.tokens.getLast?.or none).any (isMarked mark) = true) :
      after.head? ≠ some mark := fun same => by
    obtain ⟨quote, ends⟩ := head?_reverse_of_isMarked lexed marked
    rw [spell_tokens, ← same] at ends
    exact seam.mark (by simp [same, quote]) ends
  obtain ⟨others, others_lexed, spelled⟩ := exists_lexed_after ending unfinished
    (fun word => seam.word (ending.word.trans word)) single
  obtain ⟨fresh, items_eq⟩ := lexed_of_fresh others_lexed fun begins =>
    ending.escape.symm.trans (seam.escape (spelled ▸ begins))
  have joined := linked_append.mpr ⟨lexed, others_lexed⟩
  have whole_eq : spell (text.tokens ++ others) = text ++ after := by
    rw [spell_append, spell_tokens, spelled]
  rw [← whole_eq, tokens_spell joined, ← spelled, tokens_spell fresh, items_spell joined,
    Token.items_append, items_eq, items_spell fresh]
  exact ⟨rfl, rfl⟩

/-- The items of two texts in a row are those of the one and those of the other. -/
theorem items_append {text after : Text} (closed : Closed (start text))
    (seam : Seam text.reverse after) :
    items (text ++ after) = items text ++ items after :=
  (tokens_append closed seam).2

theorem items_word {written : Text} (name : IsName written) :
    items written = [.word (upper written)] := by
  have lexed : Lexed none [word written] := ⟨⟨rfl, name, rfl⟩, trivial⟩
  simpa [bytes, Token.items, Token.item?] using items_spell lexed

theorem items_byte {byte : Byte} (identifier : byte.isIdentifier = false)
    (quote : byte.isQuote = false) :
    items [byte] = if byte.isSpace then [] else [.byte byte] := by
  have lexed : Lexed none [Token.byte byte] := ⟨⟨rfl, identifier, quote⟩, trivial⟩
  have items_eq := items_spell lexed
  rw [Token.items, Token.item?] at items_eq
  cases space : byte.isSpace <;> simpa [bytes, space, Token.items] using items_eq

/-- A byte that belongs to no word and to no literal is an item of its own. -/
theorem items_cons {byte : Byte} (identifier : byte.isIdentifier = false)
    (quote : byte.isQuote = false) (text : Text) :
    items (byte :: text) = (if byte.isSpace then [] else [.byte byte]) ++ items text := by
  have closed : Closed (start [byte]) := closed_of_plain 0 0 (by simpa using quote)
  rw [← items_byte identifier quote]
  exact items_append closed (Seam.of_plain_last identifier quote [] text)

theorem items_of_blank {text : Text} (blank : ∀ byte ∈ text, byte.isSpace = true) :
    items text = [] := by
  induction text with
  | nil => rfl
  | cons byte text ih =>
      obtain ⟨space, blank⟩ := List.forall_mem_cons.mp blank
      rw [items_cons (Byte.isIdentifier_of_isSpace byte space) (Byte.isQuote_of_isSpace byte space),
        ih blank]
      simp [space]

/-- Only white space holds no items. -/
theorem isSpace_of_items_eq_nil {text : Text} (nothing : items text = []) :
    ∀ byte ∈ text, byte.isSpace = true := by
  suffices blank : ∀ tokens previous, Token.items previous tokens = [] →
      ∀ byte ∈ spell tokens, byte.isSpace = true by
    have spaces := blank text.tokens none nothing
    rwa [spell_tokens] at spaces
  intro tokens
  induction tokens with
  | nil => simp
  | cons token tokens ih =>
      intro previous nothing
      obtain ⟨here, others⟩ := List.append_eq_nil_iff.mp nothing
      rw [spell_cons, List.forall_mem_append]
      refine ⟨?_, ih _ others⟩
      cases token with
      | byte plain =>
          have space : plain.isSpace = true := by simpa [item?] using here
          simpa [bytes] using space
      | word written => simp [item?] at here
      | literal mark content => simp [item?] at here
      | remnant mark content => simp [item?] at here

theorem items_append_blank {text blank : Text} (closed : Closed (start text))
    (is_blank : ∀ byte ∈ blank, byte.isSpace = true) : items (text ++ blank) = items text := by
  rw [items_append closed (Seam.of_blank_right is_blank _), items_of_blank is_blank,
    List.append_nil]

theorem items_blank_append {text blank : Text} (is_blank : ∀ byte ∈ blank, byte.isSpace = true) :
    items (blank ++ text) = items text := by
  have closed : Closed (start blank) := closed_of_plain 0 0 fun byte member =>
    Byte.isQuote_of_isSpace byte (is_blank byte member)
  rw [items_append closed (Seam.of_blank_left (by simpa using is_blank) _), items_of_blank is_blank,
    List.nil_append]

theorem items_trimRight {text : Text} (closed : Closed (start text)) :
    items text.trimRight = items text := by
  obtain ⟨trail, blank, split⟩ := exists_trimRight_append text
  conv => rhs; rw [split, items_append_blank (closed_trimRight.mpr closed) blank]

/-- White space around a text holds no items, and a text without it has its literals closed
still. -/
theorem items_trim {text : Text} (closed : Closed (start text)) :
    Closed (start text.trim) ∧ items text.trim = items text := by
  obtain ⟨lead, trail, lead_blank, trail_blank, split⟩ := exists_trim_append text
  have lead_closed : Closed (start lead) := closed_of_plain 0 0 fun byte member =>
    Byte.isQuote_of_isSpace byte (lead_blank byte member)
  rw [split, closed_start_append lead_closed (Seam.of_blank_left (by simpa using lead_blank) _)]
    at closed
  have trimmed := closed_of_append_blank trail_blank closed
  refine ⟨trimmed, ?_⟩
  conv => rhs; rw [split, items_blank_append lead_blank, items_append_blank trimmed trail_blank]

end Text

/-! ## Texts put together -/

/-- The literals of a text are closed, and it holds the given items. -/
structure Holds (text : Text) (held : List Item) : Prop where
  closed : Closed (start text)
  items_eq : items text = held

namespace Holds

variable {text after : Text} {held others : List Item}

theorem of_closed (closed : Closed (start text)) : Holds text (items text) :=
  ⟨closed, rfl⟩

theorem append (first : Holds text held) (second : Holds after others)
    (seam : Seam text.reverse after) :
    Holds (text ++ after) (held ++ others) where
  closed := (closed_start_append first.closed seam).mpr second.closed
  items_eq := by rw [items_append first.closed seam, first.items_eq, second.items_eq]

theorem of_byte {byte : Byte} (identifier : byte.isIdentifier = false)
    (quote : byte.isQuote = false) :
    Holds [byte] (if byte.isSpace then [] else [.byte byte]) :=
  ⟨closed_of_plain 0 0 (by simpa using quote), items_byte identifier quote⟩

theorem append_blank (holds : Holds text held) {blank : Text}
    (is_blank : ∀ byte ∈ blank, byte.isSpace = true) :
    Holds (text ++ blank) held where
  closed := closed_append_blank is_blank holds.closed
  items_eq := (items_append_blank holds.closed is_blank).trans holds.items_eq

theorem of_word {written : Text} (name : IsName written) :
    Holds written [.word (upper written)] where
  closed := closed_of_plain 0 0 fun byte member =>
    Byte.isQuote_of_isIdentifier byte (name.identifiers byte member)
  items_eq := items_word name

/-- A keyword between blanks may stand after any text. -/
theorem append_keyword (holds : Holds text held) {keyword : Text} (name : IsName keyword) :
    Holds (text ++ (Byte.blank :: keyword ++ [Byte.blank])) (held ++ [.word (upper keyword)]) := by
  have blank : Holds [Byte.blank] [] := of_byte (by decide) (by decide)
  have spaced : Holds (Byte.blank :: keyword ++ [Byte.blank]) [.word (upper keyword)] :=
    (blank.append (of_word name) (Seam.of_plain_last (by decide) (by decide) [] _)).append blank
      (Seam.of_plain_head (by decide) (by decide) _ [])
  exact holds.append spaced (Seam.of_plain_head (by decide) (by decide) _ _)

/-- Anything may stand after a blank. -/
theorem append_after_blank {front : Text} (holds : Holds (text ++ (front ++ [Byte.blank])) held)
    (second : Holds after others) :
    Holds (text ++ (front ++ [Byte.blank]) ++ after) (held ++ others) :=
  holds.append second (by
    rw [← List.append_assoc, List.reverse_append]
    exact Seam.of_plain_last (by decide) (by decide) _ _)

theorem parenthesized (holds : Holds text held) :
    Holds ([Byte.openParen] ++ text ++ [Byte.closeParen])
      (.byte Byte.openParen :: (held ++ [.byte Byte.closeParen])) := by
  have opened : Holds [Byte.openParen] [.byte Byte.openParen] := of_byte (by decide) (by decide)
  have shut : Holds [Byte.closeParen] [.byte Byte.closeParen] := of_byte (by decide) (by decide)
  exact (opened.append holds (Seam.of_plain_last (by decide) (by decide) [] _)).append shut
    (Seam.of_plain_head (by decide) (by decide) _ [])

theorem trimRight (holds : Holds text held) : Holds text.trimRight held where
  closed := closed_trimRight.mpr holds.closed
  items_eq := (items_trimRight holds.closed).trans holds.items_eq

end Holds

end TenantScope
