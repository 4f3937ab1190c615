import Mathlib.Data.List.DropRight
import TenantScope.Proofs.Tokens

/-!
# The normal form of a list of tokens

To put a text in normal form is to settle the white space between its tokens and the semicolons
after the last of them, so the normal form is read as the same words, literals and parentheses.  A
text in normal form is its own normal form.
-/

namespace TenantScope

open Text Site Literal

namespace Token

/-! ## Spacing -/

/-- A semicolon or a byte of white space, neither of which comes before the last
byte of a normal form. -/
def trails (byte : Byte) : Bool :=
  byte == Byte.semicolon || byte.isSpace

theorem trails_of_blank {text : Text} (blank : ∀ byte ∈ text, byte.isSpace = true) :
    ∀ byte ∈ text, trails byte = true := fun byte member => by
  rw [trails, blank byte member, Bool.or_true]

theorem trails_of_isIdentifier {byte : Byte} (identifier : byte.isIdentifier = true) :
    trails byte = false := by
  have apart : byte ≠ Byte.semicolon := fun same => by
    subst same
    exact absurd identifier (by decide)
  simp [trails, apart, Byte.isSpace_of_isIdentifier byte identifier]

theorem trails_of_isQuote {byte : Byte} (quote : byte.isQuote = true) : trails byte = false := by
  have apart : byte ≠ Byte.semicolon := fun same => by
    subst same
    exact absurd quote (by decide)
  simp [trails, apart, Byte.isSpace_of_isQuote byte quote]

/-- A token that the normal form does not end in before its semicolon. -/
def isTrailer : Token → Bool
  | byte plain => trails plain
  | _ => false

/-- The tokens with one blank wherever white space stood between two of them; `pending` tells that
white space has come before the first of them. -/
def respace : (pending : Bool) → List Token → List Token
  | _, [] => []
  | pending, token :: tokens =>
      if token.isGap then respace true tokens
      else (if pending then [byte Byte.blank] else []) ++ token :: respace false tokens

/-- The tokens with one blank for every run of white space between them. -/
def squeeze (tokens : List Token) : List Token :=
  respace false (tokens.dropWhile isGap)

/-- The last token before the semicolon, with the semicolon. -/
def finish : Token → List Token
  | remnant mark content =>
      [remnant mark (dropRightWhile trails content ++ [Byte.semicolon])]
  | token => [token, byte Byte.semicolon]

/-- The tokens of the normal form. -/
def normal (tokens : List Token) : List Token :=
  match (squeeze tokens).reverse.dropWhile isTrailer with
  | [] => []
  | last :: front => front.reverse ++ finish last

theorem respace_of_gap (pending : Bool) {token : Token} (gap : token.isGap = true)
    (tokens : List Token) : respace pending (token :: tokens) = respace true tokens := by
  rw [respace, if_pos gap]

theorem respace_of_visible (pending : Bool) {token : Token} (visible : token.isGap = false)
    (tokens : List Token) :
    respace pending (token :: tokens) =
      (if pending then [byte Byte.blank] else []) ++ token :: respace false tokens := by
  rw [respace, if_neg (by simp [visible])]

/-- The normal form ends in the last token that is no trailer, unless there is none. -/
theorem normal_cases (tokens : List Token) :
    (normal tokens = [] ∧ ∀ token ∈ squeeze tokens, token.isTrailer = true) ∨
      ∃ front last rest, squeeze tokens = front ++ last :: rest ∧
        normal tokens = front ++ finish last ∧
        last.isTrailer = false ∧ ∀ token ∈ rest, token.isTrailer = true := by
  have split := List.takeWhile_append_dropWhile (p := isTrailer) (l := (squeeze tokens).reverse)
  cases dropped : (squeeze tokens).reverse.dropWhile isTrailer with
  | nil =>
      refine .inl ⟨by rw [normal, dropped], fun token member => ?_⟩
      exact List.dropWhile_eq_nil_iff.mp dropped token (List.mem_reverse.mpr member)
  | cons last front =>
      refine .inr ⟨front.reverse, last, ((squeeze tokens).reverse.takeWhile isTrailer).reverse,
        ?_, by rw [normal, dropped], ?_, ?_⟩
      · rw [dropped] at split
        simpa using (congrArg List.reverse split).symm
      · have head_eq := List.head?_dropWhile_not isTrailer (squeeze tokens).reverse
        simpa [dropped] using head_eq
      · intro token member
        exact List.mem_takeWhile_imp (List.mem_reverse.mp member)

/-! ## Neighbours in normal form -/

/-- White space between two tokens, and a semicolon after the last one, do not matter for which
tokens may stand side by side. -/
structure Spaceable (joins : Option Token → Token → Prop) : Prop where
  blank : ∀ {previous token}, joins previous token → joins previous (byte Byte.blank)
  after_gap : ∀ {gap token}, gap.isGap = true → joins (some gap) token →
    joins (some (byte Byte.blank)) token ∧ joins none token
  semicolon : ∀ {token}, token.isRemnant = false → joins (some token) (byte Byte.semicolon)
  trimmed : ∀ {previous mark content}, joins previous (remnant mark content) →
    joins previous (remnant mark (dropRightWhile trails content ++ [Byte.semicolon]))

section Spaceable

variable {joins : Option Token → Token → Prop} (spaceable : Spaceable joins)

include spaceable

theorem linked_respace {previous : Option Token} {tokens : List Token} :
    (Linked joins previous tokens → Linked joins previous (respace false tokens)) ∧
      (∀ gap : Token, gap.isGap = true → joins previous (byte Byte.blank) →
        Linked joins (some gap) tokens → Linked joins previous (respace true tokens)) := by
  induction tokens generalizing previous with
  | nil => exact ⟨fun _ => trivial, fun _ _ _ _ => trivial⟩
  | cons token tokens ih =>
      cases token_gap : token.isGap with
      | true =>
          rw [respace_of_gap _ token_gap, respace_of_gap _ token_gap]
          exact ⟨fun ⟨joined, linked⟩ => ih.2 token token_gap (spaceable.blank joined) linked,
            fun gap _ blank ⟨_, linked⟩ => ih.2 token token_gap blank linked⟩
      | false =>
          rw [respace_of_visible _ token_gap, respace_of_visible _ token_gap]
          exact ⟨fun ⟨joined, linked⟩ => ⟨joined, ih.1 linked⟩,
            fun gap is_gap blank ⟨joined, linked⟩ =>
            ⟨blank, (spaceable.after_gap is_gap joined).1, ih.1 linked⟩⟩

theorem linked_dropWhile_gap {tokens : List Token} (linked : Linked joins none tokens) :
    Linked joins none (tokens.dropWhile isGap) := by
  induction tokens with
  | nil => trivial
  | cons token tokens ih =>
      cases gap : token.isGap with
      | true =>
          rw [List.dropWhile_cons_of_pos gap]
          refine ih ?_
          cases tokens with
          | nil => trivial
          | cons next tokens => exact ⟨(spaceable.after_gap gap linked.2.1).2, linked.2.2⟩
      | false =>
          rw [List.dropWhile_cons_of_neg (by simp [gap])]
          exact linked

theorem linked_squeeze {tokens : List Token} (linked : Linked joins none tokens) :
    Linked joins none (squeeze tokens) :=
  (linked_respace spaceable).1 (linked_dropWhile_gap spaceable linked)

/-- Tokens that may stand side by side may do so in normal form. -/
theorem linked_normal {tokens : List Token} (linked : Linked joins none tokens) :
    Linked joins none (normal tokens) := by
  rcases normal_cases tokens with ⟨normal_eq, -⟩ | ⟨front, last, rest, squeeze_eq, normal_eq, -, -⟩
  · rw [normal_eq]
    trivial
  · have squeezed := linked_squeeze spaceable linked
    rw [squeeze_eq, linked_append] at squeezed
    obtain ⟨linked_front, joined, -⟩ := squeezed
    rw [normal_eq, linked_append]
    refine ⟨linked_front, ?_⟩
    cases last with
    | remnant mark content => exact ⟨spaceable.trimmed joined, trivial⟩
    | word written => exact ⟨joined, spaceable.semicolon rfl, trivial⟩
    | byte plain => exact ⟨joined, spaceable.semicolon rfl, trivial⟩
    | literal mark content => exact ⟨joined, spaceable.semicolon rfl, trivial⟩

end Spaceable

/-- What an unclosed literal ends in, semicolons and white space, has no part in its being
unclosed. -/
theorem closing?_trimmed {mark : Byte} {escapes : Bool} {content : Text}
    (quote : mark.isQuote = true) (unclosed : closing? mark escapes content = none) :
    closing? mark escapes (dropRightWhile trails content ++ [Byte.semicolon]) = none := by
  have split := dropRightWhile_append_takeWhile trails content
  have apart : mark ≠ Byte.semicolon := fun same => by
    subst same
    exact absurd quote (by decide)
  refine closing?_append_eq_none ?_ (by simpa using apart)
  cases closed : closing? mark escapes (dropRightWhile trails content) with
  | none => rfl
  | some length =>
      rw [← split, closing?_append closed] at unclosed
      · simp at unclosed
      · intro head_eq
        have dropped : trails mark = true :=
          List.mem_takeWhile_imp (List.mem_reverse.mp (List.mem_of_mem_head? head_eq))
        simp [trails_of_isQuote quote] at dropped

theorem spaceable_joins : Spaceable Joins where
  blank joined := ⟨joined.1, by decide, by decide⟩
  after_gap := by
    intro gap token is_gap joined
    obtain ⟨plain, rfl, -⟩ := exists_of_isGap is_gap
    obtain ⟨-, follows⟩ := joined
    cases token with
    | word written => exact ⟨⟨rfl, follows⟩, rfl, follows⟩
    | byte other => exact ⟨⟨rfl, follows⟩, rfl, follows⟩
    | literal mark content => exact ⟨⟨rfl, follows⟩, rfl, follows⟩
    | remnant mark content => exact ⟨⟨rfl, follows⟩, rfl, follows⟩
  semicolon open_token := ⟨open_token, by decide, by decide⟩
  trimmed joined := ⟨joined.1, joined.2.1, joined.2.2.1, closing?_trimmed joined.2.1 joined.2.2.2⟩

/-! ## The text in normal form -/

theorem joinAfter_kept (pending : Bool) {written : Text} (written_ne : written ≠ [])
    (others : List Fragment) :
    Fragment.joinAfter pending (written.map (fun byte => .kept [byte]) ++ others) =
      (if pending then [Byte.blank] else []) ++ (written ++ Fragment.joinAfter false others) := by
  induction written generalizing pending with
  | nil => exact absurd rfl written_ne
  | cons byte written ih =>
      rw [List.map_cons, List.cons_append, Fragment.joinAfter]
      cases written with
      | nil => simp
      | cons next written =>
          rw [ih false (by simp)]
          simp

theorem joinAfter_fragments {previous : Option Token} {tokens : List Token}
    (lexed : Lexed previous tokens) (pending : Bool) :
    Fragment.joinAfter pending (tokens.flatMap fragments) = spell (respace pending tokens) := by
  induction tokens generalizing previous pending with
  | nil => cases pending <;> rfl
  | cons token tokens ih =>
      obtain ⟨⟨-, follows⟩, lexed⟩ := lexed
      have tail := fun pending => ih lexed pending
      rw [List.flatMap_cons]
      cases token with
      | word written =>
          rw [fragments, joinAfter_kept pending follows.1.nonempty, tail,
            respace_of_visible pending rfl, spell_append, spell_cons]
          cases pending <;> rfl
      | byte plain =>
          cases gap : plain.isSpace with
          | true =>
              rw [respace_of_gap pending (show (byte plain).isGap = true from gap), ← tail]
              simp [fragments, Fragment.ofByte, gap, Fragment.joinAfter]
          | false =>
              rw [respace_of_visible pending (show (byte plain).isGap = false from gap),
                spell_append, spell_cons, ← tail]
              cases pending
                <;> simp [fragments, Fragment.ofByte, gap, Fragment.joinAfter, bytes, spell]
      | literal mark content =>
          rw [respace_of_visible pending rfl, spell_append, spell_cons, ← tail]
          cases pending <;> simp [fragments, Fragment.joinAfter, bytes, spell]
      | remnant mark content =>
          rw [respace_of_visible pending rfl, spell_append, spell_cons, ← tail]
          cases pending <;> simp [fragments, Fragment.joinAfter, bytes, spell]

/-- Before a kept fragment nothing is pending at the beginning of a text. -/
theorem join_of_visible {previous : Option Token} {token : Token} (follows : Follows previous token)
    (visible : token.isGap = false) (others : List Fragment) :
    Fragment.join (fragments token ++ others) =
      Fragment.joinAfter false (fragments token ++ others) := by
  cases token with
  | word written =>
      obtain ⟨letter, written, rfl⟩ := List.exists_cons_of_ne_nil follows.1.nonempty
      simp [fragments, Fragment.join, Fragment.joinAfter]
  | byte plain =>
      have kept : plain.isSpace = false := visible
      simp [fragments, Fragment.ofByte, kept, Fragment.join, Fragment.joinAfter]
  | literal mark content => simp [fragments, Fragment.join, Fragment.joinAfter]
  | remnant mark content => simp [fragments, Fragment.join, Fragment.joinAfter]

theorem join_fragments {previous : Option Token} {tokens : List Token}
    (lexed : Lexed previous tokens) :
    Fragment.join (tokens.flatMap fragments) = spell (squeeze tokens) := by
  induction tokens generalizing previous with
  | nil => rfl
  | cons token tokens ih =>
      cases gap : token.isGap with
      | true =>
          obtain ⟨plain, rfl, space⟩ := exists_of_isGap gap
          rw [squeeze, List.dropWhile_cons_of_pos gap, ← squeeze, ← ih lexed.2]
          simp [fragments, Fragment.ofByte, space, Fragment.join]
      | false =>
          rw [squeeze, List.dropWhile_cons_of_neg (by simp [gap]), ← joinAfter_fragments lexed,
            List.flatMap_cons, join_of_visible lexed.1.2 gap]

theorem dropRightWhile_append_of_pos {drop : Byte → Bool} {text trail : Text}
    (dropped : ∀ byte ∈ trail, drop byte = true) :
    dropRightWhile drop (text ++ trail) = dropRightWhile drop text := by
  rw [dropRightWhile, List.reverse_append, List.dropWhile_append_of_pos (by simpa using dropped)]
  rfl

theorem dropRightWhile_append_cons {drop : Byte → Bool} {byte : Byte} (kept : drop byte = false)
    (text rest : Text) :
    dropRightWhile drop (text ++ byte :: rest) = text ++ byte :: dropRightWhile drop rest := by
  rw [dropRightWhile, List.reverse_append, List.reverse_cons, List.append_assoc,
    List.dropWhile_append]
  split
  · rename_i dropped
    simp only [List.isEmpty_iff] at dropped
    simp [kept, dropRightWhile, dropped]
  · simp [dropRightWhile]

theorem bytes_of_isTrailer {token : Token} (trailer : token.isTrailer = true) :
    ∀ byte ∈ token.bytes, trails byte = true := by
  cases token <;> simp_all [isTrailer, bytes]

theorem trails_of_mem_spell {tokens : List Token}
    (trailers : ∀ token ∈ tokens, token.isTrailer = true) :
    ∀ byte ∈ spell tokens, trails byte = true := by
  intro byte member
  obtain ⟨token, token_mem, byte_mem⟩ := List.mem_flatMap.mp member
  exact bytes_of_isTrailer (trailers token token_mem) byte byte_mem

theorem terminate_eq (text : Text) :
    NormalForm.terminate text =
      if dropRightWhile trails text = [] then []
      else dropRightWhile trails text ++ [Byte.semicolon] := by
  have trails_eq : (fun byte : Byte => byte == Byte.semicolon || byte.isSpace) = trails := rfl
  rw [NormalForm.terminate, trails_eq]
  cases dropRightWhile trails text <;> rfl

theorem terminate_spell_of_trailers {tokens : List Token}
    (trailers : ∀ token ∈ tokens, token.isTrailer = true) :
    NormalForm.terminate (spell tokens) = [] := by
  have nothing : dropRightWhile trails (spell tokens) = [] := by
    rw [dropRightWhile, List.reverse_eq_nil_iff, List.dropWhile_eq_nil_iff]
    intro byte member
    exact trails_of_mem_spell trailers byte (List.mem_reverse.mp member)
  rw [terminate_eq, if_pos nothing]

/-- Of the last token before the semicolon, only what an unclosed literal ends in is taken off. -/
theorem exists_bytes_finish {previous : Option Token} {last : Token}
    (follows : Follows previous last) (visible : last.isTrailer = false) :
    ∃ lead byte trail, last.bytes = lead ++ byte :: trail ∧ trails byte = false ∧
      spell (finish last) = lead ++ byte :: (dropRightWhile trails trail ++ [Byte.semicolon]) := by
  cases last with
  | word written =>
      obtain ⟨lead, letter, rfl⟩ :=
        (List.eq_nil_or_concat written).resolve_left follows.1.nonempty
      have identifier := follows.1.identifiers letter (by simp)
      exact ⟨lead, letter, [], by simp [bytes], trails_of_isIdentifier identifier,
        by simp [finish, bytes, dropRightWhile]⟩
  | byte plain => exact ⟨[], plain, [], rfl, visible, rfl⟩
  | literal mark content =>
      obtain ⟨quote, -, closed⟩ := follows
      have last_eq := getLast?_of_closing? closed
      obtain ⟨front, rfl⟩ := List.getLast?_eq_some_iff.mp last_eq
      exact ⟨mark :: front, mark, [], by simp [bytes], trails_of_isQuote quote,
        by simp [finish, bytes, dropRightWhile]⟩
  | remnant mark content =>
      exact ⟨[], mark, content, rfl, trails_of_isQuote follows.1, by simp [finish, bytes]⟩

theorem terminate_spell {previous : Option Token} {front rest : List Token} {last : Token}
    (follows : Follows previous last) (visible : last.isTrailer = false)
    (trailers : ∀ token ∈ rest, token.isTrailer = true) :
    NormalForm.terminate (spell (front ++ last :: rest)) = spell (front ++ finish last) := by
  obtain ⟨lead, byte, trail, bytes_eq, kept, finish_eq⟩ := exists_bytes_finish follows visible
  have trimmed : dropRightWhile trails (spell (front ++ last :: rest)) =
      spell front ++ (lead ++ byte :: dropRightWhile trails trail) := by
    rw [spell_append, spell_cons, bytes_eq, ← List.append_assoc,
      dropRightWhile_append_of_pos (trails_of_mem_spell trailers), ← List.append_assoc,
      dropRightWhile_append_cons kept, List.append_assoc]
  rw [terminate_eq, trimmed, if_neg (by simp), spell_append, finish_eq]
  simp

theorem normalize_eq_terminate {tokens : List Token} (lexed : Lexed none tokens) :
    normalize (spell tokens) = NormalForm.terminate (spell (squeeze tokens)) := by
  rw [← join_fragments lexed, ← fragments_spell After.nil lexed 0 0]
  rfl

/-- The normal form of a text is spelled by the normal form of its tokens. -/
theorem normalize_spell {tokens : List Token} (lexed : Lexed none tokens) :
    normalize (spell tokens) = spell (normal tokens) := by
  rw [normalize_eq_terminate lexed]
  rcases normal_cases tokens with
    ⟨normal_eq, trailers⟩ | ⟨front, last, rest, squeeze_eq, normal_eq, visible, trailers⟩
  · rw [normal_eq, terminate_spell_of_trailers trailers]
    rfl
  · have squeezed := linked_squeeze spaceable_joins lexed
    rw [squeeze_eq, linked_append] at squeezed
    rw [normal_eq, squeeze_eq, terminate_spell squeezed.2.1.2 visible trailers]

/-- The tokens of the normal form are read as they are written. -/
theorem lexed_normal {tokens : List Token} (lexed : Lexed none tokens) :
    Lexed none (normal tokens) :=
  linked_normal spaceable_joins lexed

/-! ## Texts in normal form -/

/-- White space is one blank between two visible tokens; `may` tells that it may come first. -/
def Spaced : (may : Bool) → List Token → Prop
  | may, [] => may = true
  | may, token :: tokens =>
      if token.isGap then may = true ∧ token = byte Byte.blank ∧ Spaced false tokens
      else Spaced true tokens

theorem spaced_of_visible {may : Bool} {token : Token} (visible : token.isGap = false)
    (tokens : List Token) : Spaced may (token :: tokens) ↔ Spaced true tokens := by
  rw [Spaced, if_neg (by simp [visible])]

theorem spaced_respace (pending : Bool) (tokens : List Token) :
    Spaced true (respace pending tokens) := by
  induction tokens generalizing pending with
  | nil => rfl
  | cons token tokens ih =>
      cases gap : token.isGap with
      | true =>
          rw [respace_of_gap _ gap]
          exact ih true
      | false =>
          rw [respace_of_visible _ gap]
          have tail := (@spaced_of_visible false _ gap _).mpr (ih false)
          cases pending with
          | true => exact ⟨rfl, rfl, tail⟩
          | false => exact (spaced_of_visible gap _).mpr (ih false)

theorem isGap_of_isTrailer {token : Token} (visible : token.isTrailer = false) :
    token.isGap = false := by
  cases token <;> simp_all [isTrailer, isGap, trails]

theorem spaced_finish {front rest : List Token} {last : Token} (visible : last.isGap = false)
    {may : Bool} (spaced : Spaced may (front ++ last :: rest)) :
    Spaced may (front ++ finish last) := by
  induction front generalizing may with
  | nil =>
      have stop : Spaced true [byte Byte.semicolon] := (spaced_of_visible (by decide) []).mpr rfl
      cases last with
      | remnant mark content => exact (spaced_of_visible rfl []).mpr rfl
      | word written => exact (spaced_of_visible visible _).mpr stop
      | byte plain => exact (spaced_of_visible visible _).mpr stop
      | literal mark content => exact (spaced_of_visible visible _).mpr stop
  | cons token front ih =>
      rw [List.cons_append, Spaced] at spaced ⊢
      split
      · rename_i gap
        rw [if_pos gap] at spaced
        exact ⟨spaced.1, spaced.2.1, ih spaced.2.2⟩
      · rename_i gap
        rw [if_neg gap] at spaced
        exact ih spaced

/-- The normal form is spaced and begins with a visible token. -/
theorem spaced_normal (tokens : List Token) : normal tokens = [] ∨
    Spaced false (normal tokens) := by
  rcases normal_cases tokens with
    ⟨normal_eq, -⟩ | ⟨front, last, rest, squeeze_eq, normal_eq, visible, -⟩
  · exact .inl normal_eq
  · have spaced : Spaced false (squeeze tokens) := by
      have head_visible := List.head?_dropWhile_not isGap tokens
      rw [squeeze] at squeeze_eq ⊢
      cases dropped : tokens.dropWhile isGap with
      | nil => simp [dropped, respace] at squeeze_eq
      | cons token others =>
          have token_visible : token.isGap = false := by simpa [dropped] using head_visible
          rw [respace_of_visible _ token_visible]
          exact (spaced_of_visible token_visible _).mpr (spaced_respace false others)
    rw [squeeze_eq] at spaced
    rw [normal_eq]
    exact .inr (spaced_finish (isGap_of_isTrailer visible) spaced)

/-- Spaced tokens stay as they are when they are spaced. -/
theorem respace_of_spaced {tokens : List Token} :
    (Spaced true tokens → respace false tokens = tokens) ∧
      (Spaced false tokens → respace true tokens = byte Byte.blank :: tokens) := by
  induction tokens with
  | nil => simp [respace, Spaced]
  | cons token tokens ih =>
      cases gap : token.isGap with
      | true =>
          rw [respace_of_gap _ gap, respace_of_gap _ gap, Spaced, if_pos gap, Spaced, if_pos gap]
          refine ⟨?_, fun spaced => absurd spaced.1 (by simp)⟩
          rintro ⟨-, rfl, spaced⟩
          exact ih.2 spaced
      | false =>
          rw [respace_of_visible _ gap, respace_of_visible _ gap, spaced_of_visible gap,
            spaced_of_visible gap]
          refine ⟨fun spaced => ?_, fun spaced => ?_⟩ <;> simp [ih.1 spaced]

theorem squeeze_of_spaced {tokens : List Token} (spaced : Spaced false tokens) :
    squeeze tokens = tokens := by
  cases tokens with
  | nil => rfl
  | cons token tokens =>
      cases gap : token.isGap with
      | true =>
          rw [Spaced, if_pos gap] at spaced
          exact absurd spaced.1 (by simp)
      | false =>
          rw [squeeze, List.dropWhile_cons_of_neg (by simp [gap])]
          rw [spaced_of_visible gap] at spaced
          exact respace_of_spaced.1 ((spaced_of_visible gap _).mpr spaced)

theorem terminate_terminate (text : Text) :
    NormalForm.terminate (NormalForm.terminate text) = NormalForm.terminate text := by
  have trimmed :
      dropRightWhile trails (dropRightWhile trails text) = dropRightWhile trails text := by
    simp [dropRightWhile, List.dropWhile_idempotent]
  rw [terminate_eq text]
  split
  · rfl
  · rename_i visible
    rw [terminate_eq, dropRightWhile_append_of_pos (by simp [trails]), trimmed, if_neg visible]

/-- The normal form of a text is its own normal form. -/
theorem normalize_normalize (text : Text) : text.normalize.normalize = text.normalize := by
  obtain ⟨tokens, lexed, rfl⟩ := exists_lexed text
  rw [normalize_spell lexed]
  rcases spaced_normal tokens with empty | spaced
  · rw [empty]
    rfl
  · rw [normalize_eq_terminate (lexed_normal lexed), squeeze_of_spaced spaced,
      ← normalize_spell lexed, normalize_eq_terminate lexed, terminate_terminate]

/-! ## What the normal form keeps -/

section Kept

variable {element : Type} {read : Token → Option element}

theorem filterMap_respace (blank : ∀ token : Token, token.isGap = true → read token = none)
    (pending : Bool) (tokens : List Token) :
    (respace pending tokens).filterMap read = tokens.filterMap read := by
  induction tokens generalizing pending with
  | nil => rfl
  | cons token tokens ih =>
      cases gap : token.isGap with
      | true => rw [respace_of_gap _ gap, ih, List.filterMap_cons_none (blank token gap)]
      | false =>
          have none_read : read (byte Byte.blank) = none := blank _ (by decide)
          rw [respace_of_visible _ gap, List.filterMap_append, List.filterMap_cons, ih,
            List.filterMap_cons]
          cases pending <;> simp [none_read]

theorem filterMap_squeeze (blank : ∀ token : Token, token.isGap = true → read token = none)
    (tokens : List Token) : (squeeze tokens).filterMap read = tokens.filterMap read := by
  have nothing : (tokens.takeWhile isGap).filterMap read = [] :=
    List.filterMap_eq_nil_iff.mpr fun token member => blank token (List.mem_takeWhile_imp member)
  rw [squeeze, filterMap_respace blank]
  conv => rhs; rw [← List.takeWhile_append_dropWhile (p := isGap) (l := tokens)]
  rw [List.filterMap_append, nothing, List.nil_append]

/-- What can be read off the tokens one by one is the same in normal form, if white space and
semicolons say nothing and an unclosed literal says the same whatever it holds. -/
theorem filterMap_normal (trailer : ∀ token : Token, token.isTrailer = true → read token = none)
    (remnant : ∀ mark content other, read (.remnant mark content) = read (.remnant mark other))
    (tokens : List Token) : (normal tokens).filterMap read = tokens.filterMap read := by
  have blank : ∀ token : Token, token.isGap = true → read token = none := fun token gap =>
    trailer token (by cases token <;> simp_all [isGap, isTrailer, trails])
  have stop : read (byte Byte.semicolon) = none := trailer _ (by decide)
  rw [← filterMap_squeeze blank tokens]
  rcases normal_cases tokens with
    ⟨normal_eq, trailers⟩ | ⟨front, last, rest, squeeze_eq, normal_eq, -, trailers⟩
  · rw [normal_eq, List.filterMap_nil, eq_comm, List.filterMap_eq_nil_iff]
    exact fun token member => trailer token (trailers token member)
  · have nothing : rest.filterMap read = [] :=
      List.filterMap_eq_nil_iff.mpr fun token member => trailer token (trailers token member)
    rw [normal_eq, squeeze_eq, List.filterMap_append, List.filterMap_append, List.filterMap_cons,
      nothing]
    cases last with
    | remnant mark content => simp [finish, List.filterMap_cons, remnant mark _ content]
    | word written => simp [finish, List.filterMap_cons, stop]
    | byte plain => simp [finish, List.filterMap_cons, stop]
    | literal mark content => simp [finish, List.filterMap_cons, stop]

end Kept

theorem parens_normal (tokens : List Token) : parens (normal tokens) = parens tokens := by
  refine filterMap_normal (fun token trailer => ?_) (fun _ _ _ => rfl) tokens
  cases token with
  | byte plain =>
      have flat : plain ≠ Byte.openParen ∧ plain ≠ Byte.closeParen := by
        constructor <;> rintro rfl <;> exact absurd trailer (by decide)
      simp [paren?, flat]
  | _ => rfl

theorem whole_iff_filterMap (tokens : List Token) :
    Whole tokens ↔
      (tokens.filterMap fun token => if token.isRemnant then some () else none) = [] := by
  simp [Whole]

theorem whole_normal (tokens : List Token) : Whole (normal tokens) ↔ Whole tokens := by
  rw [whole_iff_filterMap, whole_iff_filterMap,
    filterMap_normal (fun token trailer => ?_) (fun _ _ _ => rfl)]
  cases token <;> simp_all [isTrailer, isRemnant]

end Token

open Token in
/-- The literals of a text are closed in normal form exactly when they were. -/
theorem closed_normalize (text : Text) :
    Closed (start text.normalize) ↔ Closed (start text) := by
  obtain ⟨tokens, lexed, rfl⟩ := exists_lexed text
  rw [normalize_spell lexed, closed_start_spell (lexed_normal lexed), closed_start_spell lexed,
    whole_normal]

open Token in
/-- The parentheses of a text are balanced in normal form exactly when they were. -/
theorem balanced_normalize (text : Text) : Balanced text.normalize ↔ Balanced text := by
  obtain ⟨tokens, lexed, rfl⟩ := exists_lexed text
  rw [normalize_spell lexed, balanced_spell (lexed_normal lexed), balanced_spell lexed,
    parens_normal]

end TenantScope
