import TenantScope.Proofs.Terminators
import TenantScope.Proofs.Tallies

/-!
# Even spacing

A text is evenly spaced when its white space, outside literals, is one blank at a time.  Texts in a
row are evenly spaced when each of them is and no blank meets another one.  A text is in normal form
when it is evenly spaced, begins with something visible and ends in its one semicolon.
-/

namespace TenantScope

open Text Site Literal

namespace Token

/-- White space is one blank, and no other white space comes before it. -/
def Tight (previous : Option Token) (token : Token) : Prop :=
  token.isGap = true → token = byte Byte.blank ∧ previous.any isGap = false

instance (previous : Option Token) (token : Token) : Decidable (Tight previous token) :=
  inferInstanceAs (Decidable (_ → _))

instance decidableLinked {joins : Option Token → Token → Prop}
    [decidable : ∀ previous token, Decidable (joins previous token)] :
    ∀ previous tokens, Decidable (Linked joins previous tokens)
  | _, [] => isTrue trivial
  | previous, token :: tokens =>
      @instDecidableAnd _ _ (decidable previous token) (decidableLinked (some token) tokens)

theorem tight_of_spaced {may : Bool} {previous : Option Token} {tokens : List Token}
    (spaced : Spaced may tokens) (free : may = true → previous.any isGap = false) :
    Linked Tight previous tokens := by
  induction tokens generalizing may previous with
  | nil => trivial
  | cons token tokens ih =>
      rw [Spaced] at spaced
      split at spaced
      · rename_i gap
        obtain ⟨rfl, rfl, spaced⟩ := spaced
        exact ⟨fun _ => ⟨rfl, free rfl⟩, ih spaced (by simp)⟩
      · rename_i visible
        exact ⟨fun gap => absurd gap visible, ih spaced fun _ => by simpa using visible⟩

/-- Tokens that end in something visible are spaced if their white space is tight. -/
theorem spaced_of_tight {previous : Option Token} {tokens : List Token}
    (tight : Linked Tight previous tokens)
    (visible : ∀ last ∈ tokens.getLast?.or previous, last.isGap = false) :
    Spaced (!previous.any isGap) tokens := by
  induction tokens generalizing previous with
  | nil =>
      cases previous with
      | none => rfl
      | some token => simpa [Spaced] using visible token rfl
  | cons token tokens ih =>
      have later := ih tight.2 (by simpa [List.getLast?_cons] using visible)
      rw [Spaced]
      split
      · rename_i gap
        obtain ⟨rfl, free⟩ := tight.1 gap
        exact ⟨by rw [free]; rfl, rfl, later⟩
      · rename_i shown
        simpa [shown] using later

/-- After anything visible white space may begin. -/
theorem tight_iff {previous : Option Token} {tokens : List Token} :
    Linked Tight previous tokens ↔ Linked Tight none tokens ∧
      (tokens.head?.any isGap = true → previous.any isGap = false) := by
  cases tokens with
  | nil => simp [Linked]
  | cons token tokens => simp [Linked, Tight]; grind

/-- White space is told by the first byte of a token, and by the last one of a token that ends. -/
theorem any_bytes {previous : Option Token} {token : Token} (follows : Follows previous token) :
    token.bytes.head?.any Byte.isSpace = token.isGap ∧
      (token.isRemnant = false → token.bytes.getLast?.any Byte.isSpace = token.isGap) := by
  cases token with
  | word written =>
      have solid : ∀ byte ∈ written, byte.isSpace = false := fun byte member =>
        Byte.isSpace_of_isIdentifier byte (follows.1.identifiers byte member)
      obtain ⟨first, first_eq⟩ :=
        Option.ne_none_iff_exists'.mp (List.head?_eq_none_iff.not.mpr follows.1.nonempty)
      obtain ⟨last, last_eq⟩ :=
        Option.ne_none_iff_exists'.mp (List.getLast?_eq_none_iff.not.mpr follows.1.nonempty)
      simp [bytes, isGap, first_eq, last_eq, solid first (List.mem_of_head? first_eq),
        solid last (List.mem_of_getLast? last_eq)]
  | byte plain => simp [bytes, isGap]
  | literal mark content =>
      have visible := (Bool.or_eq_false_iff.mp (trails_of_isQuote follows.1)).2
      have ends := getLast?_of_closing? follows.2.2
      obtain ⟨front, rfl⟩ := List.getLast?_eq_some_iff.mp ends
      refine ⟨by simp [bytes, isGap, visible], fun _ => ?_⟩
      rw [bytes, ← List.cons_append, List.getLast?_concat]
      exact visible
  | remnant mark content =>
      simp [bytes, isGap, isRemnant, (Bool.or_eq_false_iff.mp (trails_of_isQuote follows.1)).2]

/-- Tokens begin with white space when their text does. -/
theorem any_head?_spell {previous : Option Token} {tokens : List Token}
    (lexed : Lexed previous tokens) :
    (spell tokens).head?.any Byte.isSpace = tokens.head?.any isGap := by
  cases tokens with
  | nil => rfl
  | cons token tokens =>
      rw [spell_cons, List.head?_append_of_ne_nil _ (bytes_ne_nil lexed.1.2),
        (any_bytes lexed.1.2).1]
      rfl

/-- Tokens end in white space when their text does. -/
theorem any_getLast?_spell {tokens : List Token} (lexed : Lexed none tokens)
    (whole : Whole tokens) :
    (spell tokens).getLast?.any Byte.isSpace = tokens.getLast?.any isGap := by
  rcases List.eq_nil_or_concat' tokens with rfl | ⟨front, last, rfl⟩
  · rfl
  · obtain ⟨-, ⟨-, follows⟩, -⟩ := linked_append.mp lexed
    have ended := whole last (by simp)
    rw [spell_append, spell_cons, spell_nil, List.append_nil,
      List.getLast?_append_of_ne_nil _ (bytes_ne_nil follows), (any_bytes follows).2 ended]
    simp

end Token

open Token

/-- White space outside literals is one blank at a time. -/
def EvenlySpaced (text : Text) : Prop :=
  Linked Tight none text.tokens

instance (text : Text) : Decidable (EvenlySpaced text) :=
  inferInstanceAs (Decidable (Linked _ _ _))

namespace EvenlySpaced

variable {text after : Text}

theorem of_word {written : Text} (name : IsName written) : EvenlySpaced written := by
  have tokens_eq := tokens_spell (show Lexed none [word written] from ⟨⟨rfl, name, rfl⟩, trivial⟩)
  rw [spell_cons, spell_nil, List.append_nil, bytes] at tokens_eq
  rw [EvenlySpaced, tokens_eq]
  exact ⟨by simp [Tight, isGap], trivial⟩

/-- Texts in a row are evenly spaced when each of them is and no white space meets. -/
theorem append_iff (closed : Closed (start text)) (seam : Seam text.reverse after) :
    EvenlySpaced (text ++ after) ↔ EvenlySpaced text ∧ EvenlySpaced after ∧
      (after.head?.any Byte.isSpace = true → text.getLast?.any Byte.isSpace = false) := by
  have first := any_head?_spell (lexed_tokens after)
  have last := any_getLast?_spell (lexed_tokens text) (whole_tokens.mpr closed)
  rw [spell_tokens] at first last
  rw [EvenlySpaced, (tokens_append closed seam).1, linked_append, Option.or_none,
    @tight_iff text.tokens.getLast?, first, last]
  rfl

theorem append (even : EvenlySpaced text) (other : EvenlySpaced after)
    (closed : Closed (start text)) (seam : Seam text.reverse after)
    (visible : text.getLast?.any Byte.isSpace = false ∨ after.head?.any Byte.isSpace = false) :
    EvenlySpaced (text ++ after) :=
  (append_iff closed seam).mpr ⟨even, other, fun space => visible.resolve_right (by simp [space])⟩

/-- The tokens of a text in normal form are in normal form. -/
theorem tokens_of_normal (normal : text.normalize = text) :
    Token.normal text.tokens = text.tokens := by
  have lexed := lexed_tokens text
  have spelled : spell (Token.normal text.tokens) = spell text.tokens := by
    rw [← normalize_spell lexed, spell_tokens, normal]
  exact eq_of_spell_eq (lexed_normal lexed) lexed spelled

/-- A text in normal form is evenly spaced. -/
theorem of_normal (normal : text.normalize = text) : EvenlySpaced text := by
  have tokens_eq := tokens_of_normal normal
  rcases spaced_normal text.tokens with nothing | spaced
  · rw [EvenlySpaced, ← tokens_eq, nothing]
    trivial
  · rw [EvenlySpaced, ← tokens_eq]
    exact tight_of_spaced spaced (by simp)

/-- A text in normal form ends in one semicolon and begins with something visible. -/
theorem ended_of_normal (normal : text.normalize = text) (nonempty : text ≠ []) :
    Ended 1 text ∧ text.head?.any Byte.isSpace = false := by
  have tokens_eq := tokens_of_normal normal
  constructor
  · rw [← normal] at nonempty ⊢
    exact ended_terminate nonempty
  · rw [← spell_tokens text, any_head?_spell (lexed_tokens text), ← tokens_eq]
    rcases spaced_normal text.tokens with nothing | spaced
    · simp [nothing]
    · cases normal_eq : Token.normal text.tokens with
      | nil => rfl
      | cons token tokens =>
          rw [normal_eq, Spaced] at spaced
          split at spaced
          · simp at spaced
          · simpa using ‹¬ token.isGap = true›

/-- An evenly spaced text from something visible to its one semicolon is in normal form. -/
theorem normalize_eq (even : EvenlySpaced text) (begins : text.head?.any Byte.isSpace = false)
    (ended : Ended 1 text) (longer : 1 < text.length) : text.normalize = text := by
  have lexed := lexed_tokens text
  obtain ⟨front, text_eq, visible⟩ := ended
  have ends : text.getLast? = some Byte.semicolon := by
    rw [text_eq]
    simp
  have spaced : Spaced true text.tokens := spaced_of_tight even fun last last_eq => by
    by_contra hidden
    obtain ⟨plain, rfl, space⟩ := exists_of_isGap (Bool.eq_true_of_not_eq_false hidden)
    obtain ⟨others, tokens_eq⟩ := List.getLast?_eq_some_iff.mp (by simpa using last_eq)
    rw [← spell_tokens text, tokens_eq, spell_append] at ends
    obtain rfl : plain = Byte.semicolon := by simpa [bytes] using ends
    exact absurd space (by decide)
  have first : text.tokens.head?.any isGap = false := by
    rw [← any_head?_spell lexed, spell_tokens, begins]
  have squeezed : Token.squeeze text.tokens = text.tokens := by
    cases tokens_eq : text.tokens with
    | nil => rfl
    | cons token others =>
        rw [tokens_eq] at first spaced
        exact squeeze_of_spaced ((spaced_of_visible (by simpa using first) others).mpr
          ((spaced_of_visible (by simpa using first) others).mp spaced))
  have normalized := normalize_eq_terminate lexed
  rw [squeezed, spell_tokens] at normalized
  rcases List.eq_nil_or_concat' front with rfl | ⟨lead, last, rfl⟩
  · rw [text_eq] at longer
    exact absurd longer (by decide)
  · have kept : trails last = false := visible last (by simp)
    have body_eq : dropRightWhile trails text = lead ++ [last] := by
      rw [text_eq, List.append_assoc]
      exact dropRightWhile_append_cons kept lead _
    rw [normalized, terminate_eq, body_eq, if_neg (by simp), text_eq]
    rfl

end EvenlySpaced

end TenantScope
