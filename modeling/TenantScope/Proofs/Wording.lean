import TenantScope.Proofs.Respacing
import TenantScope.Proofs.Signs

/-!
# What the words of a text say

What repair looks for in a text depends on its words, on the parentheses they stand in and on what
comes next after them, so it can be read off the tokens of the text and is the same in normal form.
-/

namespace TenantScope

open Text Site Literal

namespace Token

/-! ## Reading tokens -/

/-- The word that comes next after white space, in upper case. -/
def nextWord : List Token → Text
  | [] => []
  | word written :: _ => upper written
  | byte plain :: tokens => if plain.isSpace then nextWord tokens else []
  | literal _ _ :: _ => []
  | remnant _ _ :: _ => []

section Heard

variable {element : Type} (say : Text → List Token → Option element)

/-- What the words outside parentheses say that no full stop makes part of a name, given what a word
in upper case says before the tokens after it. -/
def heard : (dotted : Bool) → (depth : Nat) → List Token → List element
  | _, _, [] => []
  | dotted, depth, word written :: tokens =>
      (if depth = 0 ∧ dotted = false then say (upper written) tokens else none).toList ++
        heard false depth tokens
  | _, depth, byte plain :: tokens =>
      heard (plain == Byte.dot) (depthAfter plain depth) tokens
  | _, depth, literal _ _ :: tokens => heard false depth tokens
  | _, depth, remnant _ _ :: tokens => heard false depth tokens

variable {say}

/-- What the words of a text say is what those of its tokens say. -/
theorem filterMap_code_spell {read : Site → Option element}
    (silent : ∀ site : Site, site.spoken = [] → read site = none)
    (agrees : ∀ back written tokens offset depth, IsName written →
      back.head?.any Byte.isIdentifier = false →
      (spell tokens).head?.any Byte.isIdentifier = false → (∃ before, Lexed before tokens) →
      read ⟨back, written ++ spell tokens, offset, depth⟩ =
        if depth = 0 ∧ (back.head? == some Byte.dot) = false then say (upper written) tokens
        else none)
    {back : Text} {previous : Option Token} {tokens : List Token} (after : After back previous)
    (lexed : Lexed previous tokens) :
    ∀ offset depth, (code ⟨back, spell tokens, offset, depth⟩).filterMap read =
      heard say (back.head? == some Byte.dot) depth tokens := by
  induction tokens generalizing back previous with
  | nil =>
      intro offset depth
      rw [spell_nil, code_nil]
      rfl
  | cons token tokens ih =>
      intro offset depth
      have following := lexed
      obtain ⟨⟨-, follows⟩, lexed⟩ := lexed
      rw [spell_cons]
      cases token with
      | word written =>
          have undotted : ((written.reverse ++ back).head? == some Byte.dot) = false := by
            obtain ⟨front, last, rfl⟩ :=
              (List.eq_nil_or_concat written).resolve_left follows.1.nonempty
            have identifier := follows.1.identifiers last (by simp)
            have apart : last ≠ Byte.dot := fun same => by
              subst same
              exact absurd identifier (by decide)
            simp [apart]
          rw [bytes, filterMap_code_word silent _ _ follows.1,
            agrees back written tokens offset depth follows.1 (after.word.trans follows.2)
              (head?_spell_of_word lexed) ⟨_, lexed⟩,
            ih (after.of_word follows.1 follows.2) lexed, undotted, heard]
      | byte plain =>
          rw [bytes, List.singleton_append, filterMap_code_plain silent _ _ follows.1 follows.2,
            ih (After.of_plain back follows.1 (.byte plain) rfl) lexed, heard]
          rfl
      | literal mark content =>
          have last := getLast?_of_closing? follows.2.2
          have undotted : ((content.reverse ++ mark :: back).head? == some Byte.dot) = false := by
            have apart : mark ≠ Byte.dot := fun same => by
              subst same
              exact absurd follows.1 (by decide)
            simp [List.head?_append, List.head?_reverse, last, apart]
          rw [bytes, List.cons_append,
            code_literal _ _ _ _ _ follows.1 (after.closing?_spell following),
            ih (After.of_literal back follows.1 follows.2.2) lexed, undotted, heard]
      | remnant mark content =>
          obtain rfl := eq_nil_of_remnant following
          rw [spell_nil, List.append_nil, bytes,
            code_unclosed _ _ _ _ follows.1 (after.closing?_remnant following)]
          rfl

end Heard

/-- The next word of a text is that of its tokens. -/
theorem nextWord_spell {previous : Option Token} {tokens : List Token}
    (lexed : Lexed previous tokens) :
    upper (((spell tokens).dropWhile Byte.isSpace).takeWhile Byte.isIdentifier) =
      nextWord tokens := by
  induction tokens generalizing previous with
  | nil => rfl
  | cons token tokens ih =>
      obtain ⟨⟨-, follows⟩, lexed⟩ := lexed
      have nothing {mark : Byte} (quote : mark.isQuote = true) (rest : Text) :
          upper (((mark :: rest).dropWhile Byte.isSpace).takeWhile Byte.isIdentifier) = [] := by
        rw [List.dropWhile_cons_of_neg (by simp [Byte.isSpace_of_isQuote mark quote]),
          List.takeWhile_cons_of_neg (by simp [Byte.isIdentifier_of_isQuote mark quote])]
        rfl
      rw [spell_cons]
      cases token with
      | word written =>
          have ends := head?_spell_of_word lexed
          have visible : (written ++ spell tokens).dropWhile Byte.isSpace =
              written ++ spell tokens := by
            obtain ⟨letter, written, rfl⟩ := List.exists_cons_of_ne_nil follows.1.nonempty
            have identifier := follows.1.identifiers letter (by simp)
            rw [List.cons_append, List.dropWhile_cons_of_neg
              (by simp [Byte.isSpace_of_isIdentifier letter identifier])]
          rw [bytes, visible, takeWhile_isIdentifier_append follows.1.identifiers ends]
          rfl
      | byte plain =>
          rw [bytes, List.singleton_append, nextWord]
          cases gap : plain.isSpace with
          | true => rw [List.dropWhile_cons_of_pos gap, ih lexed, if_pos rfl]
          | false =>
              rw [List.dropWhile_cons_of_neg (by simp [gap]),
                List.takeWhile_cons_of_neg (by simp [follows.1])]
              rfl
      | literal mark content => exact nothing follows.1 _
      | remnant mark content => exact nothing follows.1 _

/-! ## Signs and tables -/

/-- The signs of tokens. -/
def kinds (tokens : List Token) : List Sign :=
  heard (fun spoken tokens => Sign.ofWords? spoken (nextWord tokens)) false 0 tokens

/-- What a `FROM` reads from before tokens. -/
def source? (spoken : Text) (tokens : List Token) : Option Text :=
  if spoken = ascii "FROM" then some (TableName.read (spell tokens)) else none

/-- The names of tables that stand after a `FROM`. -/
def tables (tokens : List Token) : List Text :=
  heard source? false 0 tokens

/-- The word that begins at a place before tokens. -/
theorem spoken_spell {written back : Text} (name : IsName written) (rest : Text)
    (begins : back.head?.any Byte.isIdentifier = false)
    (ends : rest.head?.any Byte.isIdentifier = false) (offset depth : Nat) :
    Site.spoken ⟨back, written ++ rest, offset, depth⟩ = upper written := by
  rw [spoken, if_neg (by simp [afterIdentifier, previous?, begins]),
    takeWhile_isIdentifier_append name.identifiers ends]

/-- The signs of a text are those of its tokens. -/
theorem kinds_spell {tokens : List Token} (lexed : Lexed none tokens) :
    (start (spell tokens)).kinds = kinds tokens := by
  rw [Site.kinds_eq]
  refine filterMap_code_spell sign?_of_silent ?_ After.nil lexed 0 0
  rintro back written tokens offset depth name begins ends ⟨before, lexed⟩
  have next_eq :
      Site.nextSpoken ⟨back, written ++ spell tokens, offset, depth⟩ = nextWord tokens := by
    rw [← nextWord_spell lexed, nextSpoken, dropWhile_isIdentifier_append name.identifiers ends]
  rw [sign?, spoken_spell name _ begins ends, next_eq]
  simp [Repair.mayBeginKeyword, afterDot, previous?]

end Token

namespace Site

/-- The name of the table after a `FROM` at a place. -/
def source? (site : Site) : Option Text :=
  if (site.depth = 0 ∧ site.afterDot = false) ∧ site.spoken = ascii "FROM" then
    some (TableName.read (site.rest.drop 4))
  else none

theorem source?_of_silent (site : Site) (silent : site.spoken = []) : site.source? = none := by
  rw [source?, if_neg]
  rw [silent]
  rintro ⟨-, named⟩
  exact absurd named (by decide)

end Site

namespace Outline

/-- Taking note of a place with a `FROM` reads the table there. -/
theorem table_note (outline : Outline) {site : Site} (counted : counts site = true) :
    (note outline site).source?.map (·.table) =
      (outline.source?.map (·.table)).or site.source? := by
  have source_eq : site.source? =
      (site.word? sourceKeyword).map fun length => TableName.read (site.rest.drop length) := by
    rw [word?_of_isName (by decide), Site.source?]
    have placed : site.depth = 0 ∧ site.afterDot = false := by
      simp only [counts, Site.isTopLevel, Bool.and_eq_true, beq_iff_eq, Bool.not_eq_true']
        at counted
      exact ⟨counted.1.1, counted.2⟩
    have length_eq : (ascii "FROM").length = 4 := by decide
    by_cases named : site.spoken = ascii "FROM" <;> simp [placed, named, sourceKeyword, length_eq]
  rw [source_eq]
  unfold note
  split
  · rename_i clause found
    rw [clauseAt?_eq_some] at found
    have absent : Mark.source.occursAt site = false := Bool.eq_false_iff.mpr fun occurs => by
      simpa using Mark.eq_of_occursAt found occurs
    rw [occursAt_source, Option.isSome_eq_false_iff, Option.isNone_iff_eq_none] at absent
    simp [absent, source?_addClause]
  · split
    · rename_i length found
      unfold addSource
      cases known : outline.source? <;> simp [found, known]
    · rename_i not_found
      split <;> simp [not_found]

/-- A query reads from the table after its first `FROM`, if there is one. -/
theorem source?_table_ofText (text : Text) :
    (ofText text).source?.map (·.table) = ((start text).code.filterMap Site.source?).head? := by
  have noted (sites : List Site) (counted : ∀ site ∈ sites, counts site = true)
      (outline : Outline) : (sites.foldl note outline).source?.map (·.table) =
        (outline.source?.map (·.table)).or (sites.filterMap Site.source?).head? := by
    induction sites generalizing outline with
    | nil => simp
    | cons site sites ih =>
        rw [List.forall_mem_cons] at counted
        rw [List.foldl_cons, ih counted.2, table_note outline counted.1, List.filterMap_cons,
          Option.or_assoc]
        cases site.source? <;> simp
  -- Elsewhere no source is named.
  have elsewhere : ((start text).code.filter counts).filterMap Site.source? =
      (start text).code.filterMap Site.source? := by
    rw [List.filterMap_filter]
    refine List.filterMap_congr fun site _ => ?_
    split
    · rfl
    · rename_i uncounted
      refine (if_neg ?_).symm
      rintro ⟨placed, named⟩
      have flat := @not_atParen_of_spoken_ne site (by rw [named]; decide)
      exact uncounted (by simp [counts, isTopLevel, flat, placed])
  rw [ofText, noted _ fun site member => (List.mem_filter.mp member).2, elsewhere]
  rfl

end Outline

namespace Token

theorem source?_table_spell {tokens : List Token} (lexed : Lexed none tokens) :
    (Outline.ofText (spell tokens)).source?.map (·.table) = (tables tokens).head? := by
  rw [Outline.source?_table_ofText]
  congr 1
  refine filterMap_code_spell source?_of_silent ?_ After.nil lexed 0 0
  rintro back written tokens offset depth name begins ends -
  rw [Site.source?, spoken_spell name _ begins ends]
  by_cases named : upper written = ascii "FROM"
  · have length_eq : written.length = 4 := by
      rw [← length_upper, named]
      decide
    simp [named, source?, afterDot, previous?, ← length_eq]
  · simp [named, source?]

theorem table_spell {tokens : List Token} (lexed : Lexed none tokens) :
    (Outline.ofText (spell tokens)).table = (tables tokens).head?.getD [] := by
  rw [Outline.table, source?_table_spell lexed]

/-! ## Signs in normal form -/

theorem nextWord_respace (pending : Bool) (tokens : List Token) :
    nextWord (respace pending tokens) = nextWord tokens := by
  induction tokens generalizing pending with
  | nil => rfl
  | cons token tokens ih =>
      cases gap : token.isGap with
      | true =>
          obtain ⟨plain, rfl, space⟩ := exists_of_isGap gap
          rw [respace_of_gap _ gap, ih, nextWord, if_pos space]
      | false =>
          have same : nextWord (token :: respace false tokens) = nextWord (token :: tokens) := by
            cases token <;> simp_all [nextWord, isGap]
          rw [respace_of_visible _ gap]
          cases pending with
          | true => exact same
          | false => exact same

theorem heard_gap {element : Type} {say : Text → List Token → Option element} {plain : Byte}
    (space : plain.isSpace = true) (dotted : Bool) (depth : Nat) (tokens : List Token) :
    heard say dotted depth (byte plain :: tokens) = heard say false depth tokens := by
  have undotted : (plain == Byte.dot) = false := by
    have apart : plain ≠ Byte.dot := fun same => by
      subst same
      exact absurd space (by decide)
    simp [apart]
  rw [heard, undotted, depthAfter_of_flat (Byte.depthless_of_isSpace plain space)]

/-- What a word says before tokens is the same however these are spaced, and whatever trails
them. -/
structure Steady {element : Type} (say : Text → List Token → Option element) : Prop where
  respace : ∀ spoken pending tokens, say spoken (Token.respace pending tokens) = say spoken tokens
  finish : ∀ spoken front last rest, last.isTrailer = false →
    (∀ token ∈ rest, token.isTrailer = true) →
    say spoken (front ++ Token.finish last) = say spoken (front ++ last :: rest)
  trailers : ∀ spoken tokens others, (∀ token ∈ tokens, token.isTrailer = true) →
    (∀ token ∈ others, token.isTrailer = true) → say spoken tokens = say spoken others

section Steady

variable {element : Type} {say : Text → List Token → Option element} (steady : Steady say)

include steady

/-- What words say does not depend on how far the next one is away. -/
theorem heard_respace (dotted : Bool) (depth : Nat) (tokens : List Token) :
    heard say dotted depth (respace false tokens) = heard say dotted depth tokens ∧
      heard say dotted depth (respace true tokens) = heard say false depth tokens := by
  induction tokens generalizing dotted depth with
  | nil => exact ⟨rfl, rfl⟩
  | cons token tokens ih =>
      cases gap : token.isGap with
      | true =>
          obtain ⟨plain, rfl, space⟩ := exists_of_isGap gap
          rw [respace_of_gap _ gap, respace_of_gap _ gap, heard_gap space, heard_gap space]
          exact ⟨(ih dotted depth).2, (ih dotted depth).2⟩
      | false =>
          have same (dotted : Bool) : heard say dotted depth (token :: respace false tokens) =
              heard say dotted depth (token :: tokens) := by
            cases token <;> simp only [heard, (ih _ _).1, steady.respace]
          rw [respace_of_visible _ gap, respace_of_visible _ gap]
          refine ⟨same dotted, ?_⟩
          exact (heard_gap (by decide : Byte.blank.isSpace = true) dotted depth _).trans
            (same false)

omit steady in
theorem heard_trailers {tokens : List Token}
    (trailers : ∀ token ∈ tokens, token.isTrailer = true) (dotted : Bool) (depth : Nat) :
    heard say dotted depth tokens = [] := by
  induction tokens generalizing dotted depth with
  | nil => rfl
  | cons token tokens ih =>
      rw [List.forall_mem_cons] at trailers
      cases token with
      | byte plain => exact ih trailers.2 _ _
      | word written => exact absurd trailers.1 (by simp [isTrailer])
      | literal mark content => exact absurd trailers.1 (by simp [isTrailer])
      | remnant mark content => exact absurd trailers.1 (by simp [isTrailer])

theorem heard_finish {front rest : List Token} {last : Token} (visible : last.isTrailer = false)
    (trailers : ∀ token ∈ rest, token.isTrailer = true) (dotted : Bool) (depth : Nat) :
    heard say dotted depth (front ++ finish last) =
      heard say dotted depth (front ++ last :: rest) := by
  have stop : ∀ token ∈ [byte Byte.semicolon], token.isTrailer = true := by decide
  induction front generalizing dotted depth with
  | nil =>
      have nothing := fun dotted depth => @heard_trailers _ say _ trailers dotted depth
      cases last with
      | remnant mark content => simp [finish, heard, nothing]
      | word written => simp [finish, heard, nothing, steady.trailers _ _ _ stop trailers]
      | byte plain => simp [finish, heard, nothing]
      | literal mark content => simp [finish, heard, nothing]
  | cons token front ih =>
      cases token <;> simp only [List.cons_append, heard, ih,
        steady.finish _ front last rest visible trailers]

/-- In normal form the words of a text say what they said. -/
theorem heard_normal (tokens : List Token) :
    heard say false 0 (normal tokens) = heard say false 0 tokens := by
  have dropped : heard say false 0 (tokens.dropWhile isGap) = heard say false 0 tokens := by
    induction tokens with
    | nil => rfl
    | cons token tokens ih =>
        cases gap : token.isGap with
        | true =>
            obtain ⟨plain, rfl, space⟩ := exists_of_isGap gap
            rw [List.dropWhile_cons_of_pos gap, ih, heard_gap space]
        | false => rw [List.dropWhile_cons_of_neg (by simp [gap])]
  have squeezed : heard say false 0 (squeeze tokens) = heard say false 0 tokens :=
    (heard_respace steady false 0 _).1.trans dropped
  rcases normal_cases tokens with
    ⟨normal_eq, trailers⟩ | ⟨front, last, rest, squeeze_eq, normal_eq, visible, trailers⟩
  · rw [normal_eq, ← squeezed, heard_trailers trailers]
    rfl
  · rw [normal_eq, ← squeezed, squeeze_eq, heard_finish steady visible trailers]

end Steady

theorem nextWord_trailers {tokens : List Token}
    (trailers : ∀ token ∈ tokens, token.isTrailer = true) : nextWord tokens = [] := by
  induction tokens with
  | nil => rfl
  | cons token tokens ih =>
      rw [List.forall_mem_cons] at trailers
      cases token with
      | byte plain =>
          rw [nextWord, ih trailers.2]
          split <;> rfl
      | word written => exact absurd trailers.1 (by simp [isTrailer])
      | literal mark content => rfl
      | remnant mark content => rfl

theorem nextWord_finish (front : List Token) {last : Token} {rest : List Token}
    (visible : last.isTrailer = false) :
    nextWord (front ++ finish last) = nextWord (front ++ last :: rest) := by
  induction front with
  | nil =>
      have gap := isGap_of_isTrailer visible
      cases last <;> simp_all [finish, nextWord, isGap]
  | cons token front ih => cases token <;> simp only [List.cons_append, nextWord, ih]

/-- What words say in view of the next one is the same in normal form. -/
theorem steady_nextWord {element : Type} (say : Text → Text → Option element) :
    Steady fun spoken tokens => say spoken (nextWord tokens) where
  respace spoken pending tokens := by rw [nextWord_respace]
  finish spoken front last rest visible _ := by rw [nextWord_finish front visible]
  trailers spoken tokens others trailers other_trailers := by
    rw [nextWord_trailers trailers, nextWord_trailers other_trailers]

/-- A text in normal form has the signs that it had. -/
theorem kinds_normal (tokens : List Token) : kinds (normal tokens) = kinds tokens :=
  heard_normal (steady_nextWord Sign.ofWords?) tokens

end Token

/-- A text in normal form has the signs that it had. -/
theorem kinds_normalize (text : Text) : (start text.normalize).kinds = (start text).kinds := by
  obtain ⟨tokens, lexed, rfl⟩ := Token.exists_lexed text
  rw [Token.normalize_spell lexed, Token.kinds_spell (Token.lexed_normal lexed),
    Token.kinds_spell lexed, Token.kinds_normal]

end TenantScope
