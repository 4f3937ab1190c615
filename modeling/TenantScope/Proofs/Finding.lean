import TenantScope.Proofs.Tallies

/-!
# Verdicts on items

What a policy looks for in a statement, forbidden words and calls in particular, is looked for in
its literals too.  A literal whose mark closes it keeps to itself what it holds, so what is found in
a statement can be told from its items one by one.
-/

namespace TenantScope

open Text Site Literal

/-! ## Words of literals and of code -/

namespace Text

/-- At some word of the text, literals included, the text from there on passes a test; `inside`
tells that a word has begun before. -/
def finds (test : Text → Bool) : (inside : Bool) → Text → Bool
  | _, [] => false
  | inside, byte :: rest =>
      (!inside && byte.isIdentifier && test (byte :: rest)) || finds test byte.isIdentifier rest

/-- A text passes the test when the test is passed up to the next quotation mark. -/
def StopsAtQuotes (test : Text → Bool) : Prop :=
  ∀ text after, (∃ byte ∈ text, byte.isQuote = true) → test (text ++ after) = test text

variable {test : Text → Bool}

/-- A place passes the test if a word begins there. -/
theorem any_everywhere (back text : Text) (offset depth : Nat) :
    ((Site.mk back text offset depth).everywhere.any fun site =>
      !site.afterIdentifier && site.rest.head?.any Byte.isIdentifier && test site.rest) =
      finds test (back.head?.any Byte.isIdentifier) text := by
  induction text generalizing back offset depth with
  | nil => rfl
  | cons byte rest ih =>
      have step := ih (byte :: back) (offset + 1) (depthAfter byte depth)
      simp only [everywhere, tour] at step ⊢
      rw [walk, List.any_cons, finds, Nat.sub_self, step]
      rfl

theorem finds_of_wordless {text : Text} (begins : text.head?.any Byte.isIdentifier = false)
    (inside : Bool) :
    finds test inside text = finds test false text := by
  cases text with
  | nil => rfl
  | cons byte rest =>
      have identifier : byte.isIdentifier = false := by simpa using begins
      simp [finds, identifier]

/-- In the middle of a word nothing is found. -/
theorem finds_inside {written : Text} (identifiers : ∀ byte ∈ written, byte.isIdentifier = true)
    {rest : Text} (ends : rest.head?.any Byte.isIdentifier = false) :
    finds test true (written ++ rest) = finds test false rest := by
  induction written with
  | nil => exact finds_of_wordless ends true
  | cons byte written ih =>
      obtain ⟨identifier, identifiers⟩ := List.forall_mem_cons.mp identifiers
      rw [List.cons_append, finds, identifier, ih identifiers]
      rfl

theorem finds_word {written : Text} (name : IsName written) {rest : Text}
    (ends : rest.head?.any Byte.isIdentifier = false) :
    finds test false (written ++ rest) = (test (written ++ rest) || finds test false rest) := by
  obtain ⟨byte, written, rfl⟩ := List.exists_cons_of_ne_nil name.nonempty
  obtain ⟨identifier, identifiers⟩ := List.forall_mem_cons.mp name.identifiers
  rw [List.cons_append, finds, identifier, finds_inside identifiers ends]
  rfl

/-- What is found up to a quotation mark does not depend on what follows it. -/
theorem finds_append_of_quote (stops : StopsAtQuotes test) {mark : Byte}
    (quote : mark.isQuote = true) (inside : Bool) (front rest : Text) :
    finds test inside (front ++ mark :: rest) =
      (finds test inside (front ++ [mark]) || finds test false rest) := by
  induction front generalizing inside with
  | nil => simp [finds, Byte.isIdentifier_of_isQuote mark quote]
  | cons byte front ih =>
      have same : test (byte :: (front ++ mark :: rest)) = test (byte :: (front ++ [mark])) := by
        have stopped := stops (byte :: (front ++ [mark])) rest ⟨mark, by simp, quote⟩
        simpa using stopped
      simp only [List.cons_append, finds, same, ih, Bool.or_assoc]

end Text

/-- A feature that literals have for what is found in them, and words for what they say. -/
def Feature.heard (said : Text → Bool → Bool) (test : Text → Bool) : Feature
  | .word spoken, called => said spoken called
  | .literal mark content _, _ => finds test false (mark :: content)
  | .byte _, _ => false

namespace Token

section Finds

variable {test : Text → Bool} {said : Text → Bool → Bool}

/-- A token passes before others: a word as told, a literal if the test is passed in it. -/
def passes (test : Text → Bool) (word : Text → List Token → Bool) : Token → List Token → Bool
  | .word written, tokens => word written tokens
  | byte _, _ => false
  | literal mark content, _ => finds test false (mark :: content)
  | remnant mark content, _ => finds test false (mark :: content)

/-- What is found in a text is found at one of its tokens. -/
theorem finds_cons (stops : StopsAtQuotes test) {previous : Option Token} {token : Token}
    {tokens : List Token} (lexed : Lexed previous (token :: tokens)) :
    finds test false (spell (token :: tokens)) =
      (passes test (fun written tokens => test (written ++ spell tokens)) token tokens ||
        finds test false (spell tokens)) := by
  cases token with
  | word written => exact finds_word lexed.1.2.1 (head?_spell_of_word lexed.2)
  | byte plain => simp [bytes, finds, lexed.1.2.1, passes]
  | literal mark content =>
      obtain ⟨quote, -, closed⟩ := lexed.1.2
      have ends := getLast?_of_closing? closed
      obtain ⟨front, rfl⟩ := List.getLast?_eq_some_iff.mp ends
      have split := finds_append_of_quote stops quote false (mark :: front) (spell tokens)
      simpa [bytes, passes] using split
  | remnant mark content =>
      obtain rfl := eq_nil_of_remnant lexed
      simp [bytes, passes, finds]

/-- The feature is had by an item where its token passes. -/
theorem tally_heard_cons (previous : Option Token) (token : Token) (tokens : List Token) :
    0 < Item.tally (Feature.heard said test) false (items previous (token :: tokens)) ↔
      passes test (fun written tokens =>
            said (upper written) (Item.opens false (items (some (word written)) tokens)))
          token tokens = true ∨
        0 < Item.tally (Feature.heard said test) false (items (some token) tokens) := by
  cases token with
  | byte plain => cases space : plain.isSpace <;> simp [items, item?, space, passes, Feature.heard]
  | word written => exact Item.tally_cons_pos
  | literal mark content => exact Item.tally_cons_pos
  | remnant mark content => exact Item.tally_cons_pos

variable {previous : Option Token} {tokens : List Token}

/-- A feature that an item has is found in the text, if what is said passes the test. -/
theorem finds_of_tally (stops : StopsAtQuotes test)
    (sound : ∀ written tokens, IsName written → Lexed (some (word written)) tokens →
      said (upper written) (Item.opens false (items (some (word written)) tokens)) = true →
      test (written ++ spell tokens) = true)
    (lexed : Lexed previous tokens)
    (found : 0 < Item.tally (Feature.heard said test) false (items previous tokens)) :
    finds test false (spell tokens) = true := by
  induction tokens generalizing previous with
  | nil => simp [items] at found
  | cons token tokens ih =>
      rw [finds_cons stops lexed, Bool.or_eq_true]
      refine ((tally_heard_cons previous token tokens).mp found).imp (fun here => ?_) (ih lexed.2)
      cases token with
      | word written => exact sound written tokens lexed.1.2.1 lexed.2 here
      | byte plain => exact here
      | literal mark content => exact here
      | remnant mark content => exact here

/-- What is found in a text is a feature of an item, if a word that passes the test says so, or a
later one does. -/
theorem tally_of_finds (stops : StopsAtQuotes test)
    (complete : ∀ written tokens, IsName written → Lexed (some (word written)) tokens →
      test (written ++ spell tokens) = true →
      said (upper written) (Item.opens false (items (some (word written)) tokens)) = true ∨
        0 < Item.tally (Feature.heard said test) false (items (some (word written)) tokens))
    (lexed : Lexed previous tokens) (found : finds test false (spell tokens) = true) :
    0 < Item.tally (Feature.heard said test) false (items previous tokens) := by
  induction tokens generalizing previous with
  | nil => simp [finds] at found
  | cons token tokens ih =>
      rw [finds_cons stops lexed, Bool.or_eq_true] at found
      rw [tally_heard_cons]
      rcases found with here | later
      · cases token with
        | word written => exact complete written tokens lexed.1.2.1 lexed.2 here
        | byte plain => exact .inl here
        | literal mark content => exact .inl here
        | remnant mark content => exact .inl here
      · exact .inr (ih lexed.2 later)

end Finds

/-- A parenthesis opens where the first visible byte is one. -/
theorem opens_items {previous : Option Token} {tokens : List Token}
    (lexed : Lexed previous tokens) :
    Item.opens false (items previous tokens) =
      (((spell tokens).dropWhile Byte.isSpace).head? == some Byte.openParen) := by
  induction tokens generalizing previous with
  | nil => rfl
  | cons token tokens ih =>
      have quote_visible {mark : Byte} (quote : mark.isQuote = true) :
          mark.isSpace = false ∧ mark ≠ Byte.openParen :=
        ⟨Byte.isSpace_of_isQuote mark quote, fun same => absurd (same ▸ quote) (by decide)⟩
      cases token with
      | word written =>
          obtain ⟨letter, letters, rfl⟩ := List.exists_cons_of_ne_nil lexed.1.2.1.nonempty
          have identifier := lexed.1.2.1.identifiers letter List.mem_cons_self
          have visible : letter.isSpace = false := Bool.eq_false_iff.mpr fun space => by
            simp [Byte.isIdentifier_of_isSpace letter space] at identifier
          have other : letter ≠ Byte.openParen :=
            (Byte.depthless_of_isIdentifier letter identifier).1
          simp [items, item?, bytes, visible, other]
      | byte plain =>
          cases space : plain.isSpace with
          | true => simpa [items, item?, bytes, space] using ih lexed.2
          | false => simp [items, item?, bytes, space]
      | literal mark content =>
          obtain ⟨visible, other⟩ := quote_visible lexed.1.2.1
          simp [items, item?, bytes, visible, other, Item.opens]
      | remnant mark content =>
          obtain ⟨visible, other⟩ := quote_visible lexed.1.2.1
          simp [items, item?, bytes, visible, other, Item.opens]

end Token

/-! ## Keywords, phrases and calls -/

namespace Text

/-- The text begins with a word, in any case. -/
def spells (keyword text : Text) : Bool :=
  upper (text.takeWhile Byte.isIdentifier) == keyword

/-- What comes after the word that a text begins with, and the white space after that. -/
def afterWord (text : Text) : Text :=
  (text.dropWhile Byte.isIdentifier).dropWhile Byte.isSpace

/-- The text begins with two words, in any case. -/
def spellsPhrase (first second text : Text) : Bool :=
  spells first text && spells second (afterWord text)

/-- The text begins with a call. -/
def spellsCall (name text : Text) : Bool :=
  spells name text && (afterWord text).head? == some Byte.openParen

private theorem takeWhile_append_of_stop {kind : Byte → Bool} {text : Text}
    (stop : ∃ byte ∈ text, kind byte = false) (after : Text) :
    (text ++ after).takeWhile kind = text.takeWhile kind := by
  obtain ⟨byte, member, other⟩ := stop
  rw [List.takeWhile_append, if_neg fun whole => ?_]
  have all := List.takeWhile_eq_self_iff.mp ((List.takeWhile_prefix kind).eq_of_length whole)
  simp [all byte member] at other

private theorem dropWhile_append_of_quote {kind : Byte → Bool}
    (plain : ∀ byte, kind byte = true → byte.isQuote = false) {text : Text}
    (stop : ∃ byte ∈ text, byte.isQuote = true) (after : Text) :
    (text ++ after).dropWhile kind = text.dropWhile kind ++ after ∧
      ∃ byte ∈ text.dropWhile kind, byte.isQuote = true := by
  induction text with
  | nil => simp at stop
  | cons byte text ih =>
      cases passed : kind byte with
      | false => exact ⟨by simp [passed], by simpa [passed] using stop⟩
      | true =>
          have later : ∃ byte ∈ text, byte.isQuote = true := by simpa [plain byte passed] using stop
          simpa [passed] using ih later

private theorem afterWord_append {text : Text} (stop : ∃ byte ∈ text, byte.isQuote = true)
    (after : Text) :
    afterWord (text ++ after) = afterWord text ++ after ∧
    ∃ byte ∈ afterWord text, byte.isQuote = true := by
  obtain ⟨word_eq, stop⟩ := dropWhile_append_of_quote Byte.isQuote_of_isIdentifier stop after
  obtain ⟨gap_eq, stop⟩ := dropWhile_append_of_quote Byte.isQuote_of_isSpace stop after
  exact ⟨by rw [afterWord, word_eq, gap_eq, afterWord], stop⟩

theorem stopsAtQuotes_spells (keyword : Text) : StopsAtQuotes (spells keyword) := by
  intro text after ⟨byte, member, quote⟩
  rw [spells, takeWhile_append_of_stop ⟨byte, member, Byte.isIdentifier_of_isQuote byte quote⟩,
    spells]

theorem stopsAtQuotes_spellsPhrase (first second : Text) :
    StopsAtQuotes (spellsPhrase first second) := by
  intro text after stop
  obtain ⟨after_eq, later⟩ := afterWord_append stop after
  rw [spellsPhrase, stopsAtQuotes_spells first text after stop, after_eq,
    stopsAtQuotes_spells second _ after later, spellsPhrase]

theorem stopsAtQuotes_spellsCall (name : Text) : StopsAtQuotes (spellsCall name) := by
  intro text after stop
  obtain ⟨after_eq, byte, member, -⟩ := afterWord_append stop after
  rw [spellsCall, stopsAtQuotes_spells name text after stop, after_eq,
    List.head?_append_of_ne_nil _ (List.ne_nil_of_mem member), spellsCall]

section Word

variable {written rest : Text} (name : IsName written)
  (ends : rest.head?.any Byte.isIdentifier = false)

include name ends

theorem spells_append (keyword : Text) :
    spells keyword (written ++ rest) = (upper written == keyword) := by
  rw [spells, takeWhile_isIdentifier_append name.identifiers ends]

theorem afterWord_word : afterWord (written ++ rest) = rest.dropWhile Byte.isSpace := by
  rw [afterWord, dropWhile_isIdentifier_append name.identifiers ends]

end Word

end Text

namespace Feature

/-- A word outside literals is the given one. -/
def named (keyword : Text) : Feature :=
  heard (fun spoken _ => spoken == keyword) fun _ => false

/-- A word is the given one, literals included. -/
def keyword (keyword : Text) : Feature :=
  heard (fun spoken _ => spoken == keyword) (spells keyword)

/-- A phrase stands in a literal, or its second word stands outside of literals. -/
def phrase (first second : Text) : Feature :=
  heard (fun spoken _ => spoken == second) (spellsPhrase first second)

/-- A name is called, literals included. -/
def call (name : Text) : Feature :=
  heard (fun spoken called => spoken == name && called) (spellsCall name)

end Feature

namespace Text

open Token

/-- A word is found in a text, its literals included, where an item says so. -/
theorem finds_spells (keyword text : Text) :
    finds (spells keyword) false text = true ↔
      0 < Item.tally (Feature.keyword keyword) false text.items := by
  have same (written : Text) (tokens : List Token) (name : IsName written)
      (lexed : Lexed (some (word written)) tokens) :=
    spells_append name (head?_spell_of_word lexed) keyword
  conv => lhs; rw [← spell_tokens text]
  constructor
  · exact tally_of_finds (stopsAtQuotes_spells keyword)
      (fun written tokens name lexed passed => .inl (same written tokens name lexed ▸ passed))
      (lexed_tokens text)
  · exact finds_of_tally (stopsAtQuotes_spells keyword)
      (fun written tokens name lexed said => (same written tokens name lexed).trans said)
      (lexed_tokens text)

theorem finds_spellsCall (name text : Text) :
    finds (spellsCall name) false text = true ↔
      0 < Item.tally (Feature.call name) false text.items := by
  have same (written : Text) (tokens : List Token) (is_name : IsName written)
      (lexed : Lexed (some (word written)) tokens) :
      spellsCall name (written ++ spell tokens) =
        (upper written == name && Item.opens false (Token.items (some (word written)) tokens)) := by
    have ends := head?_spell_of_word lexed
    rw [spellsCall, spells_append is_name ends, afterWord_word is_name ends, opens_items lexed]
  conv => lhs; rw [← spell_tokens text]
  constructor
  · exact tally_of_finds (stopsAtQuotes_spellsCall name)
      (fun written tokens is_name lexed passed => .inl (same written tokens is_name lexed ▸ passed))
      (lexed_tokens text)
  · exact finds_of_tally (stopsAtQuotes_spellsCall name)
      (fun written tokens is_name lexed said => (same written tokens is_name lexed).trans said)
      (lexed_tokens text)

/-- A word that comes next is an item. -/
private theorem tally_of_nextWord {second : Text} (is_second : IsName second) {test : Text → Bool}
    {tokens : List Token} (next : nextWord tokens = second) (previous : Option Token) :
    0 < Item.tally (Feature.heard (fun spoken _ => spoken == second) test) false
      (Token.items previous tokens) := by
  induction tokens generalizing previous with
  | nil => exact absurd next.symm is_second.nonempty
  | cons token tokens ih =>
      rw [tally_heard_cons]
      cases token with
      | word written => exact .inl (beq_iff_eq.mpr next)
      | byte plain =>
          rw [nextWord] at next
          split at next
          · exact .inr (ih next _)
          · exact absurd next.symm is_second.nonempty
      | literal mark content => exact absurd next.symm is_second.nonempty
      | remnant mark content => exact absurd next.symm is_second.nonempty

/-- A phrase is found only where an item says so. -/
theorem tally_of_finds_spellsPhrase {first second : Text} (is_second : IsName second) {text : Text}
    (found : finds (spellsPhrase first second) false text = true) :
    0 < Item.tally (Feature.phrase first second) false text.items := by
  refine tally_of_finds (stopsAtQuotes_spellsPhrase first second)
    (fun written tokens name lexed passed => ?_) (lexed_tokens text)
    ((spell_tokens text).symm ▸ found)
  have ends := head?_spell_of_word lexed
  rw [spellsPhrase, afterWord_word name ends, spells, spells, nextWord_spell lexed,
    Bool.and_eq_true, beq_iff_eq, beq_iff_eq] at passed
  exact .inr (tally_of_nextWord is_second passed.2 _)

/-- Where an item says so a phrase is found, or its second word is an item. -/
theorem finds_spellsPhrase_of_tally {first second text : Text}
    (found : 0 < Item.tally (Feature.phrase first second) false text.items) :
    finds (spellsPhrase first second) false text = true ∨
      0 < Item.tally (Feature.named second) false text.items := by
  obtain ⟨front, item, back, items_eq, has⟩ := Item.tally_pos_iff.mp found
  cases item with
  | byte plain => cases has
  | word spoken => exact .inr (Item.tally_pos_iff.mpr ⟨front, _, back, items_eq, has⟩)
  | literal mark content escapes =>
      have silent :
          0 < Item.tally (Feature.heard (fun _ _ => false) (spellsPhrase first second)) false
            text.items :=
        Item.tally_pos_iff.mpr ⟨front, _, back, items_eq, has⟩
      exact .inl (spell_tokens text ▸ finds_of_tally (stopsAtQuotes_spellsPhrase first second)
        (fun _ _ _ _ said => absurd said Bool.false_ne_true) (lexed_tokens text) silent)

end Text

/-! ## What policies look for -/

namespace Word

open Site

/-- A search for places that begin a word is a search of the text. -/
theorem first?_eq_none {keyword : Text} {test : Text → Bool}
    (occurs : ∀ site : Site, site.hasWord keyword =
      (!site.afterIdentifier && site.rest.head?.any Byte.isIdentifier && test site.rest))
      (text : Text) :
    Word.first? keyword text 0 = none ↔ finds test false text = false := by
  have found := @any_everywhere test [] text 0 0
  rw [Word.first?, atOffset_zero, Option.map_eq_none_iff, List.find?_eq_none, ← List.any_eq_false,
    start]
  simp only [← occurs] at found
  rw [found]
  rfl

end Word

namespace Site

/-- A name is the word at a place that begins a word spelled so. -/
private theorem spoken_eq_iff {keyword : Text} (name : IsName keyword) {site : Site} :
    site.spoken = keyword ↔
      (site.afterIdentifier = false ∧ site.rest.head?.any Byte.isIdentifier = true) ∧
        spells keyword site.rest = true := by
  rw [spells, beq_iff_eq]
  constructor
  · intro same
    obtain ⟨begins, byte, rest, rest_eq, identifier⟩ := exists_of_spoken_ne (same ▸ name.nonempty)
    rw [spoken, begins, if_neg Bool.false_ne_true] at same
    exact ⟨⟨begins, by simpa [rest_eq] using identifier⟩, same⟩
  · rintro ⟨⟨begins, -⟩, same⟩
    rw [spoken, begins, if_neg Bool.false_ne_true, same]

/-- A name occurs at the head of a word that is spelled so. -/
theorem hasWord_eq_spells {keyword : Text} (name : IsName keyword) (site : Site) :
    site.hasWord keyword =
      (!site.afterIdentifier && site.rest.head?.any Byte.isIdentifier &&
        spells keyword site.rest) := by
  rw [Bool.eq_iff_iff, hasWord_of_isName name, spoken_eq_iff name]
  simp

theorem hasWord_eq_spellsPhrase {first second : Text} (is_first : IsName first)
    (is_second : IsName second) (site : Site) :
    site.hasWord (first ++ Byte.blank :: second) =
      (!site.afterIdentifier && site.rest.head?.any Byte.isIdentifier &&
        spellsPhrase first second site.rest) := by
  have next : site.nextSpoken = second ↔ spells second (afterWord site.rest) = true := by
    rw [spells, beq_iff_eq]
    rfl
  rw [Bool.eq_iff_iff, hasWord_phrase is_first is_second, spoken_eq_iff is_first, next]
  simp [spellsPhrase, and_assoc]

end Site

namespace Policy

open Site

/-- A name spelled at a place is called if a parenthesis opens after the word there. -/
theorem opensCall_of_spells {name : Text} {site : Site} (spelled : spells name site.rest = true) :
    opensCall site name.length = ((afterWord site.rest).head? == some Byte.openParen) ∧
      ∀ byte ∈ site.rest.take name.length, byte.isIdentifier = true := by
  have split := List.takeWhile_append_dropWhile (p := Byte.isIdentifier) (l := site.rest)
  have length_eq : name.length = (site.rest.takeWhile Byte.isIdentifier).length := by
    rw [← beq_iff_eq.mp spelled, upper, List.length_map]
  have drop_eq : site.rest.drop name.length = site.rest.dropWhile Byte.isIdentifier := by
    rw [length_eq]
    conv => lhs; arg 2; rw [← split]
    exact List.drop_left
  have take_eq : site.rest.take name.length = site.rest.takeWhile Byte.isIdentifier := by
    rw [length_eq]
    conv => lhs; arg 2; rw [← split]
    exact List.take_left
  refine ⟨by rw [opensCall, drop_eq, afterWord], fun byte member => ?_⟩
  exact List.mem_takeWhile_imp (take_eq ▸ member)

/-- Bytes that a search jumps over belong to a word. -/
def Jumps (skip : Nat) (back rest : Text) : Prop :=
  0 < skip → back.head?.any Byte.isIdentifier = true ∧
  ∀ byte ∈ rest.take skip, byte.isIdentifier = true

/-- A search that jumps over a name where it occurs finds what is found everywhere. -/
private theorem any_walk_calls {name : Text} (is_name : IsName name) {back rest : Text}
    {offset depth skip : Nat} (jumps : Jumps skip back rest) :
    (walk (fun site => if site.hasWord name then name.length
      else 1) back offset depth skip rest).any
        (fun site => site.hasWord name && opensCall site name.length) =
      finds (spellsCall name) (back.head?.any Byte.isIdentifier) rest := by
  induction rest generalizing back offset depth skip with
  | nil => cases skip <;> rfl
  | cons byte rest ih =>
      cases skip with
      | succ skip =>
          obtain ⟨inside, identifiers⟩ := jumps (Nat.succ_pos skip)
          obtain ⟨identifier, identifiers⟩ := List.forall_mem_cons.mp identifiers
          have later : Jumps skip (byte :: back) rest := fun _ => ⟨identifier, identifiers⟩
          rw [walk, ih later, finds, inside]
          rfl
      | zero =>
          have here := hasWord_eq_spells is_name ⟨back, byte :: rest, offset, depth⟩
          rw [walk, List.any_cons, finds]
          cases occurs : hasWord name ⟨back, byte :: rest, offset, depth⟩ with
          | false =>
              have later : Jumps 0 (byte :: back) rest :=
                fun positive => absurd positive (lt_irrefl 0)
              have silent : (!back.head?.any Byte.isIdentifier && byte.isIdentifier &&
                  spellsCall name (byte :: rest)) = false := by
                rw [spellsCall, ← Bool.and_assoc]
                exact Bool.and_eq_false_imp.mpr fun spelled =>
                  absurd (here.trans spelled) (by simp [occurs])
              simp only [Bool.false_and, Bool.false_or, Bool.false_eq_true, if_false, Nat.sub_self]
              rw [silent, ih later]
              rfl
          | true =>
              rw [occurs, eq_comm, Bool.and_eq_true, Bool.and_eq_true] at here
              obtain ⟨⟨outside, identifier⟩, spelled⟩ := here
              obtain ⟨opens, identifiers⟩ := opensCall_of_spells spelled
              have later : Jumps (name.length - 1) (byte :: back) rest := fun positive => by
                obtain ⟨length, length_eq⟩ :=
                  Nat.exists_eq_succ_of_ne_zero (by omega : name.length ≠ 0)
                rw [length_eq] at identifiers ⊢
                exact List.forall_mem_cons.mp identifiers
              have outside : (!back.head?.any Byte.isIdentifier) = true := outside
              have identifier : byte.isIdentifier = true := identifier
              have spelled : spells name (byte :: rest) = true := spelled
              simp only [Bool.true_and, if_true]
              rw [ih later, opens, outside, identifier, spellsCall, spelled]
              simp [identifier]

theorem calls_eq_finds {name : Text} (is_name : IsName name) (text : Text) :
    calls name text = finds (spellsCall name) false text := by
  rw [calls, tour, any_walk_calls is_name fun positive => absurd positive (lt_irrefl 0)]
  rfl

/-- A function is called where an item calls it. -/
theorem calls_iff {name : Text} (is_name : IsName name) (text : Text) :
    calls name text = true ↔ 0 < Item.tally (Feature.call name) false text.items := by
  rw [calls_eq_finds is_name, finds_spellsCall]

end Policy

end TenantScope
