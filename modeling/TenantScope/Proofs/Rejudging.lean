import TenantScope.Proofs.Counting
import TenantScope.Proofs.Lightening
import TenantScope.Proofs.Verdicts

/-!
# The second verdict

An allowed statement is judged again once it is repaired and scoped.  It has no more forbidden
words, calls and semicolons than before and begins as it did, so the second verdict turns on three
rules only: a `UNION` may have come to stand behind a literal or before a `SELECT`, a pattern may
occur where pieces came together, and the limit may have been cut off.
-/

namespace TenantScope

open Text Site Literal

/-! ## The word that a text begins with -/

namespace Token

/-- Where items begin with a word, only white space comes before it. -/
theorem exists_of_opening {previous : Option Token} {tokens : List Token} {spoken : Text}
    (opens : Item.opening (items previous tokens) = spoken) (nonempty : spoken ≠ []) :
    ∃ gaps written rest, tokens = gaps ++ word written :: rest ∧
      (∀ byte ∈ spell gaps, byte.isSpace = true) ∧ upper written = spoken := by
  induction tokens generalizing previous with
  | nil => exact absurd opens.symm nonempty
  | cons token tokens ih =>
      cases token with
      | word written => exact ⟨[], written, tokens, rfl, List.forall_mem_nil _, opens⟩
      | literal mark content => exact absurd opens.symm nonempty
      | remnant mark content => exact absurd opens.symm nonempty
      | byte plain =>
          cases space : plain.isSpace with
          | false =>
              refine absurd opens.symm ?_
              simpa [items, item?, space, Item.opening] using nonempty
          | true =>
              obtain ⟨gaps, written, rest, rfl, blank, spoken_eq⟩ :=
                ih (by simpa [items, item?, space] using opens)
              exact ⟨byte plain :: gaps, written, rest, rfl, by simpa [bytes, space] using blank,
                spoken_eq⟩

end Token

/-- A text whose items begin with a word begins with it, but for white space. -/
theorem Text.exists_of_opening {text spoken : Text} (opens : Item.opening text.items = spoken)
    (nonempty : spoken ≠ []) :
    ∃ blank written rest, text = blank ++ (written ++ rest) ∧
      (∀ byte ∈ blank, byte.isSpace = true) ∧
      IsName written ∧ rest.head?.any Byte.isIdentifier = false ∧ upper written = spoken := by
  obtain ⟨gaps, written, rest, tokens_eq, blank, spoken_eq⟩ :=
    Token.exists_of_opening opens nonempty
  have lexed := lexed_tokens text
  have text_eq := spell_tokens text
  rw [tokens_eq] at lexed text_eq
  obtain ⟨-, ⟨-, name, -⟩, lexed⟩ := Token.linked_append.mp lexed
  rw [Token.spell_append, Token.spell_cons, Token.bytes] at text_eq
  exact ⟨_, written, _, text_eq.symm, blank, name, Token.head?_spell_of_word lexed, spoken_eq⟩

/-- The first place behind white space lies outside literals. -/
theorem Site.mem_code_of_blank {back blank rest : Text} {first : Byte}
    (is_blank : ∀ byte ∈ blank, byte.isSpace = true) (unquoted : first.isQuote = false)
    (offset depth : Nat) :
    ⟨blank.reverse ++ back, first :: rest, offset + blank.length, depth⟩ ∈
      code ⟨back, blank ++ first :: rest, offset, depth⟩ := by
  induction blank generalizing back offset with
  | nil =>
      rw [List.nil_append, code_cons _ _ _ _ unquoted]
      exact List.mem_cons_self
  | cons byte blank ih =>
      obtain ⟨space, is_blank⟩ := List.forall_mem_cons.mp is_blank
      have later := @ih (byte :: back) is_blank (offset + 1)
      rw [List.cons_append, code_cons _ _ _ _ (Byte.isQuote_of_isSpace byte space),
        depthAfter_of_flat (Byte.depthless_of_isSpace byte space)]
      refine List.mem_cons_of_mem _ ?_
      simpa [Nat.add_assoc, Nat.add_comm 1] using later

namespace Scope

/-- A `WHERE` behind nothing but white space begins a clause. -/
theorem mem_marks_of_filter {blank written rest : Text}
    (is_blank : ∀ byte ∈ blank, byte.isSpace = true) (name : IsName written)
    (ends : rest.head?.any Byte.isIdentifier = false) (spoken : upper written = ascii "WHERE") :
    ⟨.clause .filter, blank.length⟩ ∈ Outline.marks (blank ++ (written ++ rest)) := by
  have apart {kind : Byte → Bool} (other : ∀ byte : Byte, byte.isSpace = true → kind byte = false) :
      blank.reverse.head?.any kind = false := by
    cases first : blank.reverse.head? with
    | none => rfl
    | some byte => exact other byte (is_blank byte (List.mem_reverse.mp (List.mem_of_head? first)))
  have spells :=
    Token.spoken_spell name rest (apart Byte.isIdentifier_of_isSpace) ends blank.length 0
  have undotted := @apart (· == Byte.dot) (by decide +kernel)
  obtain ⟨letter, letters, rfl⟩ := List.exists_cons_of_ne_nil name.nonempty
  have member := @mem_code_of_blank [] blank (letters ++ rest) letter is_blank
    (Byte.isQuote_of_isIdentifier letter (name.identifiers letter List.mem_cons_self)) 0 0
  rw [List.append_nil, Nat.zero_add] at member
  refine mem_marks.mpr
    ⟨_, member, mark?_eq_some.mpr (Mark.countsAt_iff.mpr ⟨rfl, ?_, fun _ => ?_⟩), rfl⟩
  · exact List.any_eq_true.mpr ⟨ascii "WHERE", (by decide : _ ∈ (Mark.clause .filter).keywords),
      (hasWord_of_isName (by decide) _).mpr (spells.trans spoken)⟩
  · cases first : blank.reverse.head? with
    | none => simp [afterDot, previous?, first]
    | some byte => simpa [afterDot, previous?, first] using undotted

/-- A statement that can be scoped does not begin with a `WHERE`. -/
theorem opening_ne_filter {tenant : Tenant} {text : Text} {source : Source}
    (found : sourceOf tenant (Outline.ofText text) = .ok source) :
    Item.opening text.items ≠ ascii "WHERE" := by
  intro opens
  obtain ⟨blank, written, rest, rfl, is_blank, name, ends, spoken⟩ :=
    exists_of_opening opens (by decide)
  obtain ⟨-, source_eq, -, ordered, -⟩ := sourceOf_eq_ok found
  obtain ⟨listed, member, -, listed_le⟩ :=
    exists_listed (mem_marks_of_filter is_blank name ends spoken) rfl
  have before := (source_lt_of_le source_eq ordered listed member).trans_le listed_le
  have identifier := head?_drop_of_mem_marks (mem_marks_of_source? source_eq)
  rw [List.drop_append_of_le_length before.le, List.drop_eq_getElem_cons before, List.cons_append,
    List.head?_cons, Option.any_some,
    Byte.isIdentifier_of_isSpace _ (is_blank _ (List.getElem_mem before))] at identifier
  cases identifier

end Scope

/-- The word at the head of a text is the one that its items begin with. -/
theorem Policy.openingWord_trim {text : Text} (closed : Closed (start text)) :
    openingWord text.trim = Item.opening text.items := by
  obtain ⟨trimmed, items_eq⟩ := items_trim closed
  rw [← items_eq, openingWord]
  cases begins : text.trim.head?.any Byte.isIdentifier with
  | true =>
      obtain ⟨others, held⟩ := exists_items_of_word begins
      rw [held]
      rfl
  | false =>
      have wordless : text.trim.takeWhile Byte.isIdentifier = [] := by
        cases body : text.trim with
        | nil => rfl
        | cons byte rest => simpa [body] using begins
      rw [wordless]
      by_contra other
      obtain ⟨blank, written, rest, text_eq, is_blank, name, -⟩ :=
        exists_of_opening (rfl : Item.opening text.trim.items = _) fun empty => other empty.symm
      cases blank with
      | nil =>
          obtain ⟨letter, letters, rfl⟩ := List.exists_cons_of_ne_nil name.nonempty
          simp [text_eq, name.identifiers letter List.mem_cons_self] at begins
      | cons byte blank =>
          have visible := @head?_trim text byte (by simp [text_eq])
          simp [is_blank byte List.mem_cons_self] at visible

/-! ## What policies look for is not put in -/

theorem Text.finds_quoted {test : Text → Bool} {id : Text} (name : IsName id) :
    finds test false (Byte.apostrophe :: (id ++ [Byte.apostrophe])) =
      test (id ++ [Byte.apostrophe]) := by
  have ends : ([Byte.apostrophe] : Text).head?.any Byte.isIdentifier = false := rfl
  have mark : Byte.apostrophe.isIdentifier = false := rfl
  rw [finds, mark, finds_word name ends]
  simp [finds, mark]

/-- Of an identifier that runs on into another one, what is heard is heard in one of the two. -/
theorem Feature.heard_joined {said : Text → Bool → Bool} {test : Text → Bool}
    (stops : StopsAtQuotes test) {mark : Byte} {content : Text} (quote : mark.isQuote = true)
    (ends : content.getLast? = some mark) (other : Text) (called : Bool)
    (found : heard said test (.literal mark (content ++ mark :: other) false) called = true) :
    heard said test (.literal mark content false) false = true ∨
      heard said test (.literal mark other false) called = true := by
  obtain ⟨front, rfl⟩ := List.getLast?_eq_some_iff.mp ends
  have split := finds_append_of_quote stops quote false (mark :: front) (mark :: other)
  rw [heard, show mark :: ((front ++ [mark]) ++ mark :: other) = (mark :: front) ++ mark ::
    (mark :: other) by simp, split, Bool.or_eq_true] at found
  exact found

namespace Native

variable {rules : ScopeRules} {tenant : Tenant} {said : Text → Bool → Bool} {test : Text → Bool}

/-- What is heard is native when neither the words put in say it nor the identifier of
the tenant holds it. -/
theorem heard (stops : StopsAtQuotes test)
    (grows : ∀ spoken, said spoken false = true → said spoken true = true)
    (filter : ∀ called, said (ascii "WHERE") called = false)
    (conjunction : ∀ called, said (ascii "AND") called = false)
    (column : EveryColumn (fun column => said (upper column) false = false) rules tenant)
    (name : IsName tenant.id) (value : test (tenant.id ++ [Byte.apostrophe]) = false) :
    Native rules tenant (Feature.heard said test) where
  grows item has := by
    cases item with
    | word spoken => exact grows spoken has
    | byte plain => exact has
    | literal mark content escapes => exact has
  byte _ _ _ := rfl
  filter := filter
  conjunction := conjunction
  column := column
  value _ := (finds_quoted name).trans value
  joined _ _ other called quote _ ends := Feature.heard_joined stops quote ends other called

section Word

variable {sought : Text} (unused : sought ≠ ascii "WHERE" ∧ sought ≠ ascii "AND")
  (columns : EveryColumn (fun column => upper column ≠ sought) rules tenant)
  (name : IsName tenant.id)

include unused columns name

theorem named : Native rules tenant (Feature.named sought) :=
  heard (fun _ _ _ => rfl) (fun _ said => said) (fun _ => beq_false_of_ne unused.1.symm)
    (fun _ => beq_false_of_ne unused.2.symm) (columns.imp fun _ => beq_false_of_ne) name rfl

theorem keyword (other : upper tenant.id ≠ sought) : Native rules tenant (Feature.keyword sought) :=
  heard (stopsAtQuotes_spells sought) (fun _ said => said) (fun _ => beq_false_of_ne unused.1.symm)
    (fun _ => beq_false_of_ne unused.2.symm) (columns.imp fun _ => beq_false_of_ne) name
    ((spells_append name rfl sought).trans (beq_false_of_ne other))

theorem phrase (is_name : IsName sought) (first : Text) :
    Native rules tenant (Feature.phrase first sought) := by
  refine heard (stopsAtQuotes_spellsPhrase first sought) (fun _ said => said)
    (fun _ => beq_false_of_ne unused.1.symm) (fun _ => beq_false_of_ne unused.2.symm)
    (columns.imp fun _ => beq_false_of_ne) name ?_
  have nothing : spells sought [Byte.apostrophe] = false := beq_false_of_ne is_name.nonempty.symm
  rw [spellsPhrase, afterWord_word name rfl,
    show [Byte.apostrophe].dropWhile Byte.isSpace = [Byte.apostrophe] from rfl,
    nothing, Bool.and_false]

omit columns in
theorem call : Native rules tenant (Feature.call sought) := by
  refine heard (stopsAtQuotes_spellsCall sought) (fun _ said => by simp at said)
    (fun _ => by simp [unused.1.symm]) (fun _ => by simp [unused.2.symm]) ?_ name ?_
  · exact ⟨by simp, .inr (by simp), fun _ _ => .inr (by simp)⟩
  · have mark : ([Byte.apostrophe].dropWhile Byte.isSpace).head? = some Byte.apostrophe := rfl
    rw [spellsCall, afterWord_word name rfl, mark,
      show (some Byte.apostrophe == some Byte.openParen) = false from rfl,
      Bool.and_false]

end Word

theorem terminator : Native rules tenant Feature.terminator where
  grows item has := by cases item <;> exact has
  byte _ other _ := beq_false_of_ne other
  filter _ := rfl
  conjunction _ := rfl
  column := ⟨rfl, .inr rfl, fun _ _ => .inr rfl⟩
  value _ := rfl
  joined _ _ _ _ _ _ _ has := absurd has Bool.false_ne_true

theorem ambiguous (name : IsName tenant.id) : Native rules tenant Feature.ambiguous where
  grows item has := by cases item <;> exact has
  byte _ _ _ := rfl
  filter _ := rfl
  conjunction _ := rfl
  column := ⟨rfl, .inr rfl, fun _ _ => .inr rfl⟩
  value _ := by
    have plain : Byte.backslash ∉ tenant.id ++ [Byte.apostrophe] := fun member => by
      rcases List.mem_append.mp member with inside | last
      · exact absurd (name.identifiers _ inside) (by decide)
      · exact absurd (List.mem_singleton.mp last) (by decide)
    simp only [Feature.ambiguous, beq_self_eq_true, Bool.not_false, Bool.true_and,
      decide_eq_false_iff_not]
    exact fun within => plain (within.subset List.mem_cons_self)
  joined mark _ _ _ _ identifier _ has := by
    simp [Feature.ambiguous, identifier] at has

end Native

/-! ## Policies of words -/

namespace Policy

/-- The keywords and functions of a policy are words, or phrases of two words of which the second is
forbidden by itself, and none of them is a word that scoping puts in. -/
structure Lexical (policy : Policy) : Prop where
  keywords : ∀ keyword ∈ policy.upperKeywords, IsName keyword ∨
    ∃ second ∈ ascii "INTO" :: policy.upperKeywords, IsName second ∧
      IsName (keyword.takeWhile Byte.isIdentifier) ∧
      keyword.dropWhile Byte.isIdentifier = Byte.blank :: second
  functions : ∀ name ∈ policy.functions, IsName name
  unused : ∀ word ∈ [ascii "WHERE", ascii "AND"],
    word ∉ policy.upperKeywords ++ policy.functions.map upper

/-- A word that is none of the forbidden keywords. -/
structure Permits (policy : Policy) (written : Text) : Prop where
  name : IsName written
  keyword : upper written ∉ policy.upperKeywords

/-- A word that is forbidden nowhere and not counted. -/
structure PermitsColumn (policy : Policy) (column : Text) : Prop extends policy.Permits column where
  uncounted : upper column ∉ [ascii "INTO", ascii "SELECT", ascii "JOIN"]

instance (policy : Policy) : Decidable policy.Lexical :=
  decidable_of_iff
    ((∀ keyword ∈ policy.upperKeywords, IsName keyword ∨
      ∃ second ∈ ascii "INTO" :: policy.upperKeywords, IsName second ∧
        IsName (keyword.takeWhile Byte.isIdentifier) ∧
        keyword.dropWhile Byte.isIdentifier = Byte.blank :: second) ∧
      (∀ name ∈ policy.functions, IsName name) ∧
        ∀ word ∈ [ascii "WHERE", ascii "AND"],
          (policy.upperKeywords ++ policy.functions.map upper).contains word = false)
    (by simp only [List.contains_eq_mem, decide_eq_false_iff_not]
        exact ⟨fun lexical => ⟨lexical.1, lexical.2.1, lexical.2.2⟩,
          fun lexical => ⟨lexical.keywords, lexical.functions, lexical.unused⟩⟩)

instance (policy : Policy) (written : Text) : Decidable (policy.Permits written) :=
  decidable_of_iff (IsName written ∧ policy.upperKeywords.contains (upper written) = false)
    (by simp only [List.contains_eq_mem, decide_eq_false_iff_not]
        exact ⟨fun permits => ⟨permits.1, permits.2⟩,
          fun permits => ⟨permits.name, permits.keyword⟩⟩)

instance (policy : Policy) (column : Text) : Decidable (policy.PermitsColumn column) :=
  decidable_of_iff
    (policy.Permits column ∧
      [ascii "INTO", ascii "SELECT", ascii "JOIN"].contains (upper column) = false)
    (by simp only [List.contains_eq_mem, decide_eq_false_iff_not]
        exact ⟨fun column => ⟨column.1, column.2⟩,
          fun column => ⟨column.toPermits, column.uncounted⟩⟩)

theorem firstKeyword?_eq_none_iff_first? {keywords : List Text} {body : Text} :
    firstKeyword? keywords body = none ↔
      ∀ keyword ∈ keywords, Word.first? keyword body 0 = none := by
  simp only [firstKeyword?_eq_none_iff, Word.first?_eq_none_iff, Nat.zero_le, true_imp_iff]

namespace Lexical

variable {policy : Policy} (lexical : policy.Lexical)

include lexical

theorem ne_of_mem {word : Text}
    (member : word ∈ policy.upperKeywords ++ policy.functions.map upper) :
    word ≠ ascii "WHERE" ∧ word ≠ ascii "AND" :=
  ⟨fun same => lexical.unused word (by simp [same]) member,
    fun same => lexical.unused word (by simp [same]) member⟩

theorem ne_of_keyword {keyword : Text} (member : keyword ∈ policy.upperKeywords) :
    keyword ≠ ascii "WHERE" ∧ keyword ≠ ascii "AND" :=
  lexical.ne_of_mem (List.mem_append_left _ member)

theorem ne_of_function {name : Text} (member : name ∈ policy.functions) :
    upper name ≠ ascii "WHERE" ∧ upper name ≠ ascii "AND" :=
  lexical.ne_of_mem (List.mem_append_right _ (List.mem_map_of_mem member))

end Lexical

end Policy

/-! ## Statements that descend from allowed ones -/

/-- A statement gains no native feature over the one it was made of and begins as that does; both
end in one semicolon. -/
structure Descends (rules : ScopeRules) (tenant : Tenant) (text result : Text) : Prop where
  closed : Closed (start text)
  ended : Ended 1 text
  result_closed : Closed (start result)
  result_ended : Ended 1 result
  tally_le : ∀ feature, Native rules tenant feature →
    Item.tally feature false result.items ≤ Item.tally feature false text.items
  opening : Item.opening result.items = Item.opening text.items
  worded : ∃ byte ∈ result, byte.isIdentifier = true

namespace Descends

variable {rules : ScopeRules} {tenant : Tenant} {text result : Text}
  (descends : Descends rules tenant text result)

include descends

/-- What is native and nowhere in a statement is nowhere in one that descends from it. -/
theorem tally_eq_zero {feature : Feature} (native : Native rules tenant feature)
    (absent : ¬ 0 < Item.tally feature false text.trim.items) :
    ¬ 0 < Item.tally feature false result.trim.items := by
  have fewer := descends.tally_le feature native
  rw [(items_trim descends.closed).2] at absent
  rw [(items_trim descends.result_closed).2]
  omega

/-- A name is counted no more often. -/
theorem count_le {keyword : Text} (is_name : IsName keyword)
    (native : Native rules tenant (Feature.named keyword)) :
    Word.count keyword result.trim ≤ Word.count keyword text.trim := by
  rw [count_eq_tally is_name, count_eq_tally is_name, (items_trim descends.closed).2,
    (items_trim descends.result_closed).2]
  exact descends.tally_le _ native

/-- One statement stays one. -/
theorem isStacked_eq_false (single : Policy.isStacked text.trim = false) :
    Policy.isStacked result.trim = false := by
  rw [descends.ended.isStacked_trim one_pos] at single
  rw [descends.result_ended.isStacked_trim one_pos]
  have one : Item.tally Feature.terminator false text.items = 1 := by
    rw [← length_semicolons, semicolons_of_ended descends.ended descends.closed single,
      List.length_range']
  have fewer := descends.tally_le _ Native.terminator
  rw [one] at fewer
  exact isStacked_of_tally_le descends.result_ended descends.result_closed fewer

theorem ne_of_worded : result.trim ≠ [] ∧ result.trim ≠ [Byte.semicolon] := by
  obtain ⟨byte, member, identifier⟩ := descends.worded
  obtain ⟨lead, trail, lead_blank, trail_blank, split⟩ := exists_trim_append result
  have space {blank : Text} (is_blank : ∀ byte ∈ blank, byte.isSpace = true) : byte ∉ blank :=
    fun inside => by
    simp [Byte.isIdentifier_of_isSpace byte (is_blank byte inside)] at identifier
  have inside : byte ∈ result.trim := by
    rw [split] at member
    simpa [space lead_blank, space trail_blank] using member
  refine ⟨List.ne_nil_of_mem inside, fun only => ?_⟩
  rw [only, List.mem_singleton] at inside
  exact absurd (inside ▸ identifier) (by decide)

section Words

variable {policy : Policy} (lexical : policy.Lexical)
  (columns : EveryColumn policy.PermitsColumn rules tenant) (permits : policy.Permits tenant.id)

include lexical columns permits

/-- No forbidden keyword comes in. -/
theorem first?_eq_none
    (absent : ∀ keyword ∈ policy.upperKeywords, Word.first? keyword text.trim 0 = none)
    (unwritten : Word.count (ascii "INTO") text.trim = 0) {keyword : Text}
    (member : keyword ∈ policy.upperKeywords) :
    Word.first? keyword result.trim 0 = none := by
  have other {word : Text} (forbidden : word ∈ ascii "INTO" :: policy.upperKeywords) :
      EveryColumn (fun column => upper column ≠ word) rules tenant :=
    columns.imp fun column plain same => by
      rcases List.mem_cons.mp forbidden with rfl | listed
      · exact plain.uncounted (by simp [same])
      · exact plain.keyword (same ▸ listed)
  rcases lexical.keywords keyword member with
    name | ⟨second, forbidden, second_name, first_name, split⟩
  · have native := Native.keyword (lexical.ne_of_keyword member)
      (other (List.mem_cons_of_mem _ member)) permits.name
      fun same => permits.keyword (same ▸ member)
    have nowhere := absent keyword member
    rw [Word.first?_eq_none (hasWord_eq_spells name), ← Bool.not_eq_true, finds_spells] at nowhere ⊢
    exact descends.tally_eq_zero native nowhere
  · have unused : second ≠ ascii "WHERE" ∧ second ≠ ascii "AND" := by
      rcases List.mem_cons.mp forbidden with rfl | listed
      · decide
      · exact lexical.ne_of_keyword listed
    have native := Native.phrase unused (other forbidden) permits.name second_name
      (keyword.takeWhile Byte.isIdentifier)
    have phrase_eq : keyword = keyword.takeWhile Byte.isIdentifier ++ Byte.blank :: second := by
      rw [← split, List.takeWhile_append_dropWhile]
    have nowhere := absent keyword member
    rw [phrase_eq, Word.first?_eq_none (hasWord_eq_spellsPhrase first_name second_name)]
      at nowhere ⊢
    refine Bool.eq_false_iff.mpr fun found => descends.tally_eq_zero native (fun held => ?_)
      (tally_of_finds_spellsPhrase second_name found)
    -- Either the phrase was found before, or its second word, which is forbidden by itself.
    have named := (finds_spellsPhrase_of_tally held).resolve_left (by simp [nowhere])
    rcases List.mem_cons.mp forbidden with rfl | listed
    · rw [← count_eq_tally second_name, unwritten] at named
      exact absurd named (lt_irrefl 0)
    · have alone := absent second listed
      rw [Word.first?_eq_none (hasWord_eq_spells second_name), ← Bool.not_eq_true, finds_spells]
        at alone
      obtain ⟨front, item, back, items_eq, has⟩ := Item.tally_pos_iff.mp named
      refine alone (Item.tally_pos_iff.mpr ⟨front, item, back, items_eq, ?_⟩)
      cases item with
      | word spoken => exact has
      | byte plain => exact has
      | literal mark content escapes =>
          rw [Feature.named_literal] at has
          cases has

end Words

end Descends

/-! ## Rewritten statements -/

namespace Scope

/-- A scoped statement has a word in it. -/
theorem worded_of_inject {rules : ScopeRules} {tenant : Tenant} {statement result : Statement}
    (columns : EveryColumn IsName rules tenant)
    (injected : inject rules tenant statement = .ok result) :
    ∃ byte ∈ result.text, byte.isIdentifier = true := by
  obtain ⟨source, source_found, ⟨rfl, -⟩ | ⟨slot, -, rfl, -⟩⟩ := inject_cases injected
  · have begins := head?_drop_of_mem_marks (mem_marks_of_source? (sourceOf_eq_ok source_found).2.1)
    cases first : (result.text.drop source.offset).head? with
    | none => simp [first] at begins
    | some byte =>
        exact ⟨byte, List.mem_of_mem_drop (List.mem_of_head? first), by simpa [first] using begins⟩
  · have name := columns.columnOf statement.outline.table
    obtain ⟨letter, letters, column_eq⟩ := List.exists_cons_of_ne_nil name.nonempty
    exact ⟨letter, by simp [Statement.withText, Slot.fill, predicate, column_eq],
      name.identifiers letter (by simp [column_eq])⟩

end Scope

namespace Rules

variable {rules : Rules} {tenant : Tenant} {received : Text} {result : Statement}

/-- A scoped statement descends from the one that was put in normal form. -/
theorem descends_of_inject (columns : EveryColumn IsName rules.scope tenant)
    (name : IsName tenant.id)
    (identifiers : ∀ byte ∈ rules.scope.database, byte.isIdentifier = true)
    (unnamed : rules.scope.database ≠ [] →
      Item.opening received.sanitize.items ≠ upper rules.scope.database)
    (closed : Closed (start received.sanitize)) (nonempty : received.sanitize ≠ [])
    (injected : Scope.inject rules.scope (rules.completed tenant)
      (rules.repaired (rules.completed tenant) received received.sanitize) = .ok result) :
    Descends rules.scope (rules.completed tenant) received.sanitize result.text := by
  have names := columns.completed
  have unquoted : ∀ byte ∈ (rules.completed tenant).id, byte.isQuote = false := fun byte member =>
    Byte.isQuote_of_isIdentifier byte (name.identifiers byte (rules.id_completed tenant ▸ member))
  have ended : Ended 1 received.sanitize := ended_terminate nonempty
  have whole : Sealed received.sanitize := ⟨closed, fun last last_eq => by
    obtain ⟨front, text_eq, -⟩ := ended
    rw [text_eq] at last_eq
    simpa using last_eq.symm⟩
  have repaired : Lightened rules.scope (rules.completed tenant) received.sanitize
      (rules.repaired (rules.completed tenant) received received.sanitize).text := by
    have unqualified :=
      @TableName.lightened_unqualify rules.scope
        (rules.completed tenant) _ _ identifiers unnamed whole
    rw [Rules.repaired, Statement.repair, Repair.run_eq_iterate]
    exact unqualified.trans (@Repair.lightened_iterate_pass _ _ names
      ⟨received, TableName.unqualify rules.scope.database received.sanitize⟩ unqualified.toSealed _)
  obtain ⟨count, repaired_ended, count_cases⟩ :=
    ended_repaired names (Scope.text_ne_nil_of_inject injected)
  obtain rfl : count = 1 := count_cases.resolve_right fun more => more.2 repaired.closed
  obtain ⟨fewer, some_end, at_most, result_ended⟩ :=
    Scope.exists_ended_inject repaired_ended one_pos injected
  obtain rfl : fewer = 1 := by omega
  obtain ⟨result_closed, lighter, opening_eq⟩ :=
    Scope.lighter_inject names unquoted repaired.closed injected
  obtain ⟨source, source_found, -⟩ := Scope.inject_cases injected
  have opening := repaired.lighter.opening.resolve_right (Scope.opening_ne_filter source_found)
  exact ⟨closed, ended, result_closed, result_ended, (repaired.lighter.trans lighter).tally_le,
    opening_eq.trans opening, Scope.worded_of_inject names injected⟩

end Rules

namespace Descends

variable {policy : Policy} {rules : ScopeRules} {tenant : Tenant} {text result : Text}
  (descends : Descends rules tenant text result) (lexical : policy.Lexical)
  (columns : EveryColumn policy.PermitsColumn rules tenant) (permits : policy.Permits tenant.id)

include descends lexical columns permits

open Policy in
/-- A statement that descends from an allowed one breaks no rules but those on `UNION`,
patterns and limits. -/
theorem rejection?_eq_none (allowed : ∀ rule, Rule.rejection? policy text.trim rule = none)
    (rule : Rule) (other : rule ∉ [.union, .pattern, .rows]) :
    Rule.rejection? policy result.trim rule = none := by
  have reports {condition : Prop} [Decidable condition] {reason : Rejection} :
      (if condition then some reason else none) = none ↔ ¬ condition := by
    split <;> simp [*]
  have absent := firstKeyword?_eq_none_iff_first?.mp (Option.map_eq_none_iff.mp (allowed .keyword))
  have unwritten : Word.count (ascii "INTO") text.trim = 0 :=
    Nat.eq_zero_of_not_pos (reports.mp (allowed .into))
  have nowhere : ∀ keyword ∈ policy.upperKeywords, Word.first? keyword result.trim 0 = none :=
    fun keyword member =>
    descends.first?_eq_none lexical columns permits absent unwritten member
  have fewer : ∀ counted ∈ [ascii "INTO", ascii "SELECT", ascii "JOIN"],
      Word.count counted result.trim ≤ Word.count counted text.trim := fun counted member => by
    have distinct : ∀ counted ∈ [ascii "INTO", ascii "SELECT", ascii "JOIN"],
        IsName counted ∧ counted ≠ ascii "WHERE" ∧ counted ≠ ascii "AND" := by decide
    obtain ⟨is_name, unused⟩ := distinct counted member
    exact descends.count_le is_name (Native.named unused
      (columns.imp fun column plain same => plain.uncounted (same ▸ member)) permits.name)
  have allowed := allowed rule
  cases rule with
  | content => simp [Rule.rejection?, descends.ne_of_worded]
  | beginning =>
      refine Option.map_eq_none_iff.mpr (List.find?_eq_none.mpr fun keyword member => ?_)
      have silent := Word.first?_eq_none_iff.mp (nowhere keyword member) 0 le_rfl
      rw [atOffset_zero] at silent
      simp [silent]
  | opening =>
      rw [Rule.rejection?, openingWord_trim descends.result_closed, descends.opening,
        ← openingWord_trim descends.closed]
      exact allowed
  | readable => exact allowed
  | backslash =>
      rw [Rule.rejection?, reports, ambiguousBackslash?_iff_tally] at allowed ⊢
      exact descends.tally_eq_zero (Native.ambiguous permits.name) allowed
  | union => simp at other
  | pattern => simp at other
  | single =>
      rw [Rule.rejection?, reports, Bool.not_eq_true] at allowed ⊢
      exact descends.isStacked_eq_false allowed
  | keyword => exact Option.map_eq_none_iff.mpr (firstKeyword?_eq_none_iff_first?.mpr nowhere)
  | into => exact reports.mpr (by have at_most := fewer (ascii "INTO") (by simp); omega)
  | function =>
      refine Option.map_eq_none_iff.mpr (List.find?_eq_none.mpr fun name member => ?_)
      have uncalled := List.find?_eq_none.mp (Option.map_eq_none_iff.mp allowed) name member
      have is_name := (lexical.functions name member).upper
      rw [calls_iff is_name] at uncalled ⊢
      exact descends.tally_eq_zero
        (Native.call (lexical.ne_of_function member) permits.name) uncalled
  | selects =>
      have few := reports.mp allowed
      exact reports.mpr (by have at_most := fewer (ascii "SELECT") (by simp); omega)
  | joins =>
      have few := reports.mp allowed
      exact reports.mpr (by have at_most := fewer (ascii "JOIN") (by simp); omega)
  | rows => simp at other

end Descends

namespace Rules

open Policy

/-- The verdict on a statement is that of the three rules that need not hold
again, if the others do. -/
theorem rejection?_eq_none_iff_of_kept {policy : Policy} {text : Text}
    (kept : ∀ rule, rule ∉ [Rule.union, .pattern, .rows] →
      Rule.rejection? policy text.trim rule = none) :
    policy.rejection? text = none ↔
      breaksOut text.trim false (start text.trim).code = false ∧
        (∀ pattern ∈ policy.readPatterns, pattern.2.occursIn text.trim = false) ∧
        (policy.rowLimitRequired = true →
          0 < Word.count (ascii "LIMIT") text.trim ∨ countsRows text.trim = true) := by
  have listed (rule : Rule) : rule ∈ Rule.order := by cases rule <;> decide
  have three : policy.rejection? text = none ↔
      Rule.rejection? policy text.trim .union = none ∧
      Rule.rejection? policy text.trim .pattern = none ∧
        Rule.rejection? policy text.trim .rows = none := by
    rw [rejection?_eq_findSome?, List.findSome?_eq_none_iff]
    refine ⟨fun silent => ⟨silent _ (listed _), silent _ (listed _), silent _ (listed _)⟩, ?_⟩
    rintro ⟨union, pattern, rows⟩ rule -
    by_cases member : rule ∈ [Rule.union, .pattern, .rows]
    · simp only [List.mem_cons, List.not_mem_nil, or_false] at member
      rcases member with rfl | rfl | rfl
      · exact union
      · exact pattern
      · exact rows
    · exact kept rule member
  rw [three]
  refine and_congr ?_ (and_congr ?_ ?_)
  · simp [Rule.rejection?]
  · simp [Rule.rejection?, List.find?_eq_none]
  · simp [Rule.rejection?, Nat.pos_iff_ne_zero, or_iff_not_imp_left]

/-- A statement that is allowed, repaired and scoped is allowed again unless a `UNION` breaks out in
it, a pattern occurs in it or a limit that is required is gone. -/
theorem allowed_again_iff {rules : Rules} {tenant : Tenant} {received : Text} {result : Statement}
    (lexical : rules.policy.Lexical)
    (columns : EveryColumn rules.policy.PermitsColumn rules.scope tenant)
    (permits : rules.policy.Permits tenant.id)
    (identifiers : ∀ byte ∈ rules.scope.database, byte.isIdentifier = true)
    (unnamed : rules.scope.database ≠ [] →
      upper rules.scope.database ∉ rules.policy.openings.map upper)
    (closed : Closed (start received.sanitize))
    (allowed : rules.policy.rejection? received.sanitize = none)
    (injected : Scope.inject rules.scope (rules.completed tenant)
      (rules.repaired (rules.completed tenant) received received.sanitize) = .ok result) :
    rules.policy.rejection? result.text = none ↔
      breaksOut result.text.trim false (start result.text.trim).code = false ∧
        (∀ pattern ∈ rules.policy.readPatterns, pattern.2.occursIn result.text.trim = false) ∧
        (rules.policy.rowLimitRequired = true →
          0 < Word.count (ascii "LIMIT") result.text.trim ∨
          countsRows result.text.trim = true) := by
  have each (rule : Rule) : Rule.rejection? rules.policy received.sanitize.trim rule = none := by
    rw [rejection?_eq_findSome?, List.findSome?_eq_none_iff] at allowed
    exact allowed rule (by cases rule <;> decide)
  have nonempty : received.sanitize ≠ [] := fun empty => by
    have content := each .content
    rw [empty] at content
    cases content
  have opens : Item.opening received.sanitize.items ∈ rules.policy.openings.map upper := by
    rw [← openingWord_trim closed]
    simpa [Rule.rejection?] using each .opening
  have descends := descends_of_inject
    (columns.imp fun _ plain => plain.name) permits.name identifiers
    (fun given same => unnamed given (same ▸ opens)) closed nonempty injected
  exact rejection?_eq_none_iff_of_kept (descends.rejection?_eq_none lexical columns.completed
    (rules.id_completed tenant ▸ permits) each)

/-- A statement whose condition is moved and gets a scope predicate is allowed again. -/
theorem allowed_again_moved :
    let rules : Rules := {}
    let tenant : Tenant := { id := ascii "x" }
    let received := ascii "SELECT a FROM t ORDER BY a WHERE b = 'c' OR d = 2 LIMIT 5"
    let output :=
      ascii "SELECT a FROM t WHERE (b = 'c' OR d = 2) AND tenant_id = 'x' ORDER BY a LIMIT 5;"
    rules.policy.rejection? received.sanitize = none ∧
      Scope.inject rules.scope (rules.completed tenant)
        (rules.repaired (rules.completed tenant) received received.sanitize) =
          .ok ⟨received, output⟩ ∧
      rules.policy.rejection? output = none := by
  intro rules tenant received output
  have allowed : rules.policy.rejection? received.sanitize = none := by decide +kernel
  have injected : Scope.inject rules.scope (rules.completed tenant)
      (rules.repaired (rules.completed tenant) received received.sanitize) =
        .ok ⟨received, output⟩ := by
    decide +kernel
  have again := @allowed_again_iff rules tenant received ⟨received, output⟩ (by decide +kernel)
    (by decide +kernel) (by decide +kernel) (List.forall_mem_nil _) (fun given => absurd rfl given)
    (by decide +kernel) allowed injected
  exact ⟨allowed, injected, again.mpr (by decide +kernel)⟩

/-- Where the condition moves to the front of a query in parentheses, its `UNION` comes to stand
before a `SELECT`. -/
theorem rejected_again_union :
    let rules : Rules := {}
    let tenant : Tenant := { id := ascii "x" }
    let received := ascii "SELECT * FROM t GROUP BY (SELECT 1) WHERE x = ('b' UNION c)"
    let output :=
      ascii "SELECT * FROM t WHERE x = ('b' UNION c) AND tenant_id = 'x' GROUP BY (SELECT 1);"
    let plain (name : Text) : Prop := Scope.IsColumn name ∧ rules.policy.PermitsColumn name ∧
      name ∉ rules.policy.functions ∧
      ∀ pattern ∈ rules.policy.readPatterns, pattern.2.occursIn name = false
    plain tenant.id ∧ EveryColumn plain rules.scope tenant ∧
    rules.policy.rejection? received.sanitize = none ∧
      Scope.inject rules.scope (rules.completed tenant)
        (rules.repaired (rules.completed tenant) received received.sanitize) =
          .ok ⟨received, output⟩ ∧
      rules.policy.rejection? output =
        some (.suspectedInjection
          (ascii "UNION SELECT after terminated statement or literal")) := by
  decide +kernel

end Rules

end TenantScope
