import TenantScope.Proofs.Folding
import TenantScope.Proofs.Tallies
import TenantScope.Proofs.Terminators

/-!
# Repair gains nothing

Where the name of the database is taken off, and where a repair takes pieces out of a text, moves
them or names columns in them, what comes together is read as it was.  So a repaired text has no
native feature more often than it had before, and a scoped one neither.
-/

namespace TenantScope

open Text Site Literal

/-! ## Taking the name of the database off -/

namespace Token

variable {rules : ScopeRules} {tenant : Tenant} {database : Text} {tokens others : List Token}

/-- Behind a name of the database no parenthesis opens at once. -/
theorem opens_of_named
    (begins : (spell tokens).head?.any
      (fun first => first.isIdentifier || TableName.isMark first) = true)
    (previous : Option Token) : Item.opens false (items previous tokens) = false := by
  have visible : ∀ first : Byte, (first.isIdentifier || TableName.isMark first) = true →
      first.isSpace = false ∧ (first == Byte.openParen) = false := by
    decide +kernel
  cases tokens with
  | nil => simp at begins
  | cons token tokens =>
      cases token with
      | byte plain =>
          obtain ⟨space, other⟩ := visible plain (by simpa [bytes] using begins)
          simp [items, item?, space, other]
      | word written => rfl
      | literal mark content => rfl
      | remnant mark content => rfl

theorem Unqualified.opens_eq (less : Unqualified database tokens others) (previous : Option Token) :
    Item.opens false (items previous others) = Item.opens false (items previous tokens) := by
  induction less generalizing previous with
  | nil => rfl
  | kept token less ih => rw [items, items, Item.opens_append, Item.opens_append, ih]
  | joined quote identifier ends less ih => rfl
  | taken named begins less ih => exact opens_of_named begins previous

/-- What is left has no native feature more often. -/
theorem Unqualified.tally_le (less : Unqualified database tokens others) {feature : Feature}
    (native : Native rules tenant feature) (previous : Option Token) :
    Item.tally feature false (items previous others) ≤
      Item.tally feature false (items previous tokens) := by
  induction less generalizing previous with
  | nil => exact le_rfl
  | kept token less ih =>
      rw [items, items, Item.tally_append, Item.tally_append, less.opens_eq]
      exact Nat.add_le_add_left (ih _) _
  | @joined tokens others mark content other quote identifier ends less ih =>
      have later := ih (some (literal mark content))
      have plain (previous : Option Token) : escapes previous mark = false := by
        simp [escapes, identifier]
      have same : items (some (literal mark (content ++ mark :: other))) others =
          items (some (literal mark other)) others :=
        @items_congr (some (literal mark (content ++ mark :: other))) (some (literal mark other))
          rfl others
      have closes : Item.opens false (items (some (literal mark content)) tokens) = false :=
        (less.opens_eq _).symm
      simp only [items, item?, plain, same, Option.toList_some, List.singleton_append,
        Item.tally_cons, closes]
        at later ⊢
      have one := native.joined_le quote identifier ends other
        (Item.opens false (items (some (literal mark other)) others))
      omega
  | @taken tokens others written named begins less ih =>
      have unquoted : (spell others).head? ≠ some Byte.apostrophe := fun first =>
        TableName.unquoted_of_named _ (by simpa [first] using begins) rfl
      rw [items_of_unquoted unquoted previous (some (byte Byte.dot)), items, items,
        Item.tally_append, Item.tally_append]
      exact (ih _).trans (by omega)

/-- What is left begins with the same word, unless that was the name of the database. -/
theorem Unqualified.opening (less : Unqualified database tokens others) (previous : Option Token) :
    Item.opening (items previous others) = Item.opening (items previous tokens) ∨
      Item.opening (items previous tokens) = upper database := by
  induction less generalizing previous with
  | nil => exact .inl rfl
  | kept token less ih =>
      cases item_eq : item? previous token with
      | none => simpa [items, item_eq] using ih (some token)
      | some item =>
          refine .inl ?_
          simp only [items, item_eq, Option.toList_some, List.singleton_append]
          cases item <;> rfl
  | joined quote identifier ends less ih => exact .inl rfl
  | @taken tokens others written named begins less ih =>
      exact .inr (show upper written = upper database by rw [← upper_lower, named, upper_lower])

/-- What is left ends in the semicolon that the tokens end in, if they do. -/
theorem Unqualified.getLast? (less : Unqualified database tokens others) (previous : Token)
    (ends : tokens.getLast?.getD previous = byte Byte.semicolon) :
    others.getLast?.getD previous = byte Byte.semicolon := by
  induction less generalizing previous with
  | nil => exact ends
  | kept token less ih =>
      rw [List.getLast?_cons, Option.getD_some] at ends ⊢
      exact ih token ends
  | @joined tokens others mark content other quote identifier closes less ih =>
      rw [List.getLast?_cons, Option.getD_some] at ends ⊢
      have later := ih _ ends
      rw [List.getLast?_cons, Option.getD_some] at later
      cases last : others.getLast? with
      | none => simp [last] at later
      | some token => simpa [last] using later
  | @taken tokens others written named begins less ih =>
      rw [List.getLast?_cons, Option.getD_some, List.getLast?_cons, Option.getD_some] at ends
      have later := ih _ ends
      cases last : others.getLast? with
      | none => simp [last, Byte.dot, Byte.semicolon] at later
      | some token => simpa [last] using later

/-- A text with no open literal ends in a semicolon if its last token is one. -/
theorem ends_spell_iff (lexed : Lexed none tokens) (whole : Whole tokens) :
    (∀ last ∈ (spell tokens).getLast?, last = Byte.semicolon) ↔
      tokens.getLast?.getD (byte Byte.semicolon) = byte Byte.semicolon := by
  rcases List.eq_nil_or_concat tokens with rfl | ⟨front, token, rfl⟩
  · simp
  · rw [List.concat_eq_append] at lexed whole ⊢
    obtain ⟨-, ⟨-, follows⟩, -⟩ := linked_append.mp lexed
    rw [spell_append, spell_cons, spell_nil, List.append_nil, List.getLast?_concat,
      Option.getD_some]
    cases token with
    | byte plain => simp [bytes]
    | word written =>
        obtain ⟨inside, last, rfl⟩ :=
          (List.eq_nil_or_concat written).resolve_left follows.1.nonempty
        have identifier := follows.1.identifiers last (by simp)
        have other : last ≠ Byte.semicolon := fun same => absurd (same ▸ identifier) (by decide)
        rw [bytes, List.concat_eq_append, ← List.append_assoc, List.getLast?_concat]
        simp [other]
    | literal mark content =>
        have ends := getLast?_of_closing? follows.2.2
        obtain ⟨inside, rfl⟩ := List.getLast?_eq_some_iff.mp ends
        have other : mark ≠ Byte.semicolon := fun same => absurd (same ▸ follows.1) (by decide)
        have spelled : (literal mark (inside ++ [mark])).bytes = (mark :: inside) ++ [mark] := rfl
        rw [spelled, ← List.append_assoc, List.getLast?_concat]
        simp [other]
    | remnant mark content =>
        exact absurd (whole (.remnant mark content) (by simp)) (by simp [isRemnant])

end Token

namespace TableName

variable {rules : ScopeRules} {tenant : Tenant}

open Token in
/-- A text is lighter without the names of the database, unless it begins with one. -/
theorem lightened_unqualify {database text : Text}
    (identifiers : ∀ byte ∈ database, byte.isIdentifier = true)
    (other : database ≠ [] → Item.opening text.items ≠ upper database) (whole : Sealed text) :
    Lightened rules tenant text (unqualify database text) := by
  by_cases nonempty : database = []
  · rw [unqualify, if_pos (by simp [nonempty])]
    exact whole.lightened
  · obtain ⟨tokens, others, lexed, rfl, left_lexed, whole_others, left, less⟩ :=
      exists_unqualified ⟨nonempty, identifiers⟩ whole.closed
    have unnamed := other nonempty
    rw [items_spell lexed] at unnamed
    rw [left]
    refine ⟨⟨(closed_start_spell left_lexed).mpr whole_others, ?_⟩, ?_, .inl ?_⟩
    · exact (ends_spell_iff left_lexed whole_others).mpr (less.getLast? _
        ((ends_spell_iff lexed ((closed_start_spell lexed).mp whole.closed)).mp whole.ends))
    · rw [items_spell left_lexed, items_spell lexed]
      exact fun feature native => less.tally_le native none
    · rw [items_spell left_lexed, items_spell lexed]
      exact (less.opening none).resolve_right unnamed

end TableName

namespace Repair

variable {rules : ScopeRules} {tenant : Tenant}

/-! ## Cutting conditions -/

theorem lightened_cutConditionOf {statement : Statement} (whole : Sealed statement.text)
    (kind : Clause) :
    Lightened rules tenant statement.text (cutConditionOf statement kind).text := by
  rcases exists_cutConditionOf statement kind with
    ⟨-, kept⟩ | ⟨offset, before, inside, after, region,
      ⟨kept, -⟩ | ⟨front, found, back, inside_eq, -, -, cut⟩⟩
  · rw [kept]
    exact whole.lightened
  · rw [kept]
    exact whole.lightened
  · have member : found ∈ inside := by simp [inside_eq]
    rw [cut]
    have own : (⟨.clause kind, offset⟩ : SignAt) ∈ (start statement.text).signs := by
      simp [region.signs_eq]
    exact whole.without region.ends (by simp [region.signs_eq, member]) own
      (region.offset_lt (List.mem_append_left _ member)) (region.lt_stopBefore member).le

theorem lightened_cutTrailingConditions {statement : Statement} (whole : Sealed statement.text) :
    Lightened rules tenant statement.text (cutTrailingConditions statement).text := by
  rw [cutTrailingConditions]
  generalize conditionless = kinds
  induction kinds generalizing statement with
  | nil => exact whole.lightened
  | cons kind kinds ih =>
      have first : Lightened rules tenant statement.text (cutConditionOf statement kind).text :=
        lightened_cutConditionOf whole kind
      exact first.trans (ih first.toSealed)

end Repair

/-! ## Moving a condition -/

namespace Scope

/-- Through the first `WHERE` a text holds what it holds before that, and the `WHERE`. -/
theorem Layout.holds_head {text before after head lead condition trail : Text} {filter : Nat}
    (layout : Layout before filter head lead condition trail) (split : text = before ++ after)
    (found : (Outline.ofText text).find? .filter = some filter) :
    Holds head (items (text.take filter) ++ [.word (ascii "WHERE")]) := by
  obtain ⟨_, _, _, region⟩ := exists_region found
  have halt := (halt_of_mem_signs (region.signs_eq ▸ List.mem_append_right _ List.mem_cons_self)).1
  obtain ⟨front, written, head_eq, length_eq, spoken_eq⟩ := layout.filter_word
  have front_eq : text.take filter = front := by
    rw [split, layout.split, head_eq, ← length_eq]
    simp
  have name : IsName written :=
    ⟨fun empty => by simp [empty, upper, ascii] at spoken_eq,
      isIdentifier_of_upper_eq (IsName.identifiers (by decide)) spoken_eq⟩
  rw [head_eq, ← spoken_eq]
  rw [front_eq] at halt ⊢
  exact (Holds.of_closed halt.closed).append (Holds.of_word name)
    (Seam.of_word halt.word fun byte first => name.identifiers byte (List.mem_of_head? first))

/-- The text through the condition of its first `WHERE` holds what comes before that, the `WHERE`
and the condition. -/
theorem Layout.holds {text before after head lead condition trail : Text} {filter : Nat}
    (layout : Layout before filter head lead condition trail) (split : text = before ++ after)
    (found : (Outline.ofText text).find? .filter = some filter) (closed : Closed (start before)) :
    Holds (head ++ lead ++ condition)
        (items (text.take filter) ++ [.word (ascii "WHERE")] ++ items condition) ∧
      items before = items (text.take filter) ++ [.word (ascii "WHERE")] ++ items condition := by
  have head_holds := layout.holds_head split found
  have core := layout.closed_core closed
  have holds : Holds (head ++ lead ++ condition)
      (items (text.take filter) ++ [.word (ascii "WHERE")] ++ items condition) :=
    ⟨core, by
      rw [items_append layout.closed_lead layout.broken.toSeam,
        items_append_blank layout.closed layout.lead_blank, head_holds.items_eq]⟩
  refine ⟨holds, ?_⟩
  rw [layout.split, ← List.append_assoc, ← List.append_assoc,
    items_append_blank core layout.trail_blank, holds.items_eq]

end Scope

namespace Repair

variable {rules : ScopeRules} {tenant : Tenant}

/-- Where a condition is taken from, the text holds the `WHERE` before it. -/
theorem holds_condition {text : Text} (closed : Closed (start text)) {place stop : Nat}
    (found : (Outline.ofText text).find? .filter = some place) (ends : Ends text stop)
    (visible : Text.trim (Statement.slice text (place + 5) stop) ≠ []) :
    ∃ held, Holds (Text.trim (Statement.slice text (place + 5) stop)) held ∧
      items (text.take stop) = items (text.take place) ++ [.word (ascii "WHERE")] ++ held := by
  rcases exists_layout_condition found ends with empty | ⟨head, lead, trail, layout⟩
  · exact absurd empty visible
  · have before_closed := ends.closed_take closed
    exact ⟨_, Holds.of_closed (layout.closed_condition before_closed),
      (layout.holds (List.take_append_drop stop text).symm found before_closed).2⟩

/-- As a term of a conjunction a condition has no feature that it does not have by itself. -/
theorem exists_conjunct {condition : Text} {held : List Item} (holds : Holds condition held) :
    ∃ term, Holds (conjunct condition) term ∧ ∀ feature, Native rules tenant feature →
      Item.tally feature false term = Item.tally feature false held := by
  rw [conjunct]
  split
  · refine ⟨_, holds.parenthesized, fun feature native => ?_⟩
    have shut : (Byte.closeParen == Byte.openParen) = false := rfl
    simp [Item.tally_append, native.byte Byte.openParen (by decide),
      native.byte Byte.closeParen (by decide), shut]
  · exact ⟨held, holds, fun _ _ => rfl⟩

section Misplaced

variable {statement : Statement} {place : Nat} {before inside after : List SignAt} {tail : SignAt}
  {others : List SignAt} (region : Region statement.text .filter place before inside after)
  (first : Sign.newcomers SignAt.clause? [] before = tail :: others) (whole : Sealed statement.text)

include region first whole

/-- Without the region of a misplaced `WHERE`, a text holds from the first clause on what came
between them and what comes behind the region. -/
theorem exists_items_withoutRegion :
    ∃ between,
      items (statement.text.take place) = items (statement.text.take tail.offset) ++ between ∧
      Holds ((withoutRegion statement.text place after).drop tail.offset)
        (between ++ items (statement.text.drop (stopBefore statement.text after))) ∧
      Item.opens false
        (between ++ items (statement.text.drop (stopBefore statement.text after))) = false ∧
      (∀ front, ∀ last ∈
        (front ++ (withoutRegion statement.text place after).drop tail.offset).getLast?,
        last = Byte.semicolon) ∧
      tail.offset < place := by
  have signs_eq := region.signs_eq
  have own : (⟨.clause .filter, place⟩ : SignAt) ∈ (start statement.text).signs :=
    signs_eq ▸ List.mem_append_right _ List.mem_cons_self
  have tail_mem : tail ∈ before := (Sign.newcomers_sublist _ _).subset (first ▸ List.mem_cons_self)
  have tail_lt : tail.offset < place :=
    (List.pairwise_append.mp (signs_eq ▸ pairwise_signs statement.text)).2.2 tail tail_mem _
      List.mem_cons_self
  obtain ⟨between, between_eq⟩ := exists_items_take (signs_eq ▸ List.mem_append_left _ tail_mem)
    tail_lt.le
  have behind := Ends.sign (signs_withoutRegion region ▸ List.mem_append_left _ tail_mem)
  have halt := (halt_of_mem_signs own).1
  have seam := (halt.parted region.ends.onset).toSeam
  have closed : Closed (start (withoutRegion statement.text place after)) :=
    (closed_start_append halt.closed seam).mpr (region.ends.closed_drop whole.closed)
  have within : tail.offset ≤ (statement.text.take place).length := by
    have bounded := (halt_of_mem_signs own).2.2
    dsimp only at bounded
    rw [List.length_take]
    omega
  have kept : (withoutRegion statement.text place after).take tail.offset =
      statement.text.take tail.offset := by
    rw [withoutRegion, List.take_append_of_le_length within, List.take_take,
      Nat.min_eq_left tail_lt.le]
  have split := behind.items_eq closed
  rw [kept, withoutRegion, items_append halt.closed seam, between_eq, List.append_assoc] at split
  have rest_eq := List.append_cancel_left split
  have onset := opens_of_onset behind.onset
  rw [withoutRegion, ← rest_eq] at onset
  refine ⟨between, between_eq, ⟨behind.closed_drop closed, rest_eq.symm⟩, onset, fun front => ?_,
    tail_lt⟩
  rw [withoutRegion, List.drop_append_of_le_length within, ← List.append_assoc]
  exact whole.ends_append region.ends own _

/-- A text is lighter when the condition of a misplaced `WHERE` is moved to the front
of the first clause. -/
theorem lightened_of_misplaced :
    Lightened rules tenant statement.text (relocateFilter statement).text := by
  obtain ⟨between, between_eq, rest_holds, onset, last, tail_lt⟩ :=
    exists_items_withoutRegion region first whole
  have signs_eq := region.signs_eq
  have tail_mem : tail ∈ (start statement.text).signs := signs_eq ▸ List.mem_append_left _
    ((Sign.newcomers_sublist _ _).subset (first ▸ List.mem_cons_self))
  have halt := (halt_of_mem_signs tail_mem).1
  rw [relocateFilter_of_misplaced region first, Statement.withText]
  split
  · exact whole.without region.ends (signs_eq ▸ List.mem_append_right _ List.mem_cons_self) tail_mem
      tail_lt region.lt_end.le
  · rename_i visible
    obtain ⟨held, condition_holds, condition_eq⟩ := holds_condition whole.closed region.find?_eq
      region.ends (by simpa using visible)
    obtain ⟨term, term_holds, term_eq⟩ := @exists_conjunct rules tenant _ _ condition_holds
    have front := ((Holds.of_closed halt.closed).trimRight.append_keyword
      (show IsName (ascii "WHERE") by decide)).append_after_blank term_holds
    have spaced :=
      front.append_blank (List.forall_mem_singleton.mpr (rfl : Byte.blank.isSpace = true))
    have result := spaced.append rest_holds (by
        rw [List.reverse_append]
        exact Seam.of_plain_last (by decide) (by decide) _ _)
    have behind := opens_of_onset region.ends.onset
    have introduction : ascii " WHERE " = Byte.blank :: ascii "WHERE" ++ [Byte.blank] := rfl
    have upper_eq : upper (ascii "WHERE") = ascii "WHERE" := by decide
    rw [introduction]
    refine ⟨⟨result.closed, last _⟩, fun feature native => ?_, ?_⟩
    · rw [result.items_eq, region.ends.items_eq whole.closed, condition_eq, between_eq, upper_eq]
      simp only [Item.tally_append, Item.tally_cons, Item.tally_nil, Item.opens_word, native.filter,
        onset, behind, term_eq feature native]
      have fewer := Item.tally_mono native.grows (Item.opens false between)
        (items (statement.text.take tail.offset))
      omega
    · rw [result.items_eq, region.ends.items_eq whole.closed, condition_eq, between_eq, upper_eq]
      simp only [List.append_assoc]
      by_cases blank : items (statement.text.take tail.offset) = []
      · rw [blank]
        exact .inr rfl
      · rw [Item.opening_append blank, Item.opening_append blank]
        exact .inl rfl

end Misplaced

theorem lightened_relocateFilter {statement : Statement} (whole : Sealed statement.text) :
    Lightened rules tenant statement.text (relocateFilter statement).text := by
  by_cases direct : statement.outline.detour = 0
  · rw [relocateFilter_of_detour direct]
    exact whole.lightened
  · obtain ⟨place, before, inside, after, tail, others, region, first⟩ := exists_misplaced direct
    exact lightened_of_misplaced region first whole

end Repair

/-! ## Settling white space -/

namespace Token

/-- After white space the first token is the item that it is at the beginning of a text. -/
theorem items_of_gap {gap : Token} (is_gap : gap.isGap = true) (tokens : List Token) :
    items (some gap) tokens = items none tokens := by
  obtain ⟨plain, rfl, -⟩ := exists_of_isGap is_gap
  exact @items_congr (some (byte plain)) none rfl tokens

/-- Where white space is settled, the items stay. -/
theorem items_respace (previous : Option Token) (tokens : List Token) :
    items previous (respace false tokens) = items previous tokens ∧
      items previous (respace true tokens) = items none tokens := by
  have items_gap {gap : Token} (is_gap : gap.isGap = true) (previous : Option Token)
      (tokens : List Token) :
      items previous (gap :: tokens) = items none tokens := by
    obtain ⟨plain, rfl, space⟩ := exists_of_isGap is_gap
    rw [items, item?, if_pos space, items_of_gap is_gap]
    rfl
  induction tokens generalizing previous with
  | nil => exact ⟨rfl, rfl⟩
  | cons token tokens ih =>
      cases gap : token.isGap with
      | true =>
          rw [respace_of_gap _ gap, respace_of_gap _ gap, items_gap gap, items_gap gap]
          exact ⟨(ih previous).2, (ih previous).2⟩
      | false =>
          rw [respace_of_visible _ gap, respace_of_visible _ gap, if_neg Bool.false_ne_true,
            if_pos rfl, List.nil_append, List.singleton_append,
            items_gap (rfl : (byte Byte.blank).isGap = true), items, items, items, (ih _).1]
          exact ⟨rfl, rfl⟩

theorem items_squeeze (tokens : List Token) : items none (squeeze tokens) = items none tokens := by
  rw [squeeze, (items_respace none _).1]
  induction tokens with
  | nil => rfl
  | cons token tokens ih =>
      cases gap : token.isGap with
      | true =>
          obtain ⟨plain, rfl, space⟩ := exists_of_isGap gap
          rw [List.dropWhile_cons_of_pos gap, ih, items, item?, if_pos space, items_of_gap gap]
          rfl
      | false => rw [List.dropWhile_cons_of_neg (by simp [gap])]

/-- Trailers hold semicolons at most. -/
theorem exists_items_of_trailers {tokens : List Token}
    (trailers : ∀ token ∈ tokens, token.isTrailer = true) (previous : Option Token) :
    ∃ count, items previous tokens = List.replicate count (.byte Byte.semicolon) := by
  induction tokens generalizing previous with
  | nil => exact ⟨0, rfl⟩
  | cons token tokens ih =>
      obtain ⟨trailer, trailers⟩ := List.forall_mem_cons.mp trailers
      obtain ⟨count, items_eq⟩ := ih trailers (some token)
      cases token with
      | byte plain =>
          rw [items, items_eq, item?]
          cases space : plain.isSpace with
          | true => exact ⟨count, rfl⟩
          | false =>
              obtain rfl : plain = Byte.semicolon := by
                simpa [isTrailer, trails, space] using trailer
              exact ⟨count + 1, rfl⟩
      | word written => simp [isTrailer] at trailer
      | literal mark content => simp [isTrailer] at trailer
      | remnant mark content => simp [isTrailer] at trailer

/-- What is no trailer is an item other than a semicolon. -/
theorem exists_item_of_visible {token : Token} (visible : token.isTrailer = false)
    (previous : Option Token) :
    ∃ item, item? previous token = some item ∧ item ≠ .byte Byte.semicolon := by
  cases token with
  | byte plain =>
      have plain_eq : plain ≠ Byte.semicolon ∧ plain.isSpace = false := by
        simpa [isTrailer, trails] using visible
      exact ⟨.byte plain, by simp [item?, plain_eq.2], by simpa using plain_eq.1⟩
  | word written => exact ⟨_, rfl, by simp⟩
  | literal mark content => exact ⟨_, rfl, by simp⟩
  | remnant mark content => exact ⟨_, rfl, by simp⟩

end Token

namespace Repair

variable {rules : ScopeRules} {tenant : Tenant}

open Token

theorem items_of_sealed {text : Text} (whole : Sealed text) :
    text = [] ∨ ∃ held, items text = held ++ [.byte Byte.semicolon] := by
  refine (List.eq_nil_or_concat text).imp_right ?_
  rintro ⟨front, last, rfl⟩
  obtain rfl := whole.ends last (by simp)
  have closed := whole.closed
  rw [List.concat_eq_append] at closed ⊢
  have front_closed : Closed (start front) :=
    closed_of_append_plain (List.forall_mem_singleton.mpr (by decide)) closed
  rw [items_append front_closed (Seam.of_plain_head (by decide) (by decide) _ _),
    items_byte (by decide) (by decide)]
  exact ⟨_, rfl⟩

/-- In normal form a sealed text has the semicolons at its end replaced by one. -/
theorem exists_items_normalize {text : Text} (whole : Sealed text) :
    Sealed text.normalize ∧
    ∃ held count, items text = held ++ List.replicate count (.byte Byte.semicolon) ∧
      (held = [] ∧ items text.normalize = [] ∨
        held ≠ [] ∧ 0 < count ∧ items text.normalize = held ++ [.byte Byte.semicolon]) := by
  have lexed := lexed_tokens text
  have closed := (closed_normalize text).mpr whole.closed
  have normalize_eq : text.normalize = spell (normal text.tokens) := by
    conv => lhs; rw [← spell_tokens text, normalize_spell lexed]
  have items_eq : items text = Token.items none (squeeze text.tokens) := (items_squeeze _).symm
  have normal_eq : items text.normalize = Token.items none (normal text.tokens) := by
    rw [normalize_eq, items_spell (lexed_normal lexed)]
  rcases normal_cases text.tokens with
    ⟨nothing, trailers⟩ | ⟨front, last, rest, squeeze_eq, normal_tokens, visible, trailers⟩
  · obtain ⟨count, held_eq⟩ := exists_items_of_trailers trailers none
    refine ⟨⟨closed, by simp [normalize_eq, nothing]⟩, [], count, items_eq.trans held_eq,
      .inl ⟨rfl, ?_⟩⟩
    rw [normal_eq, nothing]
    rfl
  · have whole_normal := (closed_start_spell (lexed_normal lexed)).mp (normalize_eq ▸ closed)
    have finish_eq : finish last = [last, .byte Byte.semicolon] := by
      cases last with
      | remnant mark content =>
          exact absurd
            (whole_normal _ (normal_tokens ▸ List.mem_append_right _ List.mem_cons_self)) (by
            simp [isRemnant])
      | word written => rfl
      | byte plain => rfl
      | literal mark content => rfl
    obtain ⟨item, item_eq, other⟩ := exists_item_of_visible visible (front.getLast?.or none)
    obtain ⟨count, rest_eq⟩ := exists_items_of_trailers trailers (some last)
    have held_eq : items text =
        (Token.items none front ++ [item]) ++ List.replicate count (.byte Byte.semicolon) := by
      rw [items_eq, squeeze_eq, Token.items_append, Token.items, item_eq, rest_eq,
        List.append_assoc]
      rfl
    have some_end : 0 < count := by
      by_contra none_left
      obtain rfl : count = 0 := by omega
      rcases items_of_sealed whole with rfl | ⟨held, ends⟩
      · have nothing : Text.items [] = [] := rfl
        simp [nothing] at held_eq
      · rw [held_eq, List.replicate_zero, List.append_nil] at ends
        exact other (List.append_inj_right' ends rfl |> List.singleton_inj.mp)
    refine ⟨⟨closed, ?_⟩, _, count, held_eq, .inr ⟨by simp, some_end, ?_⟩⟩
    · rw [normalize_eq, normal_tokens, finish_eq]
      simp [bytes]
    · rw [normal_eq, normal_tokens, finish_eq, Token.items_append, Token.items, item_eq,
        List.append_assoc]
      rfl

/-- In normal form a text is no heavier. -/
theorem lightened_normalize {statement : Statement} (whole : Sealed statement.text) :
    Lightened rules tenant statement.text (normalize statement).text := by
  obtain ⟨normal, held, count, items_eq, cases⟩ := exists_items_normalize whole
  have opens_trail : ∀ count, Item.opens false (List.replicate count (.byte Byte.semicolon)) = false
    | 0 => rfl
    | _ + 1 => rfl
  refine ⟨normal, fun feature native => ?_, .inl ?_⟩
  · rw [items_eq, Item.tally_append, opens_trail]
    rcases cases with ⟨rfl, normal_eq⟩ | ⟨-, some_end, normal_eq⟩
    · rw [show items (normalize statement).text = [] from normal_eq]
      exact Nat.zero_le _
    · obtain ⟨count, rfl⟩ : ∃ more, count = more + 1 := ⟨count - 1, by omega⟩
      rw [show items (normalize statement).text = _ from normal_eq, Item.tally_append,
        List.replicate_succ, Item.tally_cons, Item.tally_cons, opens_trail]
      have same : Item.opens false [.byte Byte.semicolon] = false := rfl
      rw [same, Item.tally_nil, Item.opens]
      omega
  · rcases cases with ⟨rfl, normal_eq⟩ | ⟨nonempty, -, normal_eq⟩
    · rw [show items (normalize statement).text = [] from normal_eq, items_eq]
      cases count <;> rfl
    · rw [show items (normalize statement).text = _ from normal_eq, items_eq,
        Item.opening_append nonempty, Item.opening_append nonempty]

end Repair

/-! ## Naming columns -/

namespace Token

section Rename

variable {column replacement : Text}

theorem opens_rename (follows : Bool) (previous : Option Token) (next : Bool)
    (tokens : List Token) :
    Item.opens next (items previous (rename column replacement follows tokens)) =
      Item.opens next (items previous tokens) := by
  induction tokens generalizing follows previous with
  | nil => rfl
  | cons token tokens ih =>
      cases token with
      | byte plain =>
          rw [rename, items, items, item?]
          cases plain.isSpace with
          | true => exact ih _ _
          | false => rfl
      | word written => rfl
      | literal mark content => rfl
      | remnant mark content => rfl

/-- No parenthesis opens where an equals sign comes next. -/
theorem opens_of_comparedNext {tokens : List Token} (compared : comparedNext tokens = true)
    (previous : Option Token) (next : Bool) : Item.opens next (items previous tokens) = false := by
  induction tokens generalizing previous with
  | nil => simp [comparedNext] at compared
  | cons token tokens ih =>
      cases token with
      | byte plain =>
          rw [comparedNext] at compared
          rw [items, item?]
          cases space : plain.isSpace with
          | true => exact ih (by simpa [space] using compared) _
          | false =>
              obtain rfl : plain = Byte.equals := by simpa [space] using compared
              rfl
      | word written => rfl
      | literal mark content => rfl
      | remnant mark content => rfl

/-- No literal begins where an equals sign comes next. -/
theorem items_of_comparedNext {tokens : List Token} (compared : comparedNext tokens = true)
    (previous other : Option Token) : items previous tokens = items other tokens := by
  cases tokens with
  | nil => rfl
  | cons token tokens =>
      cases token with
      | byte plain => rfl
      | word written => rfl
      | literal mark content => simp [comparedNext] at compared
      | remnant mark content => simp [comparedNext] at compared

/-- Columns that are replaced gain no feature that the replacement does not have before a
comparison. -/
theorem tally_rename {feature : Feature}
    (foreign : feature (.word (upper replacement)) false = false) (follows : Bool)
    (previous : Option Token) (next : Bool) (tokens : List Token) :
    Item.tally feature next (items previous (rename column replacement follows tokens)) ≤
      Item.tally feature next (items previous tokens) := by
  induction tokens generalizing follows previous with
  | nil => exact le_rfl
  | cons token tokens ih =>
      have kept (follows : Bool) :
          Item.tally feature next
              (items previous (token :: rename column replacement follows tokens)) ≤
            Item.tally feature next (items previous (token :: tokens)) := by
        rw [items, items, Item.tally_append, Item.tally_append, opens_rename]
        exact Nat.add_le_add_left (ih _ _) _
      cases token with
      | byte plain => exact kept _
      | literal mark content => exact kept _
      | remnant mark content => exact kept _
      | word written =>
          rw [rename]
          rcases renamed_cases column replacement follows written tokens with
            same | ⟨⟨-, -, compared⟩, replaced⟩
          · rw [same]
            exact kept _
          · have opens_eq := opens_of_comparedNext compared (some (word replacement)) next
            rw [replaced, items, items, item?, item?, Option.toList_some, Option.toList_some,
              List.singleton_append, List.singleton_append, Item.tally_cons, Item.tally_cons,
              opens_rename, opens_eq, foreign,
              items_of_comparedNext compared (some (word written)) (some (word replacement))]
            exact Nat.add_le_add (Nat.zero_le _) (ih _ _)

end Rename

/-- No condition begins where nothing but white space has come before. -/
theorem introduced_of_blank {back : Text} (blank : ∀ byte ∈ back, byte.isSpace = true) :
    introduced back = false := by
  rw [introduced, List.dropWhile_eq_nil_iff.mpr blank]
  decide

end Token

namespace Repair

variable {rules : ScopeRules} {tenant : Tenant}

open Token

/-- Naming columns makes a text no heavier. -/
theorem lightened_aliasColumn (columns : EveryColumn IsName rules tenant) {statement : Statement}
    (whole : Sealed statement.text) :
    Lightened rules tenant statement.text (aliasColumn rules tenant statement).text := by
  rcases aliasColumn_cases rules tenant statement.text with kept | ⟨place, found, renames⟩
  · rw [kept statement rfl]
    exact whole.lightened
  · obtain ⟨before, inside, after, region⟩ := exists_region found
    obtain ⟨front, tokens, back, parts⟩ := region.exists_parts
    obtain ⟨written, rest, rfl, -⟩ := region.exists_where parts
    obtain ⟨copied, copied_eq, -, renamed_eq⟩ := parts.exists_renameColumn
      (rules.columnOf tenant statement.outline.table) columns.defaultColumn.upper rfl
      (region.regionEnd_eq statement rfl)
    have lexed := parts.lexed_rename (rules.defaultColumn tenant).upper
      (columns.columnOf statement.outline.table) (introduced (spell front).reverse)
    obtain ⟨closed, ends⟩ := whole
    rw [renames statement rfl found,
      show rules.columnOf tenant (Outline.ofText statement.text).table =
      rules.columnOf tenant statement.outline.table from rfl, renamed_eq, ← parts.spelled]
    rw [← parts.spelled] at closed ends
    have tokens_whole := (closed_start_spell parts.lexed).mp closed
    obtain rfl : copied = [] := copied_eq.resolve_right fun unclosed =>
      unclosed.1 (List.forall_mem_append.mp (List.forall_mem_append.mp tokens_whole).2).1
    rw [List.append_nil]
    have foreign (feature : Feature) (native : Native rules tenant feature) :=
      native.column.columnOf statement.outline.table
    generalize (rules.defaultColumn tenant).upper = column at lexed ⊢
    generalize rules.columnOf tenant statement.outline.table = replacement at lexed foreign ⊢
    have similar := similar_append (similar_refl front) (similar_append
      (@similar_rename column replacement (introduced (spell front).reverse) (word written :: rest))
      (similar_refl back))
    refine ⟨⟨(closed_start_spell lexed).mpr ((whole_of_similar similar).mpr tokens_whole), ?_⟩,
      fun feature native => ?_, .inl ?_⟩
    · rwa [Statement.withText, getLast?_spell parts.lexed (by
        simp only [List.getLast?_append, getLast?_rename])]
    · rw [Statement.withText, items_spell lexed, items_spell parts.lexed]
      simp only [Token.items_append, getLast?_rename, Item.tally_append, Item.opens_append,
        opens_rename]
      exact Nat.add_le_add_left
        (Nat.add_le_add_right (tally_rename (foreign feature native) _ _ _ _) _) _
    · rw [Statement.withText, items_spell lexed, items_spell parts.lexed,
        Token.items_append none front, Token.items_append none front]
      by_cases blank : Token.items none front = []
      · -- The word that the text begins with is no column that a condition compares.
        have spaces := isSpace_of_items_eq_nil
          ((items_spell (linked_append.mp parts.lexed).1).trans blank)
        rw [blank, introduced_of_blank (by simpa using spaces), rename, renamed]
        rfl
      · rw [Item.opening_append blank, Item.opening_append blank]

/-! ## Passes -/

/-- A pass of all repairs makes a text no heavier. -/
theorem lightened_pass (columns : EveryColumn IsName rules tenant) {statement : Statement}
    (whole : Sealed statement.text) :
    Lightened rules tenant statement.text (pass rules tenant statement).text := by
  have cut : Lightened rules tenant statement.text (cutTrailingConditions statement).text :=
    lightened_cutTrailingConditions whole
  have moved := cut.trans (lightened_relocateFilter cut.toSealed)
  have normal := moved.trans (lightened_normalize moved.toSealed)
  exact normal.trans (lightened_aliasColumn columns normal.toSealed)

/-- So does any number of passes. -/
theorem lightened_iterate_pass (columns : EveryColumn IsName rules tenant) {statement : Statement}
    (whole : Sealed statement.text) (passes : Nat) :
    Lightened rules tenant statement.text ((pass rules tenant)^[passes] statement).text := by
  induction passes with
  | zero => exact whole.lightened
  | succ passes ih =>
      rw [Function.iterate_succ_apply']
      exact ih.trans (lightened_pass columns ih.toSealed)

end Repair

/-! ## Scoping -/

namespace Scope

variable {rules : ScopeRules} {tenant : Tenant} {column id : Text}

/-- What a predicate holds. -/
def comparisonItems (column id : Text) : List Item :=
  [.word (upper column), .byte Byte.equals,
    .literal Byte.apostrophe (id ++ [Byte.apostrophe]) false]

open Token in
theorem holds_predicate (name : IsName column) (unquoted : ∀ byte ∈ id, byte.isQuote = false) :
    Holds (predicate column id) (comparisonItems column id) := by
  obtain ⟨lexed, spelled⟩ := tokens_quoted unquoted
  have literal_holds :
      Holds (quoted id) [.literal Byte.apostrophe (id ++ [Byte.apostrophe]) false] := by
    rw [← spelled]
    exact ⟨(closed_start_spell lexed).mpr (by simp [Whole, isRemnant]), items_spell lexed⟩
  have equals_holds : Holds (ascii " = ") [.byte Byte.equals] :=
    ⟨by decide, by decide⟩
  rw [predicate_eq, comparison]
  exact ((Holds.of_word name).append equals_holds
    (Seam.of_plain_head (by decide) (by decide) _ _)).append
    literal_holds (by
      rw [List.reverse_append]
      exact Seam.of_plain_last (by decide) (by decide) _ _)

/-- What comes before a slot holds no more than what came before it, but for the words that
introduce the predicate. -/
structure Introduced (rules : ScopeRules) (tenant : Tenant) (before lead : Text)
    (held : List Item) : Prop
    extends Holds lead held where
  tally_le : ∀ feature, Native rules tenant feature →
    Item.tally feature false held ≤ Item.tally feature false (items before)
  opening : Item.opening held = Item.opening (items before)
  nonempty : held ≠ []

theorem introduced_newConditionSlot {before : Text} (closed : Closed (start before))
    (nonempty : items before ≠ []) (after : Text) :
    Introduced rules tenant before (newConditionSlot (before ++ after) before.length).before
      (items before ++ [.word (ascii "WHERE")]) := by
  rw [newConditionSlot_eq]
  refine ⟨(Holds.of_closed closed).trimRight.append_keyword (show IsName (ascii "WHERE") by decide),
    fun feature native => ?_, Item.opening_append nonempty _, by simp⟩
  simp [Item.tally_append, native.filter]

section Chosen

variable {text before after : Text} {source : Source} {slot : Slot}
  (division : Division text source before after)

include division

theorem introduced_conditionSlot {filter : Nat}
    (found : (Outline.ofText text).find? .filter = some filter) (inside : filter < before.length)
    (hasOr : Bool) :
    ∃ held, Introduced rules tenant before
      (conditionSlot (before ++ after) (filter + 5) before.length hasOr).before held := by
  have parting := division.parting
  obtain ⟨head, lead, condition, trail, filtered⟩ :=
    exists_filtered division.opening parting found inside
  have layout := filtered.toLayout
  have head_holds := layout.holds_head parting.split found
  obtain ⟨core_holds, before_eq⟩ := layout.holds parting.split found parting.closed
  by_cases nothing : condition = []
  · subst nothing
    rw [conditionSlot_blank layout]
    rw [show items [] = [] from rfl, List.append_nil] at before_eq
    exact ⟨_, head_holds.append_blank (List.forall_mem_singleton.mpr rfl),
      fun _ _ => before_eq ▸ le_rfl, before_eq ▸ rfl, by simp⟩
  · rw [conditionSlot_visible layout nothing, leading, if_neg nothing]
    have introduction_ne : items (text.take filter) ++ [.word (ascii "WHERE")] ≠ [] := by simp
    have opening_eq (others : List Item) :
        Item.opening (items (text.take filter) ++ [.word (ascii "WHERE")] ++ others) =
          Item.opening (items before) := by
      rw [before_eq, Item.opening_append introduction_ne, Item.opening_append introduction_ne]
    have name : IsName (ascii "AND") := by decide
    have upper_eq : upper (ascii "AND") = ascii "AND" := by decide
    cases hasOr with
    | false =>
        have holds := core_holds.append_keyword name
        rw [List.append_assoc _ (items condition)] at holds
        rw [if_neg Bool.false_ne_true, ← List.append_assoc]
        refine ⟨_, holds, fun feature native => ?_, opening_eq _, by simp⟩
        rw [before_eq]
        simp [Item.tally_append, native.filter, native.conjunction, upper_eq]
    | true =>
        have split : [Byte.openParen] ++ condition ++ ascii ") AND " =
            ([Byte.openParen] ++ condition ++ [Byte.closeParen]) ++
              (Byte.blank :: ascii "AND" ++ [Byte.blank]) := by
          rw [List.append_assoc _ [Byte.closeParen]]
          rfl
        have condition_holds :=
          (Holds.of_closed (layout.closed_condition parting.closed)).parenthesized
        have holds := ((head_holds.append_blank layout.lead_blank).append condition_holds
          (Seam.of_plain_head (by decide) (by decide) _ _)).append_keyword name
        rw [List.append_assoc _ (_ :: _)] at holds
        rw [if_pos rfl, split, ← List.append_assoc]
        refine ⟨_, holds, fun feature native => ?_, opening_eq _, by simp⟩
        have shut : (Byte.closeParen == Byte.openParen) = false := rfl
        rw [before_eq]
        simp [Item.tally_append, native.filter, native.conjunction,
          native.byte Byte.openParen (by decide), native.byte Byte.closeParen (by decide),
          upper_eq, shut]

/-- Something comes before a condition. -/
theorem Division.items_ne_nil : items before ≠ [] := by
  obtain ⟨mark, found, -⟩ := Option.map_eq_some_iff.mp division.opening.source_eq
  exact items_ne_nil_of_word (head?_drop_of_mem_marks (List.mem_of_find?_eq_some found))

/-- A filled slot holds what the text did, with a predicate between. -/
theorem exists_items_fill (name : IsName column) (valid : IsTenantId id)
    (closed : Closed (start text))
    (chosen : slot? text column (Outline.ofText text) source = .ok (some slot)) :
    ∃ held, Introduced rules tenant before slot.before held ∧
      items text = items before ++ items after ∧
      Holds (slot.fill (predicate column id))
        (held ++ comparisonItems column id ++ items after) := by
  have parting := division.parting
  have seam := parting.broken.toSeam
  have after_closed : Closed (start after) := by
    rwa [parting.split, closed_start_append parting.closed seam] at closed
  have introduced : ∃ held, Introduced rules tenant before slot.before held := by
    rcases division.slot_cases chosen with rfl | ⟨filter, hasOr, filter_eq, inside, rfl⟩
    · exact ⟨_, introduced_newConditionSlot parting.closed division.items_ne_nil after⟩
    · exact introduced_conditionSlot division filter_eq inside hasOr
  obtain ⟨held, introduced⟩ := introduced
  obtain ⟨filter, fitting, -⟩ := division.fitting chosen
  obtain ⟨trail, blank, -, text_eq⟩ := fitting.fill_eq column id
  have broken := (fitting.closed_before name valid parting.ending blank).2
  refine ⟨held, introduced, by rw [parting.split, items_append parting.closed seam], ?_⟩
  rw [text_eq]
  exact ((introduced.toHolds.append (holds_predicate name valid.unquoted)
    (break_before_predicate fitting.joint column id).toSeam).append_blank blank).append
      (Holds.of_closed after_closed) broken.toSeam

end Chosen

/-- A scoped statement is no heavier, and it begins as it did. -/
theorem lighter_inject {statement result : Statement} (columns : EveryColumn IsName rules tenant)
    (unquoted : ∀ byte ∈ tenant.id, byte.isQuote = false) (closed : Closed (start statement.text))
    (injected : inject rules tenant statement = .ok result) :
    Closed (start result.text) ∧ Lighter rules tenant (items statement.text) (items result.text) ∧
      Item.opening (items result.text) = Item.opening (items statement.text) := by
  obtain ⟨source, source_found, outcome⟩ := inject_cases injected
  obtain ⟨before, after, division⟩ := exists_division closed source_found
  rcases outcome with ⟨rfl, -⟩ | ⟨slot, chosen, rfl, -⟩
  · exact ⟨closed, .refl _, rfl⟩
  · have valid : IsTenantId tenant.id := ⟨(sourceOf_eq_ok source_found).1, unquoted⟩
    have name := columns.columnOf statement.outline.table
    obtain ⟨held, introduced, items_eq, holds⟩ := @exists_items_fill rules tenant _ _ _ _ _ _ _
      division name valid closed chosen
    have opening_eq :
        Item.opening (held ++ comparisonItems (rules.columnOf tenant statement.outline.table)
        tenant.id ++ items after) = Item.opening (items statement.text) := by
      rw [items_eq, List.append_assoc, Item.opening_append introduced.nonempty,
        Item.opening_append division.items_ne_nil, introduced.opening]
    rw [Statement.withText, holds.items_eq]
    refine ⟨holds.closed, ⟨fun feature native => ?_, .inl opening_eq⟩, opening_eq⟩
    have fewer := introduced.tally_le feature native
    have before_le := Item.tally_mono native.grows (Item.opens false (items after)) (items before)
    have column_eq := native.column.columnOf statement.outline.table
    have equals_eq : (Byte.equals == Byte.openParen) = false := rfl
    rw [items_eq]
    simp only [comparisonItems, Item.tally_append, Item.tally_cons, Item.tally_nil, Item.opens_word,
      Item.opens_byte, equals_eq, native.byte Byte.equals (by decide), native.value, column_eq,
      Bool.toNat_false]
    omega

end Scope

end TenantScope
