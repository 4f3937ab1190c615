import TenantScope.Proofs.Items

/-!
# What a text does not gain

A feature is looked for among the items of a text, as a forbidden word or the call of a function is.
Texts that repair and scoping make of another one have no feature more often than that one, if none
of the words put in has it.  This file says so of taking a piece out.
-/

namespace TenantScope

open Text Site Literal

/-- What is looked for among items: whether an item counts, where a parenthesis opens next or
not. -/
abbrev Feature := Item → (called : Bool) → Bool

namespace Item

/-! ## Tallies -/

/-- A parenthesis opens at the head of items, or `next` tells whether it does if there are none. -/
def opens (next : Bool) : List Item → Bool
  | [] => next
  | item :: _ => item == .byte Byte.openParen

/-- How many items have a feature, where `next` tells whether a parenthesis opens after them. -/
def tally (feature : Feature) (next : Bool) : List Item → Nat
  | [] => 0
  | item :: items => (feature item (opens next items)).toNat + tally feature next items

section Tally

variable {feature : Feature} {next : Bool}

@[simp]
theorem tally_nil : tally feature next [] = 0 :=
  rfl

@[simp]
theorem tally_cons (item : Item) (items : List Item) :
    tally feature next (item :: items) = (feature item (opens next items)).toNat +
      tally feature next items :=
  rfl

@[simp]
theorem opens_nil : opens next [] = next :=
  rfl

@[simp]
theorem opens_word (spoken : Text) (items : List Item) :
    opens next (word spoken :: items) = false :=
  rfl

@[simp]
theorem opens_byte (plain : Byte) (items : List Item) :
    opens next (byte plain :: items) = (plain == Byte.openParen) := by
  rw [Bool.eq_iff_iff, opens, beq_iff_eq, beq_iff_eq, byte.injEq]

theorem opens_append (items others : List Item) :
    opens next (items ++ others) = opens (opens next others) items := by
  cases items <;> rfl

theorem tally_append (items others : List Item) :
    tally feature next (items ++ others) =
      tally feature (opens next others) items + tally feature next others := by
  induction items with
  | nil => simp
  | cons item items ih =>
      rw [List.cons_append, tally_cons, tally_cons, opens_append, ih, Nat.add_assoc]

theorem tally_cons_pos {item : Item} {items : List Item} :
    0 < tally feature next (item :: items) ↔
      feature item (opens next items) = true ∨ 0 < tally feature next items := by
  rw [tally_cons]
  cases feature item (opens next items) with
  | false => simp
  | true => exact iff_of_true (by rw [Bool.toNat_true]; omega) (.inl rfl)

/-- A feature that is found for items is found in one of them. -/
theorem tally_pos_iff {items : List Item} :
    0 < tally feature next items ↔
      ∃ front item back, items = front ++ item :: back ∧ feature item (opens next back) = true := by
  constructor
  · intro found
    induction items with
    | nil => simp at found
    | cons item items ih =>
        cases here : feature item (opens next items) with
        | true => exact ⟨[], item, items, rfl, here⟩
        | false =>
            obtain ⟨front, other, back, rfl, has⟩ := ih (by simpa [here] using found)
            exact ⟨item :: front, other, back, rfl, has⟩
  · rintro ⟨front, item, back, rfl, has⟩
    rw [tally_append, tally_cons, has, Bool.toNat_true]
    omega

/-- A feature that a parenthesis after an item does not take away is found no
less often before one. -/
theorem tally_mono (grows : ∀ item, feature item false = true → feature item true = true)
    (next : Bool) (items : List Item) : tally feature false items ≤ tally feature next items := by
  induction items with
  | nil => exact le_rfl
  | cons item items ih =>
      refine Nat.add_le_add ?_ ih
      cases items with
      | cons other items => exact le_rfl
      | nil =>
          cases next with
          | false => exact le_rfl
          | true =>
              rw [opens, opens]
              cases alone : feature item false with
              | false => exact Nat.zero_le _
              | true => rw [grows item alone]

end Tally

/-- The word that items begin with, empty if they begin with none. -/
def opening : List Item → Text
  | word spoken :: _ => spoken
  | _ => []

theorem opening_append {items : List Item} (nonempty : items ≠ []) (others : List Item) :
    opening (items ++ others) = opening items := by
  obtain ⟨item, items, rfl⟩ := List.exists_cons_of_ne_nil nonempty
  cases item <;> rfl

end Item

namespace Text

open Item Token

/-- A text that begins with a word begins with an item for it. -/
theorem exists_items_of_word {text : Text} (begins : text.head?.any Byte.isIdentifier = true) :
    ∃ others, text.items = .word (upper (text.takeWhile Byte.isIdentifier)) :: others := by
  have first := takeWhile_spell (lexed_tokens text)
  rw [spell_tokens] at first
  have leads : leading text.tokens ≠ [] := fun nothing => by
    cases text with
    | nil => simp at begins
    | cons byte text => simp_all
  rw [items, first]
  cases tokens_eq : text.tokens with
  | nil => simp [tokens_eq, Token.leading] at leads
  | cons token tokens =>
      cases token with
      | word written => exact ⟨_, rfl⟩
      | byte plain => simp [tokens_eq, Token.leading] at leads
      | literal mark content => simp [tokens_eq, Token.leading] at leads
      | remnant mark content => simp [tokens_eq, Token.leading] at leads

/-- Behind a place where a text may be cut no parenthesis opens at once. -/
theorem opens_of_onset {text : Text} (onset : Onset text) : opens false text.items = false := by
  cases onset with
  | sign signed =>
      obtain ⟨byte, rest, rfl, identifier, -⟩ := exists_of_sign? signed
      obtain ⟨others, items_eq⟩ := @exists_items_of_word (byte :: rest) (by simpa using identifier)
      rw [items_eq]
      rfl
  | trail trails =>
      induction text with
      | nil => rfl
      | cons byte text ih =>
          obtain ⟨trailing, trails⟩ := List.forall_mem_cons.mp trails
          obtain ⟨identifier, quote⟩ := plain_of_trails trailing
          rw [items_cons identifier quote]
          cases space : byte.isSpace with
          | true => exact ih trails
          | false =>
              obtain rfl : byte = Byte.semicolon := by simpa [Token.trails, space] using trailing
              rfl

end Text

/-! ## Features that are not put in -/

/-- A feature that nothing has which is put into a text: no byte but the semicolon, no `WHERE` and
no `AND`, no scope column before a comparison, no value of a predicate, and no quoted identifier
that ran on into another one unless one of the two had it. -/
structure Native (rules : ScopeRules) (tenant : Tenant) (feature : Feature) : Prop where
  grows : ∀ item, feature item false = true → feature item true = true
  byte : ∀ plain, plain ≠ Byte.semicolon → ∀ called, feature (.byte plain) called = false
  filter : ∀ called, feature (.word (ascii "WHERE")) called = false
  conjunction : ∀ called, feature (.word (ascii "AND")) called = false
  column : EveryColumn (fun column => feature (.word (upper column)) false = false) rules tenant
  value : ∀ called,
    feature (.literal Byte.apostrophe (tenant.id ++ [Byte.apostrophe]) false) called = false
  joined : ∀ mark content other called, mark.isQuote = true → mark ≠ Byte.apostrophe →
    content.getLast? = some mark →
    feature (.literal mark (content ++ mark :: other) false) called = true →
      feature (.literal mark content false) false = true ∨
      feature (.literal mark other false) called = true

/-- Where a quoted identifier ran on into another one, the two have a native feature
as often as the one. -/
theorem Native.joined_le {rules : ScopeRules} {tenant : Tenant} {feature : Feature}
    (native : Native rules tenant feature) {mark : Byte} {content : Text}
    (quote : mark.isQuote = true) (identifier : mark ≠ Byte.apostrophe)
    (ends : content.getLast? = some mark) (other : Text) (called : Bool) :
    (feature (.literal mark (content ++ mark :: other) false) called).toNat ≤
      (feature (.literal mark content false) false).toNat +
        (feature (.literal mark other false) called).toNat := by
  cases both : feature (.literal mark (content ++ mark :: other) false) called with
  | false => exact Nat.zero_le _
  | true =>
      rcases native.joined mark content other called quote identifier ends both with first | second
      · exact first ▸ Nat.le_add_right _ _
      · exact second ▸ Nat.le_add_left _ _

/-- Items have no native feature more often than others, and they begin with the same
word or with a `WHERE`. -/
structure Lighter (rules : ScopeRules) (tenant : Tenant) (items result : List Item) : Prop where
  tally_le : ∀ feature, Native rules tenant feature →
    Item.tally feature false result ≤ Item.tally feature false items
  opening : Item.opening result = Item.opening items ∨ Item.opening result = ascii "WHERE"

/-- The literals of a text are closed, and a semicolon ends it unless it is empty. -/
structure Sealed (text : Text) : Prop where
  closed : Closed (start text)
  ends : ∀ last ∈ text.getLast?, last = Byte.semicolon

/-- What has been made of a text is sealed, and its items are lighter. -/
structure Lightened (rules : ScopeRules) (tenant : Tenant) (text result : Text) : Prop extends
    Sealed result where
  lighter : Lighter rules tenant text.items result.items

section Lighter

variable {rules : ScopeRules} {tenant : Tenant}

theorem Lighter.refl (items : List Item) : Lighter rules tenant items items where
  tally_le _ _ := le_rfl
  opening := .inl rfl

theorem Lighter.trans {items middle result : List Item} (first : Lighter rules tenant items middle)
    (second : Lighter rules tenant middle result) : Lighter rules tenant items result where
  tally_le feature native := (second.tally_le feature native).trans (first.tally_le feature native)
  opening := second.opening.elim (fun same => same ▸ first.opening) .inr

theorem Sealed.lightened {text : Text} (whole : Sealed text) :
    Lightened rules tenant text text where
  toSealed := whole
  lighter := .refl _

theorem Lightened.trans {text middle result : Text} (first : Lightened rules tenant text middle)
    (second : Lightened rules tenant middle result) : Lightened rules tenant text result where
  toSealed := second.toSealed
  lighter := first.lighter.trans second.lighter

end Lighter

/-! ## Taking a piece out -/

/-- A text with a word in it is not blank. -/
theorem items_ne_nil_of_word {text : Text} {place : Nat}
    (word : (text.drop place).head?.any Byte.isIdentifier = true) : items text ≠ [] :=
      fun nothing => by
  cases drop_eq : text.drop place with
  | nil => simp [drop_eq] at word
  | cons byte rest =>
      have member : byte ∈ text := List.mem_of_mem_drop (drop_eq ▸ List.mem_cons_self)
      simp [drop_eq,
        Byte.isIdentifier_of_isSpace byte (isSpace_of_items_eq_nil nothing byte member)] at word

/-- What comes before a place and after a sign is not blank. -/
theorem items_take_ne_nil {text : Text} {found : SignAt} (member : found ∈ (start text).signs)
    {place : Nat} (later : found.offset < place) : items (text.take place) ≠ [] := by
  obtain ⟨byte, rest, drop_eq, identifier, -⟩ := exists_of_sign? (halt_of_mem_signs member).2.1
  obtain ⟨length, length_eq⟩ : ∃ length, place - found.offset = length + 1 :=
    ⟨place - found.offset - 1, by omega⟩
  refine @items_ne_nil_of_word _ found.offset ?_
  simpa [List.drop_take, drop_eq, length_eq] using identifier

section Ends

variable {text : Text} {stop : Nat} (ends : Ends text stop)

include ends

/-- Nothing runs on over the end of a region. -/
theorem Ends.seam : Seam (text.take stop).reverse (text.drop stop) := by
  cases ends with
  | sign member => exact ((halt_of_mem_signs member).1.parted (Ends.sign member).onset).toSeam
  | body => exact seam_of_trails (Statement.trails_of_mem_drop text) _

theorem Ends.items_eq (closed : Closed (start text)) :
    items text = items (text.take stop) ++ items (text.drop stop) := by
  conv => lhs; rw [← List.take_append_drop stop text]
  exact items_append (ends.closed_take closed) ends.seam

variable (whole : Sealed text) {found : SignAt} (member : found ∈ (start text).signs)

include whole member

theorem Sealed.lt_length : stop < text.length := by
  cases ends with
  | sign member => exact (halt_of_mem_signs member).2.2
  | body =>
      have nonempty : text ≠ [] := fun empty => by
        have within := (halt_of_mem_signs member).2.2
        simp [empty] at within
      obtain ⟨body, last, rfl⟩ := (List.eq_nil_or_concat text).resolve_left nonempty
      obtain rfl := whole.ends last (by simp)
      rw [List.concat_eq_append, Statement.bodyEnd_semicolon (List.forall_mem_nil _),
        List.length_append]
      exact Nat.lt_succ_self _

/-- What follows a region ends as the text does. -/
theorem Sealed.ends_append (before : Text) :
    ∀ last ∈ (before ++ text.drop stop).getLast?, last = Byte.semicolon := by
  have within := whole.lt_length ends member
  rw [List.getLast?_append_of_ne_nil _ (by simpa using within), List.getLast?_drop,
    if_neg (by omega)]
  exact whole.ends

omit ends whole in
/-- From a sign on a text has items of its own. -/
theorem exists_items_take (fits : found.offset ≤ stop) :
    ∃ inside, items (text.take stop) = items (text.take found.offset) ++ inside := by
  obtain ⟨halt, signed, -⟩ := halt_of_mem_signs member
  obtain ⟨byte, rest, drop_eq, identifier, -⟩ := exists_of_sign? signed
  obtain ⟨length, rfl⟩ := Nat.exists_eq_add_of_le fits
  have seam : Seam (text.take found.offset).reverse ((text.drop found.offset).take length) :=
    Seam.of_word halt.word fun letter first => by
      cases length with
      | zero => simp at first
      | succ length =>
          obtain rfl : byte = letter := by simpa [drop_eq] using first
          exact identifier
  rw [List.take_add, items_append halt.closed seam]
  exact ⟨_, rfl⟩

/-- A text is lighter without the piece from a sign, which is not the first one, to
the end of a region. -/
theorem Sealed.without {rules : ScopeRules} {tenant : Tenant} {first : SignAt}
    (first_member : first ∈ (start text).signs) (later : first.offset < found.offset)
    (fits : found.offset ≤ stop) :
    Lightened rules tenant text (text.take found.offset ++ text.drop stop) := by
  obtain ⟨halt, -, -⟩ := halt_of_mem_signs member
  have seam := (halt.parted ends.onset).toSeam
  have closed := (closed_start_append halt.closed seam).mpr (ends.closed_drop whole.closed)
  have nonempty := items_take_ne_nil first_member later
  obtain ⟨inside, inside_eq⟩ := exists_items_take member fits
  have onset := opens_of_onset ends.onset
  refine ⟨⟨closed, whole.ends_append ends member _⟩, fun feature native => ?_, .inl ?_⟩
  · rw [items_append halt.closed seam, ends.items_eq whole.closed, inside_eq, Item.tally_append,
      Item.tally_append, Item.tally_append, onset]
    have fewer := Item.tally_mono native.grows (Item.opens false inside)
      (items (text.take found.offset))
    omega
  · rw [items_append halt.closed seam, ends.items_eq whole.closed, inside_eq, List.append_assoc,
      Item.opening_append nonempty, Item.opening_append nonempty]

end Ends

end TenantScope
