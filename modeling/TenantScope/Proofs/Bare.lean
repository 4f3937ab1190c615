import TenantScope.Proofs.Converging
import TenantScope.Proofs.Resanitizing
import TenantScope.Proofs.Stages
import TenantScope.Proofs.Tallies

/-!
# Texts without markup

A text is bare when nothing in it is taken for markup: it has no code fences, no comments and no
angle bracket with which a tag could begin.  A bare text in normal form is sanitized already.
Repair takes pieces out of a text and puts others between blanks, so it leaves a bare text bare.
-/

namespace TenantScope

open Text Site Literal

/-! ## Bytes outside literals -/

namespace Token

/-- What is said of the bytes outside literals, and holds of those of words, can be
told from the tokens. -/
theorem forall_code_spell {kind : Byte → Prop}
    (words : ∀ byte, byte.isIdentifier = true → kind byte) {back : Text} {previous : Option Token}
    {tokens : List Token} (after : After back previous) (lexed : Lexed previous tokens) :
    ∀ offset depth,
      (∀ site ∈ code ⟨back, spell tokens, offset, depth⟩, ∀ byte ∈ site.byte?, kind byte) ↔
      ∀ plain, .byte plain ∈ tokens → kind plain := by
  refine token_induction ?nil ?word ?byte ?literal ?remnant after lexed
  case nil =>
    intro back offset depth
    simp [code_nil]
  case word =>
    intro back written tokens name begins ends ih offset depth
    obtain ⟨places, read, identifiers⟩ := exists_code_word name back (spell tokens) offset depth
    have spoken : ∀ site ∈ places, ∀ byte ∈ site.byte?, kind byte := fun site member byte byte_eq =>
      words byte (by simpa [Option.mem_def.mp byte_eq] using identifiers site member)
    rw [spell_cons, bytes, read, List.forall_mem_append, ih]
    simpa using fun _ => spoken
  case byte =>
    intro back plain tokens identifier quote ih offset depth
    rw [spell_cons, bytes, List.singleton_append, code_cons _ _ _ _ quote, List.forall_mem_cons, ih]
    simp [byte?]
  case literal =>
    intro back mark content tokens quote closed ih offset depth
    rw [spell_cons, bytes, List.cons_append, code_literal _ _ _ _ _ quote closed, ih]
    simp
  case remnant =>
    intro back mark content quote unclosed offset depth
    rw [spell_cons, bytes, spell_nil, List.append_nil, code_unclosed _ _ _ _ quote unclosed]
    simp

/-- Where no comment begins in a text, none begins with two of its tokens. -/
theorem quiet_of_uncommented {back : Text} {previous : Option Token} {tokens : List Token}
    (after : After back previous) (lexed : Lexed previous tokens)
    (first : ∀ token ∈ tokens.head?, Quiet previous token) {offset depth : Nat}
    (uncommented : Uncommented ⟨back, spell tokens, offset, depth⟩) :
    Linked Quiet previous tokens := by
  induction tokens generalizing back previous offset depth with
  | nil => trivial
  | cons token tokens ih =>
      have following := lexed
      obtain ⟨⟨-, follows⟩, lexed⟩ := lexed
      rw [spell_cons] at uncommented
      refine ⟨first token rfl, ?_⟩
      cases token with
      | word written =>
          obtain ⟨places, read, -⟩ := exists_code_word follows.1 back (spell tokens) offset depth
          rw [Uncommented, bytes, read, List.forall_mem_append] at uncommented
          exact ih (after.of_word follows.1 follows.2) lexed
            (fun token _ => quiet_after_not_byte (by simp) token) uncommented.2
      | byte plain =>
          rw [bytes, List.singleton_append, uncommented_cons _ _ _ _ follows.2] at uncommented
          refine ih (After.of_plain back follows.1 (.byte plain) rfl) lexed ?_ uncommented.2
          rintro (written | next | ⟨mark, content⟩ | ⟨mark, content⟩) head_eq
          · exact quiet_of_not_byte (by simp)
          · obtain ⟨others, rfl⟩ := List.head?_eq_some_iff.mp head_eq
            exact (comment?_eq_none_iff_quiet plain next (spell others)).mp uncommented.1
          · exact quiet_of_not_byte (by simp)
          · exact quiet_of_not_byte (by simp)
      | literal mark content =>
          rw [bytes, List.cons_append, uncommented_literal _ _ _ _ _ follows.1
            (after.closing?_spell following)] at uncommented
          exact ih (After.of_literal back follows.1 follows.2.2) lexed
            (fun token _ => quiet_after_not_byte (by simp) token) uncommented
      | remnant mark content =>
          obtain rfl := eq_nil_of_remnant following
          trivial

/-- A text has no angle bracket outside its literals when none of its tokens is one. -/
theorem untagged_start_spell {tokens : List Token} (lexed : Lexed none tokens) :
    (∀ site ∈ (start (spell tokens)).code, site.byte? ≠ some Byte.lessThan) ↔
      ∀ token ∈ tokens, token ≠ .byte Byte.lessThan := by
  have told := @forall_code_spell (· ≠ Byte.lessThan)
    (fun byte identifier same => absurd (same ▸ identifier) (by decide))
    [] none tokens After.nil lexed 0 0
  constructor
  · rintro untagged token member rfl
    exact told.mp
      (fun site inside byte byte_eq same => untagged site inside (same ▸ byte_eq)) _ member rfl
  · intro others site member bracket
    exact told.mpr (fun plain inside same => others _ inside (same ▸ rfl)) site member _ bracket rfl

theorem spaceable_untagged : Spaceable fun _ token => token ≠ .byte Byte.lessThan where
  blank _ := by decide
  after_gap _ other := ⟨other, other⟩
  semicolon _ := by decide
  trimmed _ := by simp

theorem uncommented_start_spell {tokens : List Token} (lexed : Lexed none tokens) :
    Uncommented (start (spell tokens)) ↔ Linked Quiet none tokens :=
  ⟨quiet_of_uncommented After.nil lexed fun _ _ => by simp [Quiet],
    fun quiet => uncommented_spell After.nil lexed quiet 0 0⟩

end Token

/-! ## Bare texts -/

/-- The literals of the text are closed, and nothing in it is taken for markup: it has no code
fences, and outside its literals no comments and no angle bracket that could begin a tag. -/
structure Bare (text : Text) : Prop where
  closed : Closed (start text)
  unfenced : Unfenced text
  uncommented : Uncommented (start text)
  untagged : ∀ site ∈ (start text).code, site.byte? ≠ some Byte.lessThan

instance (text : Text) : Decidable (Bare text) :=
  decidable_of_iff (Closed (start text) ∧ Unfenced text ∧ Uncommented (start text) ∧
      ∀ site ∈ (start text).code, site.byte? ≠ some Byte.lessThan)
    ⟨fun ⟨closed, unfenced, uncommented, untagged⟩ => ⟨closed, unfenced, uncommented, untagged⟩,
      fun bare => ⟨bare.closed, bare.unfenced, bare.uncommented, bare.untagged⟩⟩

/-- Whether an angle bracket stands outside literals can be told for two texts
in a row one by one. -/
private theorem untagged_append_iff {text after : Text} (closed : Closed (start text))
    (seam : Seam text.reverse after) :
    (∀ site ∈ (start (text ++ after)).code, site.byte? ≠ some Byte.lessThan) ↔
      (∀ site ∈ (start text).code, site.byte? ≠ some Byte.lessThan) ∧
        ∀ site ∈ (start after).code, site.byte? ≠ some Byte.lessThan := by
  have later : (∀ site ∈ (start after).code, site.byte? ≠ some Byte.lessThan) ↔
      ∀ site ∈ code ⟨[], after, 0, endDepth ⟨[], text, 0, 0⟩⟩, site.byte? ≠ some Byte.lessThan :=
    @forall_code_depth (fun rest => rest.head? ≠ some Byte.lessThan) _ _ _ _ _ _
  rw [later]
  refine forall_code_append 0 closed seam (fun site rest_ne _ => ?_) fun _ _ _ => Iff.rfl
  rw [byte?_extend rest_ne]

/-- A byte that belongs to no word and no literal and marks no comments. -/
def Byte.isSingle (byte : Byte) : Bool :=
  !byte.isIdentifier && !byte.isQuote && !byte.marksComment

theorem Byte.isSingle_iff {byte : Byte} : byte.isSingle = true ↔
    (byte.isIdentifier = false ∧ byte.isQuote = false) ∧ byte.marksComment = false := by
  simp [isSingle]

namespace Bare

open Byte

variable {text after : Text}

/-- Two texts in a row are bare when both of them are. -/
theorem append_iff (closed : Closed (start text)) (seam : Seam text.reverse after)
    (apart : Apart text.reverse after) : Bare (text ++ after) ↔ Bare text ∧ Bare after := by
  constructor
  · intro bare
    obtain ⟨unfenced_text, unfenced_after⟩ := (Unfenced.append_of_seam seam).mp bare.unfenced
    obtain ⟨uncommented_text, uncommented_after⟩ :=
      (uncommented_start_append closed seam apart).mp bare.uncommented
    obtain ⟨untagged_text, untagged_after⟩ := (untagged_append_iff closed seam).mp bare.untagged
    have closed_after := (closed_start_append closed seam).mp bare.closed
    exact ⟨⟨closed, unfenced_text, uncommented_text, untagged_text⟩,
      ⟨closed_after, unfenced_after, uncommented_after, untagged_after⟩⟩
  · rintro ⟨first, second⟩
    exact ⟨(closed_start_append closed seam).mpr second.closed,
      (Unfenced.append_of_seam seam).mpr ⟨first.unfenced, second.unfenced⟩,
      (uncommented_start_append closed seam apart).mpr ⟨first.uncommented, second.uncommented⟩,
      (untagged_append_iff closed seam).mpr ⟨first.untagged, second.untagged⟩⟩

/-- What begins with a byte by itself may follow any text. -/
theorem append_single (bare : Bare text) (other : Bare after)
    (single : after.head?.any isSingle = true) :
    Bare (text ++ after) := by
  cases after with
  | nil => simp at single
  | cons byte rest =>
      obtain ⟨⟨identifier, quote⟩, plain⟩ := isSingle_iff.mp single
      exact (append_iff bare.closed (Seam.of_plain_head identifier quote _ _)
        (apart_of_head (by rintro _ ⟨⟩; exact plain) _)).mpr ⟨bare, other⟩

/-- Any text may follow a byte by itself. -/
theorem append_after {front : Text} {byte : Byte} (bare : Bare (text ++ (front ++ [byte])))
    (single : isSingle byte = true) (other : Bare after) :
    Bare (text ++ (front ++ [byte]) ++ after) := by
  obtain ⟨⟨identifier, quote⟩, plain⟩ := isSingle_iff.mp single
  have reverse_eq : (text ++ (front ++ [byte])).reverse = byte :: (text ++ front).reverse := by simp
  refine (append_iff bare.closed (reverse_eq ▸ Seam.of_plain_last identifier quote _ _)
    (reverse_eq ▸ apart_of_last ?_ _)).mpr ⟨bare, other⟩
  rintro _ ⟨⟩
  exact plain

/-- A text is bare if it has no byte of a literal, a comment or a tag. -/
theorem of_plain (plain : ∀ byte ∈ text, (byte.isQuote = false ∧ byte.marksComment = false) ∧
    byte ≠ Byte.lessThan) : Bare text where
  closed := closed_of_plain _ _ fun byte member => (plain byte member).1.1
  unfenced := Unfenced.of_not_mem fun tick => absurd (plain _ tick).1.1 (by decide)
  uncommented := uncommented_of_plain 0 0 fun byte member => (plain byte member).1.2
  untagged := by
    intro site member bracket
    have whole : site.back.reverse ++ site.rest = text :=
      back_rest_of_mem_walk (List.mem_filter.mp member).1
    obtain ⟨rest, rest_eq⟩ := List.head?_eq_some_iff.mp bracket
    have inside : Byte.lessThan ∈ text := by
      rw [← whole, rest_eq]
      simp
    exact (plain _ inside).2 rfl

theorem of_space {blank : Text} (is_blank : ∀ byte ∈ blank, byte.isSpace = true) : Bare blank :=
  of_plain fun byte member =>
    ⟨⟨isQuote_of_isSpace byte (is_blank byte member),
      marksComment_of_isSpace byte (is_blank byte member)⟩,
      fun same => absurd (same ▸ is_blank byte member) (by decide)⟩

/-- White space at the end is no markup. -/
theorem append_blank_iff {blank : Text} (is_blank : ∀ byte ∈ blank, byte.isSpace = true) :
    Bare (text ++ blank) ↔ Bare text := by
  have parts (closed : Closed (start text)) : Bare (text ++ blank) ↔ Bare text := by
    rw [append_iff closed (Seam.of_blank_right is_blank _) (apart_of_head (fun byte head_eq =>
      marksComment_of_isSpace byte (is_blank byte (List.mem_of_head? head_eq))) _),
      and_iff_left (of_space is_blank)]
  exact ⟨fun bare => (parts (closed_of_append_blank is_blank bare.closed)).mp bare,
    fun bare => (parts bare.closed).mpr bare⟩

theorem trimRight (bare : Bare text) : Bare text.trimRight := by
  obtain ⟨trail, blank, split⟩ := exists_trimRight_append text
  rw [split, append_blank_iff blank] at bare
  exact bare

theorem parenthesized (bare : Bare text) : Bare ([Byte.openParen] ++ text ++ [Byte.closeParen]) :=
  (append_after (show Bare ([] ++ ([] ++ [Byte.openParen])) from of_plain (by decide +kernel))
    (by decide)
    bare).append_single (of_plain (by decide +kernel)) rfl

/-! ## Places where regions end -/

/-- What follows a place where a region ends ends no comment mark. -/
theorem apart_of_onset (onset : Onset after) (back : Text) : Apart back after := by
  refine apart_of_head (fun byte head_eq => ?_) back
  cases onset with
  | sign signed =>
      obtain ⟨first, rest, rfl, identifier, -⟩ := exists_of_sign? signed
      obtain rfl : first = byte := by simpa using head_eq
      exact marksComment_of_isIdentifier first identifier
  | trail trails =>
      have trailing := trails byte (List.mem_of_head? head_eq)
      rcases Bool.or_eq_true_iff.mp trailing with semicolon | space
      · obtain rfl : byte = Byte.semicolon := by simpa using semicolon
        decide
      · exact marksComment_of_isSpace byte space

theorem take_drop (bare : Bare text) {stop : Nat} (ends : Ends text stop) :
    Bare (text.take stop) ∧ Bare (text.drop stop) := by
  rw [← append_iff (ends.closed_take bare.closed) ends.seam (apart_of_onset ends.onset _),
    List.take_append_drop]
  exact bare

/-- A text stays bare without a piece that begins at a sign and runs to the end of a region. -/
theorem without (bare : Bare text) {found : SignAt} (member : found ∈ (start text).signs)
    {stop : Nat} (ends : Ends text stop) : Bare (text.take found.offset ++ text.drop stop) := by
  have halt := (halt_of_mem_signs member).1
  rw [append_iff halt.closed (halt.parted ends.onset).toSeam (apart_of_onset ends.onset _)]
  exact ⟨(bare.take_drop (.sign member)).1, (bare.take_drop ends).2⟩

/-- In normal form a bare text is bare. -/
theorem normalize (bare : Bare text) : Bare text.normalize := by
  refine ⟨(closed_normalize text).mpr bare.closed, unfenced_normalize bare.unfenced, ?_, ?_⟩
  all_goals obtain ⟨tokens, lexed, rfl⟩ := Token.exists_lexed text
  · rw [Token.normalize_spell lexed, Token.uncommented_start_spell (Token.lexed_normal lexed)]
    exact Token.linked_normal Token.spaceable_quiet
      ((Token.uncommented_start_spell lexed).mp bare.uncommented)
  · rw [Token.normalize_spell lexed, Token.untagged_start_spell (Token.lexed_normal lexed),
      ← Token.linked_of_forall none]
    exact Token.linked_normal Token.spaceable_untagged
      ((Token.linked_of_forall none).mpr ((Token.untagged_start_spell lexed).mp bare.untagged))

/-- A bare text in normal form is its own sanitized form. -/
theorem sanitize_eq (bare : Bare text) (normal : text.normalize = text) : text.sanitize = text := by
  refine sanitize_of_plain bare.unfenced bare.uncommented (fun place member => ?_) normal
  have other := bare.untagged place member
  obtain ⟨back, rest, offset, depth⟩ := place
  cases rest with
  | nil => rfl
  | cons byte rest =>
      have byte_ne : byte ≠ Byte.lessThan := by simpa [byte?] using other
      simp [Markup.tag?, byte_ne]

end Bare

/-! ## Repair -/

/-- The parts of a bare text are bare: all through its `WHERE`, the same with the white space after
it, and the condition. -/
theorem Scope.Layout.bare {before head lead condition trail : Text} {filter : Nat}
    (layout : Scope.Layout before filter head lead condition trail) (bare : Bare before) :
    Bare head ∧ Bare (head ++ lead) ∧ Bare condition := by
  rw [layout.split, ← List.append_assoc, ← List.append_assoc,
    Bare.append_blank_iff layout.trail_blank,
    Bare.append_iff layout.closed_lead layout.broken.toSeam (layout.apart _)] at bare
  exact ⟨(Bare.append_blank_iff layout.lead_blank).mp bare.1, bare⟩

namespace Repair

theorem bare_cutConditionOf {statement : Statement} (bare : Bare statement.text) (kind : Clause) :
    Bare (cutConditionOf statement kind).text := by
  rcases exists_cutConditionOf statement kind with
    ⟨-, kept⟩ | ⟨offset, before, inside, after, region,
      ⟨kept, -⟩ | ⟨front, found, back, inside_eq, -, -, cut⟩⟩
  · rwa [kept]
  · rwa [kept]
  · rw [cut]
    exact bare.without (by simp [region.signs_eq, inside_eq]) region.ends

theorem bare_cutTrailingConditions {statement : Statement} (bare : Bare statement.text) :
    Bare (cutTrailingConditions statement).text := by
  rw [cutTrailingConditions]
  generalize conditionless = kinds
  induction kinds generalizing statement with
  | nil => exact bare
  | cons kind kinds ih => exact ih (bare_cutConditionOf bare kind)

/-- The condition of a bare text is bare. -/
theorem bare_condition {text : Text} (bare : Bare text) {place stop : Nat}
    (found : (Outline.ofText text).find? .filter = some place) (ends : Ends text stop) :
    Bare (Text.trim (Statement.slice text (place + 5) stop)) := by
  rcases exists_layout_condition found ends with empty | ⟨head, lead, trail, layout⟩
  · rw [empty]
    decide
  · exact (layout.bare (bare.take_drop ends).1).2.2

theorem bare_conjunct {condition : Text} (bare : Bare condition) : Bare (conjunct condition) := by
  rw [conjunct]
  split
  · exact bare.parenthesized
  · exact bare

/-- Moving a condition keeps a text bare. -/
theorem bare_relocateFilter {statement : Statement} (bare : Bare statement.text) :
    Bare (relocateFilter statement).text := by
  by_cases direct : statement.outline.detour = 0
  · rwa [relocateFilter_of_detour direct]
  · obtain ⟨place, before, inside, after, tail, others, region, first⟩ := exists_misplaced direct
    have own : (⟨.clause .filter, place⟩ : SignAt) ∈ (start statement.text).signs :=
      region.signs_eq ▸ List.mem_append_right _ List.mem_cons_self
    have tail_mem : tail ∈ before :=
      (Sign.newcomers_sublist _ _).subset (first ▸ List.mem_cons_self)
    have ahead := Ends.sign (region.signs_eq ▸ List.mem_append_left _ tail_mem)
    have behind := Ends.sign (signs_withoutRegion region ▸ List.mem_append_left _ tail_mem)
    have without : Bare (withoutRegion statement.text place after) := bare.without own region.ends
    rw [relocateFilter_of_misplaced region first, Statement.withText]
    split
    · exact without
    · have introduction : ascii " WHERE " = ascii " WHERE" ++ [Byte.blank] := by decide
      have front : Bare (Text.trimRight (statement.text.take tail.offset) ++
          (ascii " WHERE" ++ [Byte.blank])) :=
        (bare.take_drop ahead).1.trimRight.append_single (.of_plain (by decide +kernel)) rfl
      have introduced := front.append_after (by decide)
        (bare_conjunct (bare_condition bare region.find?_eq region.ends))
      rw [introduction]
      exact @Bare.append_after _ _ [] _
        (introduced.append_single (.of_plain (by decide +kernel)) rfl) (by decide)
        (without.take_drop behind).2

theorem text_normalize (statement : Statement) :
    (normalize statement).text = statement.text.normalize :=
  rfl

theorem bare_normalize {statement : Statement} (bare : Bare statement.text) :
    Bare (normalize statement).text :=
  text_normalize statement ▸ Bare.normalize bare

end Repair

end TenantScope
