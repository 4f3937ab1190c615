import TenantScope.Proofs.Regions

/-!
# Cutting texts at signs

Repair takes pieces out of a text that begin at a sign and run up to the end of a
region.  What is left on both sides is read as it was, since no literal, parenthesis or
word runs across such a place.
-/

namespace TenantScope

open Text Site Literal

theorem Token.plain_of_trails {byte : Byte} (trailing : Token.trails byte = true) :
    byte.isIdentifier = false ∧ byte.isQuote = false := by
  constructor
  · exact Bool.eq_false_iff.mpr fun identifier => by
      simp [Token.trails_of_isIdentifier identifier] at trailing
  · exact Bool.eq_false_iff.mpr fun quote => by simp [Token.trails_of_isQuote quote] at trailing

theorem Token.flat_of_trails {byte : Byte} (trailing : Token.trails byte = true) :
    byte ≠ Byte.openParen ∧ byte ≠ Byte.closeParen := by
  constructor <;> rintro rfl <;> exact absurd trailing (by decide)

theorem seam_of_trails {text : Text} (trails : ∀ byte ∈ text, Token.trails byte = true)
    (back : Text) : Seam back text := by
  cases text with
  | nil => exact Seam.of_nil_right back
  | cons byte rest =>
      have plain := Token.plain_of_trails (trails byte List.mem_cons_self)
      exact Seam.of_plain_head plain.1 plain.2 back rest

theorem closed_of_trails {text : Text} (trails : ∀ byte ∈ text, Token.trails byte = true) :
    Closed (start text) :=
  closed_of_plain 0 0 fun byte member => (Token.plain_of_trails (trails byte member)).2

theorem endDepth_of_trails {text : Text} (trails : ∀ byte ∈ text, Token.trails byte = true)
    (depth : Nat) : endDepth ⟨[], text, 0, depth⟩ = depth :=
  endDepth_of_plain 0 depth (fun byte member => (Token.plain_of_trails (trails byte member)).2)
    fun byte member => Token.flat_of_trails (trails byte member)

theorem nested_of_flat {text : Text} (flat : Byte.closeParen ∉ text) (depth : Nat) :
    Nested ⟨[], text, 0, depth⟩ := by
  intro place member paren
  obtain ⟨before, text_eq, -, -⟩ := exists_closed_of_mem_code member
  obtain ⟨rest, rest_eq⟩ := List.head?_eq_some_iff.mp paren
  exact absurd (by simp [text_eq, rest_eq]) flat

theorem nested_of_trails {text : Text} (trails : ∀ byte ∈ text, Token.trails byte = true)
    (depth : Nat) : Nested ⟨[], text, 0, depth⟩ :=
  nested_of_flat (fun listed => absurd (trails _ listed) (by decide)) depth

/-- The end of a statement opens and closes no parenthesis. -/
theorem balanced_append_trails {text after : Text} (closed : Closed (start text))
    (trails : ∀ byte ∈ after, Token.trails byte = true) :
    Balanced (text ++ after) ↔ Balanced text := by
  have seam := seam_of_trails trails text.reverse
  have nested_iff := nested_start_append closed seam
  have level_eq := (endDepth_start_append closed seam).trans (endDepth_of_trails trails _)
  constructor
  · intro balanced
    exact ⟨(nested_iff.mp balanced.nested).1, level_eq.symm.trans balanced.level⟩
  · intro balanced
    exact ⟨nested_iff.mpr ⟨balanced.nested, nested_of_trails trails _⟩,
      level_eq.trans balanced.level⟩

/-! ## Where texts may be cut -/

/-- A text after which a keyword may begin. -/
structure Halt (text : Text) : Prop where
  closed : Closed (start text)
  level : endDepth (start text) = 0
  word : text.reverse.head?.any Byte.isIdentifier = false
  dot : text.reverse.head? ≠ some Byte.dot

/-- A text that may be taken up after a halt: it begins with a sign, or is the end of a
statement. -/
inductive Onset (text : Text) : Prop
  | sign {sign : Sign} (signed : (start text).sign? = some sign)
  | trail (trails : ∀ byte ∈ text, Token.trails byte = true)

namespace Sign

/-- No sign is the second word of a phrase. -/
theorem head?_of_ofWords? {spoken next : Text} {sign : Sign}
    (signed : ofWords? spoken next = some sign) : spoken.head?.any beginsPhraseWord = false := by
  unfold ofWords? at signed
  split_ifs at signed with cases ends joins filters having limits groups orders
  all_goals first
    | (subst spoken; decide)
    | (obtain rfl | rfl := joins <;> decide)
    | (rw [groups.1]; decide)
    | (rw [orders.1]; decide)

end Sign

theorem exists_of_sign? {text : Text} {sign : Sign} (signed : (start text).sign? = some sign) :
    ∃ byte rest, text = byte :: rest ∧ byte.isIdentifier = true ∧
      beginsPhraseWord byte = false := by
  obtain ⟨-, byte, rest, rest_eq, identifier⟩ := exists_of_spoken_ne (spoken_ne_of_sign? signed)
  have plain := Sign.head?_of_ofWords? (sign?_eq_some.mp signed).2
  have text_eq : text = byte :: rest := rest_eq
  refine ⟨byte, rest, text_eq, identifier, ?_⟩
  rw [spoken, if_neg (by simp [afterIdentifier, previous?, start]), rest_eq,
    List.takeWhile_cons_of_pos identifier] at plain
  simpa [upper, beginsPhraseWord, Byte.toUpper_toUpper] using plain

/-- The end of a statement may follow anything. -/
theorem parted_of_trails {after : Text} (trails : ∀ byte ∈ after, Token.trails byte = true)
    (back : Text) : Parted back after := by
  have wordless {head? : Option Byte} (listed : ∀ byte ∈ head?, byte ∈ after) :
      head?.any Byte.isIdentifier = false := by
    cases head? with
    | none => rfl
    | some byte => exact (Token.plain_of_trails (trails byte (listed byte rfl))).1
  refine ⟨⟨seam_of_trails trails _, fun _ => ?_⟩, fun _ => sign?_of_wordless ?_⟩
  · have silent := @wordless (after.dropWhile Byte.isSpace).head? fun byte head_eq =>
      (List.dropWhile_sublist _).subset (List.mem_of_mem_head? head_eq)
    cases head_eq : (after.dropWhile Byte.isSpace).head? with
    | none => rfl
    | some first =>
        rw [head_eq] at silent
        exact Bool.eq_false_iff.mpr fun begins =>
          Bool.eq_false_iff.mp silent (isIdentifier_of_beginsPhraseWord first begins)
  · exact wordless fun byte head_eq => List.mem_of_mem_head? head_eq

/-- The end of a statement has no signs. -/
theorem signs_of_trails {text : Text} (trails : ∀ byte ∈ text, Token.trails byte = true) :
    (start text).signs = [] :=
  filterMap_code_of_wordless signAt?_of_silent
    (fun byte member => (Token.plain_of_trails (trails byte member)).1) [] 0 0

/-- Nor does it change the signs of a text. -/
theorem signs_append_trails {text after : Text} (closed : Closed (start text))
    (level : endDepth (start text) = 0) (trails : ∀ byte ∈ after, Token.trails byte = true) :
    (start (text ++ after)).signs = (start text).signs := by
  rw [signs_start_append closed level (parted_of_trails trails _), signs_of_trails trails,
    List.map_nil, List.append_nil]

theorem Halt.parted {text after : Text} (halt : Halt text) (onset : Onset after) :
    Parted text.reverse after := by
  cases onset with
  | sign signed =>
      obtain ⟨byte, rest, rfl, identifier, plain⟩ := exists_of_sign? signed
      refine ⟨⟨Seam.of_word halt.word fun first same => ?_, fun _ => ?_⟩,
        fun dotted => absurd dotted halt.dot⟩
      · obtain rfl : byte = first := by simpa using same
        exact identifier
      · rw [List.dropWhile_cons_of_neg (by simp [Byte.isSpace_of_isIdentifier byte identifier])]
        simpa using plain
  | trail trails => exact parted_of_trails trails _

namespace Halt

variable {text after : Text} (halt : Halt text) (onset : Onset after)

include halt onset

theorem signs_eq :
    (start (text ++ after)).signs =
      (start text).signs ++ (start after).signs.map fun found =>
        { found with offset := found.offset + text.length } :=
  signs_start_append halt.closed halt.level (halt.parted onset)

theorem closed_append : Closed (start (text ++ after)) ↔ Closed (start after) :=
  closed_start_append halt.closed (halt.parted onset).toSeam

theorem balanced_append : Balanced (text ++ after) ↔ Nested (start text) ∧ Balanced after := by
  have nested_iff := nested_start_append halt.closed (halt.parted onset).toSeam
  have level_eq := endDepth_start_append halt.closed (halt.parted onset).toSeam
  rw [halt.level] at nested_iff level_eq
  constructor
  · intro balanced
    have nested := nested_iff.mp balanced.nested
    exact ⟨nested.1, nested.2, level_eq.symm.trans balanced.level⟩
  · rintro ⟨nested, balanced⟩
    exact ⟨nested_iff.mpr ⟨nested, balanced.nested⟩, level_eq.trans balanced.level⟩

end Halt

/-- A text is at a halt where one of its signs stands. -/
theorem halt_of_mem_signs {text : Text} {found : SignAt} (member : found ∈ (start text).signs) :
    Halt (text.take found.offset) ∧ (start (text.drop found.offset)).sign? = some found.sign ∧
      found.offset < text.length := by
  obtain ⟨place, place_mem, signed, offset_eq⟩ := mem_signs.mp member
  obtain ⟨before, text_eq, closed, place_eq⟩ := exists_closed_of_mem_code place_mem
  obtain ⟨begins, byte, rest, rest_eq, -⟩ := exists_of_spoken_ne (spoken_ne_of_sign? signed)
  obtain ⟨⟨level, undotted⟩, words⟩ := sign?_eq_some.mp signed
  have length_eq : found.offset = before.length := by
    rw [← offset_eq, place_eq]
    exact Nat.zero_add _
  have back_eq : place.back = before.reverse := by
    rw [place_eq]
    exact List.append_nil _
  have take_eq : text.take found.offset = before := by
    rw [text_eq, length_eq, List.take_left]
  have drop_eq : text.drop found.offset = place.rest := by
    conv => lhs; rw [text_eq, length_eq, List.drop_left]
  refine ⟨?_, ?_, ?_⟩
  · rw [take_eq]
    refine ⟨closed, ?_, ?_, ?_⟩
    · rw [place_eq] at level
      exact level
    · rw [← back_eq]
      exact begins
    · rw [← back_eq]
      simpa [afterDot, previous?] using undotted
  · rw [drop_eq, sign?_eq_some]
    refine ⟨⟨rfl, rfl⟩, ?_⟩
    rw [spoken, if_neg (by simp [begins])] at words
    exact words
  · rw [text_eq, length_eq, rest_eq]
    simp

/-- The signs on both sides of a sign. -/
theorem signs_split {text : Text} {before after : List SignAt} {found : SignAt}
    (signs_eq : (start text).signs = before ++ found :: after) :
    (start (text.take found.offset)).signs = before ∧
      ((start (text.drop found.offset)).signs.map fun sign =>
        { sign with offset := sign.offset + found.offset }) = found :: after := by
  have member : found ∈ (start text).signs := by simp [signs_eq]
  obtain ⟨halt, signed, inside⟩ := halt_of_mem_signs member
  have split := halt.signs_eq (.sign signed)
  rw [List.take_append_drop, signs_eq] at split
  have ordered := signs_eq ▸ pairwise_signs text
  rw [List.pairwise_append, List.pairwise_cons] at ordered
  obtain ⟨-, ⟨later, -⟩, earlier⟩ := ordered
  have length_eq : (text.take found.offset).length = found.offset := by
    rw [List.length_take, Nat.min_eq_left inside.le]
  -- Both ways to split the signs agree, as they are told apart by their offsets.
  have first_eq : (start (text.take found.offset)).signs = before := by
    have filtered := congrArg (List.filter fun sign => decide (sign.offset < found.offset)) split
    rw [List.filter_append, List.filter_append, List.filter_eq_self.mpr, List.filter_eq_nil_iff.mpr,
      List.filter_eq_self.mpr, List.filter_eq_nil_iff.mpr, List.append_nil,
      List.append_nil] at filtered
    · exact filtered.symm
    · intro sign shifted
      obtain ⟨other, -, rfl⟩ := List.mem_map.mp shifted
      simp [length_eq]
    · intro sign inner
      have bounded := (halt_of_mem_signs inner).2.2
      rw [length_eq] at bounded
      exact decide_eq_true bounded
    · intro sign listed
      rcases List.mem_cons.mp listed with rfl | listed
      · simp
      · simpa using (later sign listed).le
    · exact fun sign listed => decide_eq_true (earlier sign listed found List.mem_cons_self)
  refine ⟨first_eq, ?_⟩
  rw [first_eq, length_eq] at split
  exact (List.append_cancel_left split).symm

/-- From a sign on a text has that sign and those after it. -/
theorem kinds_from {text : Text} {before after : List SignAt} {found : SignAt}
    (signs_eq : (start text).signs = before ++ found :: after) :
    (start (text.drop found.offset)).kinds = (found :: after).map SignAt.sign := by
  rw [← (signs_split signs_eq).2, List.map_map, kinds]
  rfl

/-! ## Where regions end -/

/-- A region of a text may end at the offset: a sign stands there, or the body ends. -/
inductive Ends (text : Text) : Nat → Prop
  | sign {found : SignAt} (member : found ∈ (start text).signs) : Ends text found.offset
  | body : Ends text (Statement.bodyEnd text)

namespace Ends

variable {text : Text} {stop : Nat} (ends : Ends text stop)

include ends

theorem le_length : stop ≤ text.length := by
  cases ends with
  | sign member => exact (halt_of_mem_signs member).2.2.le
  | body => exact Statement.bodyEnd_le text

theorem onset : Onset (text.drop stop) := by
  cases ends with
  | sign member => exact .sign (halt_of_mem_signs member).2.1
  | body => exact .trail (Statement.trails_of_mem_drop text)

theorem closed_drop (closed : Closed (start text)) : Closed (start (text.drop stop)) := by
  cases ends with
  | @sign found member =>
      obtain ⟨halt, signed, -⟩ := halt_of_mem_signs member
      rw [← List.take_append_drop found.offset text] at closed
      exact (halt.closed_append (.sign signed)).mp closed
  | body => exact closed_of_trails (Statement.trails_of_mem_drop text)

theorem closed_take (closed : Closed (start text)) : Closed (start (text.take stop)) := by
  cases ends with
  | sign member => exact (halt_of_mem_signs member).1.closed
  | body =>
      rw [← List.take_append_drop (Statement.bodyEnd text) text] at closed
      exact closed_of_append_plain (fun byte member =>
        (Token.plain_of_trails (Statement.trails_of_mem_drop text byte member)).2) closed

/-- The parentheses are balanced on both sides. -/
theorem balanced (closed : Closed (start text)) (balanced : Balanced text) :
    Balanced (text.take stop) ∧ Balanced (text.drop stop) := by
  cases ends with
  | @sign found member =>
      obtain ⟨halt, signed, -⟩ := halt_of_mem_signs member
      rw [← List.take_append_drop found.offset text] at balanced
      obtain ⟨nested, rest⟩ := (halt.balanced_append (.sign signed)).mp balanced
      exact ⟨⟨nested, halt.level⟩, rest⟩
  | body =>
      have trails := Statement.trails_of_mem_drop text
      have first := Ends.body.closed_take closed
      rw [← List.take_append_drop (Statement.bodyEnd text) text,
        balanced_append_trails first trails] at balanced
      exact ⟨balanced, nested_of_trails trails 0, endDepth_of_trails trails 0⟩

end Ends

/-! ## Taking pieces out -/

/-- The signs that are left when the piece from one of them to the end of a region is taken out. -/
theorem signs_without {text : Text} {before after : List SignAt} {found : SignAt}
    (signs_eq : (start text).signs = before ++ found :: after) {stop : Nat}
    (ends : Ends text stop) :
    (start (text.take found.offset ++ text.drop stop)).signs =
      before ++ (start (text.drop stop)).signs.map fun sign =>
        { sign with offset := sign.offset + (text.take found.offset).length } := by
  have member : found ∈ (start text).signs := by simp [signs_eq]
  rw [(halt_of_mem_signs member).1.signs_eq ends.onset, (signs_split signs_eq).1]

/-- A text with closed literals leads from a number of open parentheses to another, and closes none
that is not open. -/
structure Leads (text : Text) (depth after : Nat) : Prop where
  closed : Closed (start text)
  nested : Nested ⟨[], text, 0, depth⟩
  level : endDepth ⟨[], text, 0, depth⟩ = after

theorem Leads.append {text other : Text} {depth middle after : Nat}
    (leads : Leads text depth middle) (further : Leads other middle after)
    (seam : Seam text.reverse other) :
    Leads (text ++ other) depth after := by
  have seam' : Seam (text.reverse ++ []) other := by simpa using seam
  have closed := (closed_congr [] text 0 0 0 depth).mp leads.closed
  refine ⟨(closed_start_append leads.closed seam).mpr further.closed, ?_, ?_⟩
  · refine (forall_code_append depth closed seam (fun site rest_ne _ => ?_)
      fun _ _ _ => Iff.rfl).mpr ⟨leads.nested, leads.level.symm ▸ further.nested⟩
    rw [byte?_extend rest_ne]
    rfl
  · rw [endDepth_append 0 depth closed seam', endDepth_of_seam seam', leads.level]
    exact further.level

/-- The literals of a text are closed, and its parentheses are balanced. -/
structure Wellformed (text : Text) : Prop where
  closed : Closed (start text)
  balanced : Balanced text

instance (text : Text) : Decidable (Wellformed text) :=
  decidable_of_iff (Closed (start text) ∧ Balanced text)
    ⟨fun ⟨closed, balanced⟩ => ⟨closed, balanced⟩, fun whole => ⟨whole.closed, whole.balanced⟩⟩

theorem wellformed_iff_leads {text : Text} : Wellformed text ↔ Leads text 0 0 :=
  ⟨fun whole => ⟨whole.closed, whole.balanced.nested, whole.balanced.level⟩,
    fun leads => ⟨leads.closed, leads.nested, leads.level⟩⟩

/-- A text without literals and parentheses is well formed. -/
theorem wellformed_of_plain {text : Text} (plain : ∀ byte ∈ text, byte.isQuote = false)
    (flat : ∀ byte ∈ text, byte ≠ Byte.openParen ∧ byte ≠ Byte.closeParen) : Wellformed text where
  closed := closed_of_plain 0 0 plain
  balanced :=
    ⟨nested_of_flat (fun listed => (flat _ listed).2 rfl) 0, endDepth_of_plain 0 0 plain flat⟩

/-- A well-formed text may stand in parentheses. -/
theorem Wellformed.leads {text : Text} (whole : Wellformed text) (depth : Nat) :
    Leads text depth depth := by
  obtain ⟨level, deep⟩ := code_of_nested whole.balanced.nested depth
  rw [Nat.zero_add] at level deep
  have level_eq : endDepth ⟨[], text, 0, 0⟩ = 0 := whole.balanced.level
  refine ⟨whole.closed, fun place member paren => ?_, by rw [level, level_eq, Nat.zero_add]⟩
  cases depth with
  | zero => exact whole.balanced.nested place member paren
  | succ depth => exact Nat.ne_of_gt (Nat.lt_of_lt_of_le depth.succ_pos (deep place member))

theorem Wellformed.parenthesized {text : Text} (whole : Wellformed text) :
    Wellformed ([Byte.openParen] ++ text ++ [Byte.closeParen]) := by
  have open_leads : Leads [Byte.openParen] 0 1 := ⟨by decide, by decide, by decide⟩
  have close_leads : Leads [Byte.closeParen] 1 0 := ⟨by decide, by decide, by decide⟩
  exact wellformed_iff_leads.mpr ((open_leads.append (whole.leads 1)
    (Seam.of_plain_last (by decide) (by decide) _ _)).append close_leads
      (Seam.of_plain_head (by decide) (by decide) _ _))

namespace Wellformed

variable {text : Text} (whole : Wellformed text)

include whole

theorem take_drop {stop : Nat} (ends : Ends text stop) :
    Wellformed (text.take stop) ∧ Wellformed (text.drop stop) :=
  have balanced := ends.balanced whole.closed whole.balanced
  ⟨⟨ends.closed_take whole.closed, balanced.1⟩, ⟨ends.closed_drop whole.closed, balanced.2⟩⟩

theorem append {after : Text} (other : Wellformed after) (seam : Seam text.reverse after) :
    Wellformed (text ++ after) :=
  wellformed_iff_leads.mpr ((whole.leads 0).append (other.leads 0) seam)

/-- A text stays well formed without a piece that begins at a sign and runs to the end of a
region. -/
theorem without {found : SignAt} (member : found ∈ (start text).signs) {stop : Nat}
    (ends : Ends text stop) : Wellformed (text.take found.offset ++ text.drop stop) :=
  (whole.take_drop (.sign member)).1.append (whole.take_drop ends).2
    ((halt_of_mem_signs member).1.parted ends.onset).toSeam

end Wellformed

/-! ## Signs after a keyword -/

/-- The signs from the keyword of a clause on are its own and those after the keyword. -/
theorem signs_of_clause {site : Site} {kind : Clause} {length : Nat}
    (signed : site.sign? = some (.clause kind)) (found : site.word? kind.keyword = some length) :
    site.signs = ⟨.clause kind, site.offset⟩ ::
      signs ⟨(site.rest.take length).reverse ++ site.back, site.rest.drop length,
        site.offset + length, 0⟩ := by
  obtain ⟨back, text, offset, depth⟩ := site
  obtain ⟨⟨level, undotted⟩, -⟩ := sign?_eq_some.mp signed
  obtain rfl : depth = 0 := level
  obtain ⟨begins, byte, others, text_eq, identifier⟩ :=
    exists_of_spoken_ne (spoken_ne_of_sign? signed)
  obtain ⟨written, rest, split, name, ends⟩ := exists_leading_word identifier others
  obtain rfl : text = written ++ rest := text_eq.trans split
  have word_eq := filterMap_code_word signAt?_of_silent back rest name offset 0
  rw [signAt?, signed] at word_eq
  have member : kind.keyword ∈ (Mark.clause kind).keywords := List.mem_singleton.mpr rfl
  rcases Scanner.exists_of_word? member name ends found with
    rfl | ⟨blanks, second, after, rfl, -, blank, second_eq, after_ends, rfl⟩
  · rw [List.take_left, List.drop_left]
    exact word_eq
  · have second_name := Scanner.isName_of_upper_by second_eq
    have silent (back : Text) (offset : Nat) :
        sign? ⟨back, second ++ after, offset, 0⟩ = none := by
      have unsigned (next : Text) : Sign.ofWords? (ascii "BY") next = none := rfl
      rw [sign?, spoken, takeWhile_isIdentifier_append second_name.identifiers after_ends,
        second_eq]
      split_ifs
      · rfl
      · exact unsigned _
      · rfl
    have blank_eq := filterMap_code_blank signAt?_of_silent blank (written.reverse ++ back)
      (second ++ after) (offset + written.length) 0
    have second_word := filterMap_code_word signAt?_of_silent
      (blanks.reverse ++ (written.reverse ++ back)) after second_name
      (offset + written.length + blanks.length) 0
    rw [signAt?, silent] at second_word
    have split :
        written ++ (blanks ++ (second ++ after)) = written ++ (blanks ++ second) ++ after := by
      simp only [List.append_assoc]
    have length_eq : written.length + (blanks.length + second.length) =
        (written ++ (blanks ++ second)).length := by
      simp only [List.length_append]
    have taken : (written ++ (blanks ++ (second ++ after))).take
        (written.length + (blanks.length + second.length)) = written ++ (blanks ++ second) := by
      rw [length_eq, split, List.take_left]
    have dropped : (written ++ (blanks ++ (second ++ after))).drop
        (written.length + (blanks.length + second.length)) = after := by
      rw [length_eq, split, List.drop_left]
    simp only [taken, dropped]
    rw [signs, word_eq, blank_eq, second_word, signs]
    simp [Nat.add_assoc]

theorem atOffset_of_mem {text : Text} {place : Site} (member : place ∈ (start text).code)
    (level : place.depth = 0) : place = Site.atOffset text place.offset := by
  obtain ⟨back_eq, rest_eq⟩ := of_mem_tour_start (List.mem_filter.mp member).1
  obtain ⟨back, rest, offset, depth⟩ := place
  simp only at back_eq rest_eq level
  simp only [back_eq, rest_eq, level, Site.atOffset]

theorem sign?_atOffset {text : Text} {found : SignAt} (member : found ∈ (start text).signs) :
    Site.atOffset text found.offset ∈ (start text).code ∧
      (Site.atOffset text found.offset).sign? = some found.sign := by
  obtain ⟨place, place_mem, signed, offset_eq⟩ := mem_signs.mp member
  have place_eq := atOffset_of_mem place_mem (sign?_eq_some.mp signed).1.1
  rw [offset_eq] at place_eq
  exact place_eq ▸ ⟨place_mem, signed⟩

/-- The signs after the keyword of a clause are those after its own. -/
theorem signs_after_keyword {text : Text} {kind : Clause} {offset : Nat} {before rest : List SignAt}
    (signs_eq : (start text).signs = before ++ ⟨.clause kind, offset⟩ :: rest) :
    (Site.atOffset text
      (offset + ((Site.atOffset text offset).word? kind.keyword).getD 0)).signs = rest := by
  have member : ⟨.clause kind, offset⟩ ∈ (start text).signs := by simp [signs_eq]
  obtain ⟨place_mem, signed⟩ := sign?_atOffset member
  simp only at place_mem signed
  have occurs : (Site.atOffset text offset).hasWord kind.keyword = true := by
    have counted := (Mark.countsAt_iff.mp (Sign.countsAt_clause.mpr signed)).2.1
    simpa [Mark.occursAt, Mark.keywords] using counted
  obtain ⟨length, found⟩ := Option.isSome_iff_exists.mp occurs
  obtain ⟨earlier, code_eq, -⟩ := exists_code_append place_mem
  have rest_eq : signs ⟨((text.drop offset).take length).reverse ++ (text.take offset).reverse,
      (text.drop offset).drop length, offset + length, 0⟩ =
        (Site.atOffset text (offset + length)).signs := by
    rw [Site.atOffset, List.drop_drop, List.take_add, List.reverse_append]
  have split : (start text).signs = earlier.filterMap signAt? ++ ⟨.clause kind, offset⟩ ::
      (Site.atOffset text (offset + length)).signs := by
    rw [← rest_eq]
    exact (congrArg (List.filterMap signAt?) code_eq).trans (List.filterMap_append.trans
      (congrArg (earlier.filterMap signAt? ++ ·) (signs_of_clause signed found)))
  have ordered := signs_eq ▸ pairwise_signs text
  rw [List.pairwise_append, List.pairwise_cons] at ordered
  obtain ⟨-, ⟨later, -⟩, first⟩ := ordered
  rw [found, Option.getD_some]
  rw [signs_eq] at split
  refine ((List.append_cons_inj_of_notMem ?_ ?_).mp split).2.2.symm
  · exact fun listed => lt_irrefl _ (first _ listed _ List.mem_cons_self)
  · exact fun listed => lt_irrefl _ (later _ listed)

namespace Region

variable {text : Text} {kind : Clause} {offset : Nat} {before inside after : List SignAt}
  (region : Region text kind offset before inside after)

include region

theorem ends : Ends text (stopBefore text after) := by
  cases after with
  | nil => exact .body
  | cons found after =>
      exact @Ends.sign _ found (by simp [region.signs_eq])

theorem lt_stopBefore {sign : SignAt} (member : sign ∈ inside) :
    sign.offset < stopBefore text after := by
  have listed : sign ∈ (start text).signs := by simp [region.signs_eq, member]
  cases after with
  | nil => exact Statement.offset_lt_bodyEnd listed
  | cons found after =>
      have ordered := region.signs_eq ▸ pairwise_signs text
      rw [List.pairwise_append, List.pairwise_cons, List.pairwise_append] at ordered
      exact ordered.2.1.2.2.2 sign member found List.mem_cons_self

theorem stopBefore_le {sign : SignAt} (member : sign ∈ after) :
    stopBefore text after ≤ sign.offset := by
  cases after with
  | nil => simp at member
  | cons found after =>
      have ordered := region.signs_eq ▸ pairwise_signs text
      rw [List.pairwise_append, List.pairwise_cons, List.pairwise_append, List.pairwise_cons]
        at ordered
      rcases List.mem_cons.mp member with rfl | later
      · exact le_refl _
      · exact (ordered.2.1.2.2.1.1 sign later).le

/-- Behind the region there are the signs after it. -/
theorem signs_drop :
    ((start (text.drop (stopBefore text after))).signs.map fun sign =>
      { sign with offset := sign.offset + stopBefore text after }) = after := by
  cases after with
  | nil => exact List.map_eq_nil_iff.mpr (signs_of_trails (Statement.trails_of_mem_drop text))
  | cons found after =>
      have signs_eq := region.signs_eq
      rw [← List.cons_append, ← List.append_assoc] at signs_eq
      exact (signs_split signs_eq).2

theorem kinds_drop :
    (start (text.drop (stopBefore text after))).kinds = after.map SignAt.sign := by
  conv => rhs; rw [← region.signs_drop, List.map_map]
  rfl

/-- The signs that a search in the region comes upon. -/
theorem filterMap_codeBetween :
    (Repair.codeBetween text
      (offset + ((Site.atOffset text offset).word? kind.keyword).getD 0)
      (stopBefore text after)).filterMap signAt? = inside := by
  have signs_eq := signs_after_keyword region.signs_eq
  have ordered := pairwise_code (Site.atOffset text
    (offset + ((Site.atOffset text offset).word? kind.keyword).getD 0))
  have view : (fun place : Site => if decide (place.offset < stopBefore text after) = true then
      signAt? place else none) =
        fun place => (signAt? place).filter fun sign =>
          decide (sign.offset < stopBefore text after) := by
    funext place
    rw [signAt?]
    cases place.sign? with
    | none => simp
    | some sign =>
        by_cases inner : place.offset < stopBefore text after <;> simp [inner, Option.filter_some]
  rw [Repair.codeBetween, takeWhile_offset_lt ordered, List.filterMap_filter, view,
    ← List.filter_filterMap]
  rw [signs] at signs_eq
  rw [signs_eq, List.filter_append, List.filter_eq_self.mpr, List.filter_eq_nil_iff.mpr,
    List.append_nil]
  · exact fun sign member => by simpa using region.stopBefore_le member
  · exact fun sign member => decide_eq_true (region.lt_stopBefore member)

/-- The first sign of a clause does not stand in the region of another clause. -/
theorem not_first {other : Clause} {place : Nat} (member : ⟨.clause other, place⟩ ∈ inside) :
    (Outline.ofText text).find? other ≠ some place := by
  intro found
  have ordered := region.signs_eq ▸ pairwise_signs text
  rw [List.pairwise_append, List.pairwise_cons, List.pairwise_append] at ordered
  obtain ⟨-, ⟨own, -, -, inner⟩, earlier⟩ := ordered
  have listed : (⟨.clause other, place⟩ : SignAt) ∈
      (Outline.ofText text).clauses.map ClauseAt.toSign :=
    List.mem_map.mpr ⟨⟨other, place⟩, Outline.mem_clauses_iff.mpr found, rfl⟩
  rw [region.clauses_eq, List.mem_append, List.mem_cons] at listed
  rcases listed with listed | same | listed
  · have first := earlier _ ((Sign.newcomers_sublist _ _).subset listed) _
      (List.mem_cons_of_mem _ (List.mem_append_left after member))
    exact lt_irrefl _ first
  · have after_own := own _ (List.mem_append_left after member)
    rw [same] at after_own
    exact lt_irrefl _ after_own
  · exact lt_irrefl _ (inner _ member _ ((Sign.newcomers_sublist _ _).subset listed))

/-- The signs that are left when the piece from one of them to the end of the
region is taken out. -/
theorem kinds_without {front others : List SignAt} {found : SignAt}
    (signs_eq : (start text).signs = front ++ found :: others) :
    (start (text.take found.offset ++ text.drop (stopBefore text after))).kinds =
      front.map SignAt.sign ++ after.map SignAt.sign := by
  rw [kinds, signs_without signs_eq region.ends, List.map_append, List.map_map,
    ← region.kinds_drop, kinds]
  rfl

end Region

namespace Repair

/-- A cut leaves the statement as it is when no condition begins in the region of the clause, and
takes out all of the region from the first sign on that begins one. -/
theorem exists_cutConditionOf (statement : Statement) (kind : Clause) :
    (statement.outline.find? kind = none ∧ cutConditionOf statement kind = statement) ∨
      ∃ offset before inside after, Region statement.text kind offset before inside after ∧
        ((cutConditionOf statement kind = statement ∧ Sign.Free 0 (inside.map SignAt.sign)) ∨
          ∃ kept found dropped, inside = kept ++ found :: dropped ∧
            Sign.Free 0 (kept.map SignAt.sign) ∧ ¬ Sign.Free 0 (inside.map SignAt.sign) ∧
            cutConditionOf statement kind = statement.withText
              (statement.text.take found.offset ++
                statement.text.drop (stopBefore statement.text after))) := by
  cases found : statement.outline.find? kind with
  | none => exact .inl ⟨rfl, by rw [cutConditionOf, found]⟩
  | some offset =>
      obtain ⟨before, inside, after, region⟩ := exists_region found
      refine .inr ⟨offset, before, inside, after, region, ?_⟩
      have end_eq := region.regionEnd_eq statement rfl
      have signs_eq := region.filterMap_codeBetween
      simp only [cutConditionOf, found, end_eq]
      generalize codeBetween statement.text _ (stopBefore statement.text after) =
        sites at signs_eq ⊢
      have kinds_eq (places : List Site) :
          places.filterMap sign? = (places.filterMap signAt?).map SignAt.sign := by
        rw [List.map_filterMap]
        refine List.filterMap_congr fun place _ => ?_
        rw [signAt?]
        cases place.sign? <;> rfl
      have searched := searched_of_later (statement.outline.find? .filter) 0 sites fun site member
        signed first => @Region.not_first _ _ _ _ _ _ region _ site.offset (by
          rw [← signs_eq]
          exact List.mem_filterMap.mpr ⟨site, member, by simp [signAt?, signed]⟩) first
      rcases searched with
        ⟨absent, free⟩ | ⟨front, site, back, sign, rfl, signed, begins, free, not_free⟩
      · rw [absent]
        rw [kinds_eq, signs_eq] at free
        exact .inl ⟨rfl, free⟩
      · rw [begins]
        rw [kinds_eq] at free
        rw [kinds_eq, signs_eq] at not_free
        refine .inr ⟨front.filterMap signAt?, ⟨sign, site.offset⟩, back.filterMap signAt?, ?_, free,
          not_free, rfl⟩
        rw [← signs_eq, List.filterMap_append, Sign.filterMap_cons_toList signAt?]
        simp [signAt?, signed]

theorem wellformed_cutConditionOf {statement : Statement} (whole : Wellformed statement.text)
    (kind : Clause) : Wellformed (cutConditionOf statement kind).text := by
  rcases exists_cutConditionOf statement kind with
    ⟨-, kept⟩ | ⟨offset, before, inside, after, region,
      ⟨kept, -⟩ | ⟨front, found, back, inside_eq, -, -, cut⟩⟩
  · rwa [kept]
  · rwa [kept]
  · rw [cut]
    exact whole.without (by simp [region.signs_eq, inside_eq]) region.ends

theorem wellformed_cutTrailingConditions {statement : Statement}
    (whole : Wellformed statement.text) : Wellformed (cutTrailingConditions statement).text := by
  rw [cutTrailingConditions]
  generalize conditionless = kinds
  induction kinds generalizing statement with
  | nil => exact whole
  | cons kind kinds ih => exact ih (wellformed_cutConditionOf whole kind)

end Repair

end TenantScope
