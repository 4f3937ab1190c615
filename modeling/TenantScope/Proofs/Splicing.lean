import TenantScope.Proofs.Placement

/-!
# The marks of texts in a row

A text whose literals are closed keeps its marks whatever follows it, as long as no word and no
phrase runs on, and a text that begins afresh keeps its own.
-/

namespace TenantScope

namespace Mark

open Text

/-- What comes after a break does not change which keywords occur before it. -/
theorem hasWord_extend {mark : Mark} {keyword : Text} (member : keyword ∈ mark.keywords)
    {site : Site} {after : Text} (rest_ne : site.rest ≠ [])
    (broken : Site.Break (site.rest.reverse ++ site.back) after) :
    (site.extend after).hasWord keyword = site.hasWord keyword := by
  have spoken_eq := Site.spoken_extend rest_ne broken.toSeam
  have group_eq : ascii "GROUP" = ascii "GROU" ++ [Byte.ofChar 'P'] := rfl
  have order_eq : ascii "ORDER" = ascii "ORDE" ++ [Byte.ofChar 'R'] := rfl
  rw [Bool.eq_iff_iff]
  rcases keyword_cases member with is_name | rfl | rfl
  · rw [Site.hasWord_of_isName is_name, Site.hasWord_of_isName is_name, spoken_eq]
  · rw [Site.hasWord_phrase isName_group isName_by, Site.hasWord_phrase isName_group isName_by,
      spoken_eq]
    refine and_congr_right fun first => ?_
    exact Site.nextSpoken_extend rest_ne broken (first.trans group_eq) (by decide)
  · rw [Site.hasWord_phrase isName_order isName_by, Site.hasWord_phrase isName_order isName_by,
      spoken_eq]
    refine and_congr_right fun first => ?_
    exact Site.nextSpoken_extend rest_ne broken (first.trans order_eq) (by decide)

theorem countsAt_extend (mark : Mark) {site : Site} {after : Text} (rest_ne : site.rest ≠ [])
    (broken : Site.Break (site.rest.reverse ++ site.back) after) :
    mark.countsAt (site.extend after) = mark.countsAt site := by
  have occurs_eq : mark.occursAt (site.extend after) = mark.occursAt site := by
    rw [Bool.eq_iff_iff, occursAt, occursAt, List.any_eq_true, List.any_eq_true]
    refine exists_congr fun keyword => and_congr_right fun member => ?_
    rw [hasWord_extend member rest_ne broken]
  rw [countsAt, countsAt, occurs_eq]
  rfl

/-- What comes before a seam does not change which keywords occur after it. -/
theorem occursAt_precede (mark : Mark) {site : Site} {before : Text} (offset : Nat)
    (begins : site.back = [] → site.rest.head?.any Byte.isIdentifier = true →
      before.head?.any Byte.isIdentifier = false) :
    mark.occursAt (site.precede before offset) = mark.occursAt site := by
  have spoken_eq := Site.spoken_precede offset begins
  have next_eq : (site.precede before offset).nextSpoken = site.nextSpoken := rfl
  rw [Bool.eq_iff_iff, occursAt, occursAt, List.any_eq_true, List.any_eq_true]
  refine exists_congr fun keyword => and_congr_right fun member => ?_
  rcases keyword_cases member with is_name | rfl | rfl
  · rw [Site.hasWord_of_isName is_name, Site.hasWord_of_isName is_name, spoken_eq]
  · rw [Site.hasWord_phrase isName_group isName_by, Site.hasWord_phrase isName_group isName_by,
      spoken_eq, next_eq]
  · rw [Site.hasWord_phrase isName_order isName_by, Site.hasWord_phrase isName_order isName_by,
      spoken_eq, next_eq]

end Mark

namespace Site

open Mark

theorem mark?_congr {site other : Site}
    (same : ∀ mark : Mark, mark.countsAt site = mark.countsAt other) :
    site.mark? = other.mark? := by
  unfold mark?
  exact congrArg (Mark.all.find? ·) (funext same)

/-- The marks of two texts in a row are those of the one and those of the other. -/
theorem marks_append {back text after : Text} (offset depth : Nat)
    (closed : Closed ⟨back, text, offset, depth⟩) (broken : Break (text.reverse ++ back) after) :
    marks ⟨back, text ++ after, offset, depth⟩ =
      marks ⟨back, text, offset, depth⟩ ++
        marks ⟨text.reverse ++ back, after, offset + text.length,
          endDepth ⟨back, text, offset, depth⟩⟩ := by
  refine filterMap_code_append offset depth closed broken.toSeam fun site rest_ne whole => ?_
  have mark_eq : (site.extend after).mark? = site.mark? :=
    mark?_congr fun mark => countsAt_extend mark rest_ne (whole ▸ broken)
  rw [markAt?, markAt?, mark_eq]
  rfl

end Site

/-- The same mark in a text with more before it. -/
def MarkAt.shift (offset : Nat) (mark : MarkAt) : MarkAt :=
  { mark with offset := mark.offset + offset }

namespace Site

open Mark Literal

/-- A text does not begin with a keyword of the outline that a full stop just before it would make
part of a name. -/
def Undotted (before text : Text) : Prop :=
  before.head? = some Byte.dot →
    ∀ mark : Mark, mark.inOutline = true → mark.occursAt (start text) = false

/-- The same marks count at a place whatever comes before the text. -/
theorem countsAt_precede {before text : Text} (seam : Seam before text)
    (undotted : Undotted before text) (mark : Mark) {site : Site} (offset : Nat)
    (whole : site.back.reverse ++ site.rest = text) :
    mark.countsAt (site.precede before offset) = mark.countsAt site := by
  cases back_eq : site.back with
  | cons byte back =>
      have occurs_eq : mark.occursAt (site.precede before offset) = mark.occursAt site :=
        occursAt_precede mark offset fun empty => by simp [back_eq] at empty
      rw [countsAt, countsAt, occurs_eq]
      simp [afterDot, previous?, precede, back_eq]
  | nil =>
      have rest_eq : site.rest = text := by simpa [back_eq] using whole
      have occurs_eq : mark.occursAt (site.precede before offset) = mark.occursAt site :=
        occursAt_precede mark offset fun _ word => Bool.eq_false_iff.mpr fun runs_on => by
          rw [rest_eq, seam.word runs_on] at word
          simp at word
      have start_eq : mark.occursAt site = mark.occursAt (start text) := by
        obtain ⟨back, rest, place, depth⟩ := site
        simp only at back_eq rest_eq
        subst back_eq rest_eq
        rfl
      have fresh : site.afterDot = false := by simp [afterDot, previous?, back_eq]
      have preceded : (site.precede before offset).afterDot = (before.head? == some Byte.dot) := by
        simp [afterDot, previous?, precede, back_eq]
      have depth_eq : (site.precede before offset).depth = site.depth := rfl
      rw [countsAt, countsAt, occurs_eq, fresh, preceded, depth_eq]
      by_cases dotted : before.head? = some Byte.dot ∧ mark.inOutline = true
      · simp [start_eq, undotted dotted.1 mark dotted.2]
      · have harmless : (mark.inOutline && before.head? == some Byte.dot) = false := by
          rw [Bool.and_eq_false_imp]
          exact fun in_outline => by simpa using fun dot => dotted ⟨dot, in_outline⟩
        simp [harmless]

/-- A text that begins afresh has its own marks whatever comes before it. -/
theorem marks_of_seam {before text : Text} (seam : Seam before text)
    (undotted : Undotted before text) (offset depth : Nat) :
    marks ⟨before, text, offset, depth⟩ =
      (marks ⟨[], text, 0, depth⟩).map (MarkAt.shift offset) := by
  refine filterMap_code_of_seam seam offset depth fun site whole => ?_
  have mark_eq : (site.precede before offset).mark? = site.mark? :=
    mark?_congr fun mark => countsAt_precede seam undotted mark offset whole
  rw [markAt?, markAt?, mark_eq, Option.map_map]
  rfl

theorem marks_cons (back rest : Text) {byte : Byte} (plain : byte.isQuote = false)
    (offset depth : Nat) :
    marks ⟨back, byte :: rest, offset, depth⟩ =
      (markAt? ⟨back, byte :: rest, offset, depth⟩).toList ++
        marks ⟨byte :: back, rest, offset + 1, depthAfter byte depth⟩ := by
  rw [marks, code_cons _ _ _ _ plain, List.filterMap_cons, marks]
  cases markAt? ⟨back, byte :: rest, offset, depth⟩ <;> rfl

theorem markAt?_of_depth {site : Site} (inside : site.depth ≠ 0) : site.markAt? = none := by
  rw [markAt?, Option.map_eq_none_iff]
  cases found : site.mark? with
  | none => rfl
  | some mark => exact absurd (countsAt_iff.mp (mark?_eq_some.mp found)).1 inside

/-- With more parentheses open no mark is gained. -/
theorem marks_sublist {back text : Text} (offset : Nat) {depth deeper : Nat}
    (le : depth ≤ deeper) :
    (marks ⟨back, text, offset, deeper⟩).Sublist (marks ⟨back, text, offset, depth⟩) := by
  induction back, text using lexeme_induction .standard generalizing offset depth deeper with
  | nil back => simp [marks, code_nil]
  | code back byte rest plain ih =>
      have after_le : depthAfter byte depth ≤ depthAfter byte deeper := by
        unfold depthAfter
        split
        · omega
        · split <;> omega
      rw [marks_cons _ _ plain, marks_cons _ _ plain]
      refine List.Sublist.append ?_ (ih (offset + 1) after_le)
      by_cases outside : deeper = 0
      · obtain rfl : depth = deeper := by omega
        exact List.Sublist.refl _
      · rw [markAt?_of_depth
          (show Site.depth ⟨back, byte :: rest, offset, deeper⟩ ≠ 0 from outside)]
        exact List.nil_sublist _
  | literal back mark literal rest quote closed ih =>
      simp only [marks] at ih ⊢
      rw [code_literal _ _ _ _ _ quote closed, code_literal _ _ _ _ _ quote closed]
      exact ih _ le
  | unclosed back mark rest quote unclosed =>
      simp [marks, code_unclosed _ _ _ _ quote unclosed]

/-! ## Parts of a text -/

/-- Before a place outside literals all literals are closed, and the place is as
deep as they leave it. -/
theorem exists_closed_of_mem_code {back text : Text} {offset depth : Nat} {site : Site}
    (member : site ∈ code ⟨back, text, offset, depth⟩) :
    ∃ before, text = before ++ site.rest ∧ Closed ⟨back, before, offset, depth⟩ ∧
      site = ⟨before.reverse ++ back, site.rest, offset + before.length,
        endDepth ⟨back, before, offset, depth⟩⟩ := by
  induction back, text using lexeme_induction .standard generalizing offset depth with
  | nil back => simp [code_nil] at member
  | code back byte rest plain ih =>
      rw [code_cons _ _ _ _ plain] at member
      rcases List.mem_cons.mp member with rfl | member
      · exact ⟨[], rfl, closed_nil _ _ _, by simp [endDepth_nil]⟩
      · obtain ⟨before, text_eq, closed, site_eq⟩ := ih member
        refine ⟨byte :: before, by rw [List.cons_append, ← text_eq],
          (closed_cons _ _ _ _ plain).mpr closed, site_eq.trans ?_⟩
        rw [endDepth_cons _ _ _ _ plain]
        simp [Nat.add_assoc, Nat.add_comm 1]
  | literal back mark literal rest quote closed ih =>
      rw [code_literal _ _ _ _ _ quote closed] at member
      obtain ⟨before, text_eq, before_closed, site_eq⟩ := ih member
      have still_closed : closing? mark (escapesAfter .standard back mark) (literal ++ before) =
          some literal.length := by
        have whole : closing? mark (escapesAfter .standard back mark)
            (literal ++ before ++ site.rest) = some literal.length := by
          rwa [List.append_assoc, ← text_eq]
        exact closing?_of_append whole (by simp)
      refine ⟨mark :: (literal ++ before), by rw [text_eq]; simp,
        (closed_literal _ _ _ _ _ quote still_closed).mpr before_closed, site_eq.trans ?_⟩
      rw [endDepth_literal _ _ _ _ _ quote still_closed]
      simp [Nat.add_assoc, Nat.add_comm 1]
  | unclosed back mark rest quote unclosed =>
      simp [code_unclosed _ _ _ _ quote unclosed] at member

/-- A text whose literals are all closed has no unclosed ones before bytes without quotation
marks. -/
theorem closed_of_append_plain {back text after : Text} {offset depth : Nat}
    (plain_after : ∀ byte ∈ after, byte.isQuote = false)
    (closed : Closed ⟨back, text ++ after, offset, depth⟩) :
    Closed ⟨back, text, offset, depth⟩ := by
  induction back, text using lexeme_induction .standard generalizing offset depth with
  | nil back => exact closed_nil _ _ _
  | code back byte rest plain ih =>
      rw [List.cons_append, closed_cons _ _ _ _ plain] at closed
      exact (closed_cons _ _ _ _ plain).mpr (ih closed)
  | literal back mark literal rest quote literal_closed ih =>
      have still_closed : closing? mark (escapesAfter .standard back mark)
          (literal ++ (rest ++ after)) = some literal.length := by
        rw [← List.append_assoc]
        refine closing?_append literal_closed after fun head_eq => ?_
        have plain_mark := plain_after mark (List.mem_of_head? head_eq)
        rw [quote] at plain_mark
        simp at plain_mark
      rw [List.cons_append, List.append_assoc, closed_literal _ _ _ _ _ quote still_closed]
        at closed
      exact (closed_literal _ _ _ _ _ quote literal_closed).mpr (ih closed)
  | unclosed back mark rest quote unclosed =>
      refine absurd closed (not_closed_unclosed _ _ _ _ quote
        (closing?_append_eq_none unclosed fun member => ?_))
      rw [plain_after mark member] at quote
      simp at quote

/-- A text without quotation marks and parentheses leaves the depth as it is. -/
theorem endDepth_of_plain {back text : Text} (offset depth : Nat)
    (plain : ∀ byte ∈ text, byte.isQuote = false)
    (unnested : ∀ byte ∈ text, byte ≠ Byte.openParen ∧ byte ≠ Byte.closeParen) :
    endDepth ⟨back, text, offset, depth⟩ = depth := by
  induction text generalizing back offset with
  | nil => exact endDepth_nil _ _ _
  | cons byte rest ih =>
      rw [List.forall_mem_cons] at plain unnested
      have same_depth : depthAfter byte depth = depth := by simp [depthAfter, unnested.1]
      rw [endDepth_cons _ _ _ _ plain.1, same_depth]
      exact ih _ plain.2 unnested.2

/-- A text without bytes of words has no marks. -/
theorem marks_of_wordless {back text : Text} (offset depth : Nat)
    (wordless : ∀ byte ∈ text, byte.isIdentifier = false) :
    marks ⟨back, text, offset, depth⟩ = [] := by
  refine List.eq_nil_iff_forall_not_mem.mpr fun mark member => ?_
  obtain ⟨site, site_mem, marked, -⟩ := mem_marks.mp member
  have occurs := (countsAt_iff.mp (mark?_eq_some.mp marked)).2.1
  obtain ⟨-, byte, rest, rest_eq, word⟩ := exists_of_spoken_ne (spoken_ne_of_occursAt occurs)
  obtain ⟨before, text_eq, -, -⟩ := exists_closed_of_mem_code site_mem
  have plain := wordless byte (by rw [text_eq, rest_eq]; simp)
  rw [word] at plain
  simp at plain

theorem markAt?_of_spoken {site : Site} (silent : site.spoken = []) : site.markAt? = none := by
  rw [markAt?, Option.map_eq_none_iff]
  cases found : site.mark? with
  | none => rfl
  | some mark =>
      exact absurd silent
        (spoken_ne_of_occursAt (countsAt_iff.mp (mark?_eq_some.mp found)).2.1)

/-- A byte that belongs to no word makes no mark. -/
theorem marks_plain (back rest : Text) {byte : Byte} (identifier : byte.isIdentifier = false)
    (quote : byte.isQuote = false) (offset depth : Nat) :
    marks ⟨back, byte :: rest, offset, depth⟩ =
      marks ⟨byte :: back, rest, offset + 1, depthAfter byte depth⟩ := by
  rw [marks_cons _ _ quote, markAt?_of_spoken (by simp [spoken, identifier, Text.upper])]
  rfl

theorem marks_literal (back literal rest : Text) {mark : Byte} (quote : mark.isQuote = true)
    (closed : closing? mark (escapesAfter .standard back mark) (literal ++ rest) =
      some literal.length) (offset depth : Nat) :
    marks ⟨back, mark :: (literal ++ rest), offset, depth⟩ =
      marks ⟨literal.reverse ++ mark :: back, rest, offset + (literal.length + 1), depth⟩ := by
  rw [marks, code_literal _ _ _ _ _ quote closed, marks]

/-- In the middle of a word no mark stands. -/
theorem marks_inside {written : Text} (after : Text)
    (identifiers : ∀ byte ∈ written, byte.isIdentifier = true) {back : Text}
    (inside : back.head?.any Byte.isIdentifier = true) (offset depth : Nat) :
    marks ⟨back, written ++ after, offset, depth⟩ =
      marks ⟨written.reverse ++ back, after, offset + written.length, depth⟩ := by
  induction written generalizing back offset with
  | nil => rfl
  | cons byte written ih =>
      rw [List.forall_mem_cons] at identifiers
      have silent : spoken ⟨back, byte :: (written ++ after), offset, depth⟩ = [] := by
        simp [spoken, afterIdentifier, previous?, inside]
      have same_depth : depthAfter byte depth = depth := by
        simp [depthAfter, Byte.depthless_of_isIdentifier byte identifiers.1]
      rw [List.cons_append, marks_cons _ _ (Byte.isQuote_of_isIdentifier byte identifiers.1),
        markAt?_of_spoken silent, same_depth, Option.toList_none, List.nil_append,
        ih identifiers.2 (by simpa using identifiers.1)]
      simp [Nat.add_assoc, Nat.add_comm 1]

/-- A word makes at most one mark, at its beginning. -/
theorem marks_word {written : Text} (after : Text) (name : Text.IsName written) (back : Text)
    (offset depth : Nat) :
    marks ⟨back, written ++ after, offset, depth⟩ =
      (markAt? ⟨back, written ++ after, offset, depth⟩).toList ++
        marks ⟨written.reverse ++ back, after, offset + written.length, depth⟩ := by
  cases written with
  | nil => exact absurd rfl name.nonempty
  | cons byte written =>
      obtain ⟨word, rest_words⟩ := List.forall_mem_cons.mp name.identifiers
      have same_depth : depthAfter byte depth = depth := by
        simp [depthAfter, Byte.depthless_of_isIdentifier byte word]
      rw [List.cons_append, marks_cons _ _ (Byte.isQuote_of_isIdentifier byte word), same_depth,
        marks_inside after rest_words (by simpa using word)]
      simp [Nat.add_assoc, Nat.add_comm 1]

/-! ## White space at the end -/

section Blank

variable {text blank : Text} (is_blank : ∀ byte ∈ blank, byte.isSpace = true)

include is_blank in
theorem marks_of_blank (back : Text) (offset depth : Nat) :
    marks ⟨back, blank, offset, depth⟩ = [] :=
  marks_of_wordless offset depth fun byte member =>
    Byte.isIdentifier_of_isSpace byte (is_blank byte member)

include is_blank in
theorem endDepth_of_blank (back : Text) (offset depth : Nat) :
    endDepth ⟨back, blank, offset, depth⟩ = depth :=
  endDepth_of_plain offset depth
    (fun byte member => Byte.isQuote_of_isSpace byte (is_blank byte member))
    fun byte member => Byte.depthless_of_isSpace byte (is_blank byte member)

include is_blank in
theorem closed_append_blank (closed : Closed (start text)) : Closed (start (text ++ blank)) := by
  rw [start, closed_append 0 0 closed (Seam.of_blank_right is_blank _)]
  exact closed_of_plain _ _ fun byte member => Byte.isQuote_of_isSpace byte (is_blank byte member)

include is_blank in
theorem closed_of_append_blank (closed : Closed (start (text ++ blank))) : Closed (start text) :=
  closed_of_append_plain
    (fun byte member => Byte.isQuote_of_isSpace byte (is_blank byte member)) closed

include is_blank in
theorem endDepth_append_blank (closed : Closed (start text)) :
    endDepth (start (text ++ blank)) = endDepth (start text) := by
  rw [start, endDepth_append 0 0 closed (Seam.of_blank_right is_blank _),
    endDepth_of_blank is_blank]
  rfl

include is_blank in
theorem marks_append_blank (closed : Closed (start text)) :
    (start (text ++ blank)).marks = (start text).marks := by
  rw [start, marks_append 0 0 closed (Break.of_blank_right is_blank _), marks_of_blank is_blank,
    List.append_nil]
  rfl

theorem closed_trimRight : Closed (start text.trimRight) ↔ Closed (start text) := by
  obtain ⟨trail, is_blank, split⟩ := Text.exists_trimRight_append text
  conv => rhs; rw [split]
  exact ⟨closed_append_blank is_blank, closed_of_append_blank is_blank⟩

theorem endDepth_trimRight (closed : Closed (start text)) :
    endDepth (start text.trimRight) = endDepth (start text) := by
  obtain ⟨trail, is_blank, split⟩ := Text.exists_trimRight_append text
  conv => rhs; rw [split, endDepth_append_blank is_blank (closed_trimRight.mpr closed)]

theorem marks_trimRight (closed : Closed (start text)) :
    (start text.trimRight).marks = (start text).marks := by
  obtain ⟨trail, is_blank, split⟩ := Text.exists_trimRight_append text
  conv => rhs; rw [split, marks_append_blank is_blank (closed_trimRight.mpr closed)]

end Blank

/-! ## Whole texts in a row -/

theorem Undotted.of_last {before : Text} (other : before.head? ≠ some Byte.dot) (text : Text) :
    Undotted before text :=
  fun dotted => absurd dotted other

section Start

variable {text after : Text} (closed : Closed (start text))

include closed in
theorem marks_start_append (broken : Break text.reverse after)
    (undotted : Undotted text.reverse after) :
    (start (text ++ after)).marks =
      (start text).marks ++
        (marks ⟨[], after, 0, endDepth (start text)⟩).map (MarkAt.shift text.length) := by
  have broken' : Break (text.reverse ++ []) after := by simpa using broken
  rw [start, marks_append 0 0 closed broken',
    marks_of_seam broken'.toSeam (by simpa using undotted), Nat.zero_add]
  rfl

end Start

end Site

end TenantScope
