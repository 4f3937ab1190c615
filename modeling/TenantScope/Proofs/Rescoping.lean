import TenantScope.Proofs.Bare
import TenantScope.Proofs.Evenness
import TenantScope.Proofs.Lightening

/-!
# What scoping leaves for repair

A scoped statement has the regions that the statement had before, but for that of its `WHERE`, so a
statement that was left with nothing to cut and nothing to move is left so.  What is put into it are
words and one literal between blanks, which bring in no markup, and they leave it evenly spaced.
-/

namespace TenantScope

open Text Site Literal

namespace Sign

/-- Which clauses have been seen matters only as far as they are among the signs. -/
theorem takeWhile_isOld_congr {seen other : List Clause} {signs : List Sign}
    (same : ∀ kind, clause kind ∈ signs → (kind ∈ seen ↔ kind ∈ other)) :
    signs.takeWhile (isOld clause? seen) = signs.takeWhile (isOld clause? other) := by
  induction signs with
  | nil => rfl
  | cons sign signs ih =>
      have first : isOld clause? seen sign = isOld clause? other sign := by
        cases sign with
        | clause kind => simpa [isOld, clause?] using same kind List.mem_cons_self
        | junction | opening | ending => rfl
      rw [List.takeWhile_cons, List.takeWhile_cons, first,
        ih fun kind member => same kind (List.mem_cons_of_mem sign member)]

/-- The region of a clause does not depend on where the condition comes among
the signs before it. -/
theorem regionOf_of_filters {kind : Clause} {front other back : List Sign} (apart : kind ≠ .filter)
    (front_filters : ∀ found, clause found ∈ front → found = .filter)
    (other_filters : ∀ found, clause found ∈ other → found = .filter)
    (filtered : clause .filter ∈ other) (known : clause .filter ∈ front ∨ clause .filter ∉ back) :
    regionOf kind (other ++ back) = regionOf kind (front ++ back) := by
  have front_free : clause kind ∉ front := fun member => apart (front_filters kind member)
  have other_free : clause kind ∉ other := fun member => apart (other_filters kind member)
  by_cases late : clause kind ∈ back
  · obtain ⟨middle, rest, rfl, middle_free⟩ := List.eq_append_cons_of_mem late
    rw [← List.append_assoc, ← List.append_assoc,
      regionOf_append (by simp [other_free, middle_free]),
      regionOf_append (by simp [front_free, middle_free])]
    refine takeWhile_isOld_congr fun found member => ?_
    have listed {signs : List Sign} (filters : ∀ found, clause found ∈ signs → found = .filter) :
        found ∈ signs.filterMap clause? ↔ found = .filter ∧ clause .filter ∈ signs := by
      rw [mem_clauses]
      exact ⟨fun inside => ⟨filters found inside, filters found inside ▸ inside⟩,
        fun ⟨same, inside⟩ => same ▸ inside⟩
    have seen : found = .filter → clause .filter ∈ front := fun same =>
      known.resolve_right fun absent => absent (by simp [← same, member])
    simp only [List.filterMap_append, List.mem_append, listed front_filters, listed other_filters]
    tauto
  · rw [regionOf_of_not_mem (by simp [other_free, late]),
      regionOf_of_not_mem (by simp [front_free, late])]

end Sign

/-- The clauses among the signs of a text are those among its marks. -/
theorem clause_mem_kinds {text : Text} {kind : Clause} :
    .clause kind ∈ (start text).kinds ↔ ∃ mark ∈ Outline.marks text, mark.mark = .clause kind := by
  rw [kinds_eq, List.mem_filterMap]
  constructor
  · rintro ⟨site, member, signed⟩
    exact ⟨⟨.clause kind, site.offset⟩,
      mem_marks.mpr ⟨site, member, mark?_eq_some.mpr (Sign.countsAt_clause.mpr signed), rfl⟩, rfl⟩
  · rintro ⟨mark, member, mark_eq⟩
    obtain ⟨site, site_mem, marked, -⟩ := mem_marks.mp member
    rw [mark_eq] at marked
    exact ⟨site, site_mem, Sign.countsAt_clause.mp (mark?_eq_some.mp marked)⟩

namespace Scope

/-- Only the condition comes before the place where it ends. -/
theorem Opening.filter_of_mem_kinds {text : Text} {source : Nat} (opening : Opening text source) :
    ∀ found, .clause found ∈ (start text).kinds → found = .filter := by
  intro found member
  obtain ⟨mark, mark_mem, mark_eq⟩ := clause_mem_kinds.mp member
  by_contra other
  have tail : mark.mark.isTail = true := by simp [mark_eq, Mark.isTail, other]
  have early := opening.no_tail mark mark_mem tail
  have late := opening.ordered mark mark_mem found mark_eq
  omega

/-- No sign stands where a keyword does that comes after every condition. -/
theorem sign?_of_later {site : Site} (occurs : Mark.later.occursAt site = true) :
    site.sign? = none := by
  obtain ⟨keyword, member, word⟩ := List.any_eq_true.mp occurs
  have silent : ∀ keyword ∈ laterKeywords, ∀ next,
      Sign.ofWords? (keyword.takeWhile Byte.isIdentifier) next = none := by
    intro keyword member next
    simp only [laterKeywords, List.mem_cons, List.not_mem_nil, or_false] at member
    rcases member with rfl | rfl | rfl | rfl <;> rfl
  rw [sign?, Mark.spoken_of_hasWord member word, silent keyword member, ite_self]

/-- After a full stop only a keyword that is no sign ends a condition. -/
theorem Parting.parted {text before after : Text} {source : Nat}
    (parting : Parting text before after source) :
    Parted before.reverse after where
  toBreak := parting.broken
  dot dotted := by
    have ending := parting.ending
    cases ending with
    | @tail _ mark others after_marks is_tail =>
        have first : ⟨mark, 0⟩ ∈ Outline.marks after := after_marks ▸ List.mem_cons_self
        have inside : ⟨mark, before.length⟩ ∈ Outline.marks text := by
          rw [parting.marks_eq, after_marks]
          simp [MarkAt.shift]
        have here := (Mark.countsAt_iff.mp (atOffset_of_mem_marks inside).2).2.2
        have after_dot : (Site.atOffset text before.length).afterDot = true := by
          rw [parting.split]
          simp [Site.afterDot, previous?, atOffset, dotted]
        have occurs := (Mark.countsAt_iff.mp (atOffset_of_mem_marks first).2).2.1
        rw [atOffset_zero] at occurs
        cases mark with
        | later => exact sign?_of_later occurs
        | clause kind => simp [here rfl] at after_dot
        | source | combination | alternative => simp [Mark.isTail] at is_tail
    | semicolon is_blank => exact sign?_of_wordless rfl
    | blank is_blank =>
        refine sign?_of_wordless ?_
        cases after with
        | nil => rfl
        | cons space rest =>
            exact Byte.isIdentifier_of_isSpace space (is_blank space List.mem_cons_self)

section Division

variable {text before after column id : Text} {source : Source} {slot : Slot}
  (division : Division text source before after) (balanced : Balanced text)

include division balanced in
/-- The signs of a balanced text are those of the condition and those after it. -/
theorem Division.kinds_eq :
    (start text).kinds = (start before).kinds ++ (start after).kinds := by
  have parting := division.parting
  rw [kinds, parting.split, signs_start_append parting.closed (division.level_of_balanced balanced)
    parting.parted, List.map_append, List.map_map]
  rfl

variable (plain : IsColumn column) (valid : IsTenantId id)
  (chosen : slot? text column (Outline.ofText text) source = .ok (some slot))

include division balanced plain valid chosen in
/-- The signs of a filled slot are those of the condition, which has no clauses but `WHERE`, and
those after it. -/
theorem Division.exists_kinds_fill : ∃ front,
    (start (slot.fill (predicate column id))).kinds = front ++ (start after).kinds ∧
      (∀ found, .clause found ∈ front → found = .filter) ∧ .clause .filter ∈ front := by
  obtain ⟨filter, fitting, -⟩ := division.fitting chosen
  have level := fitting.level (division.level_of_balanced balanced)
  have stemmed := fitting.stemmed level
  obtain ⟨trail, blank, -, text_eq⟩ := fitting.fill_eq column id
  obtain ⟨closed, broken⟩ := fitting.closed_before plain.name valid division.parting.ending blank
  have lead_level : endDepth (start (slot.before ++ predicate column id ++ trail)) = 0 :=
    (endDepth_after_trail fitting.joint fitting.closed plain valid blank).trans level
  have lead_marks := marks_after_trail fitting.joint fitting.closed plain valid blank
  have lead_clauses (found : Clause) :
      .clause found ∈ (start (slot.before ++ predicate column id ++ trail)).kinds ↔
        .clause found ∈ (start slot.before).kinds := by
    rw [clause_mem_kinds, lead_marks, clause_mem_kinds]
  have undotted := head?_reverse_ne_dot slot.before column id blank
  refine ⟨(start (slot.before ++ predicate column id ++ trail)).kinds, ?_,
    fun found member => stemmed.filter_of_mem_kinds found ((lead_clauses found).mp member), ?_⟩
  · rw [kinds, text_eq,
      signs_start_append closed lead_level ⟨broken, fun dotted => absurd dotted undotted⟩,
      List.map_append, List.map_map]
    rfl
  · obtain ⟨mark, found, -⟩ := Option.map_eq_some_iff.mp stemmed.filter_eq
    refine (lead_clauses .filter).mpr
      (clause_mem_kinds.mpr ⟨mark, List.mem_of_find?_eq_some found, ?_⟩)
    simpa using List.find?_some found

include division balanced plain valid chosen in
/-- A tidy text with its slot filled is tidy. -/
theorem Division.tidy_fill (tidy : Repair.Tidy (start text).kinds) :
    Repair.Tidy (start (slot.fill (predicate column id))).kinds := by
  obtain ⟨front, kinds_fill, filters, filtered⟩ :=
    division.exists_kinds_fill balanced plain valid chosen
  have kinds_text := division.kinds_eq balanced
  have known : .clause .filter ∈ (start before).kinds ∨ .clause .filter ∉ (start after).kinds := by
    cases found : (Outline.ofText text).find? .filter with
    | none =>
        refine .inr fun member => ?_
        obtain ⟨sign, sign_mem, sign_eq⟩ := List.mem_map.mp
          (kinds_text ▸ List.mem_append_right _ member : .clause .filter ∈ (start text).kinds)
        rw [Outline.find?_eq_signs, Option.map_eq_none_iff, List.find?_eq_none] at found
        exact found sign sign_mem (by simp [sign_eq])
    | some filter =>
        have inside := division.filter_lt chosen found
        exact .inl (clause_mem_kinds.mpr
          ⟨_, division.parting.mem_before (mem_marks_of_find? found) rfl
          inside.le, rfl⟩)
  intro kind member
  have apart : kind ≠ .filter := by
    rintro rfl
    exact absurd member (by decide)
  rw [kinds_fill,
    Sign.regionOf_of_filters apart division.opening.filter_of_mem_kinds filters filtered known,
    ← kinds_text]
  exact tidy kind member

end Division

/-! ## The shapes of slots -/

/-- What introduces a predicate after the text of a condition. -/
def introductions : List Text :=
  [ascii " WHERE ", [Byte.blank], ascii " AND "]

/-- What comes between a predicate and the text after the condition: the white space that came
before that text, or one blank before a word of it, or nothing. -/
def IsGap (before after gap : Text) : Prop :=
  before = trimRight before ++ gap ∨ gap = [] ∨
    gap = [Byte.blank] ∧ after.head?.any Byte.isIdentifier = true

/-- How a slot comes from a text divided where its condition ends: the predicate is introduced
behind the condition, which may be put in parentheses first. -/
inductive Shape (before after : Text) : Slot → Prop
  | extended {introduction gap : Text} (listed : introduction ∈ introductions)
      (is_gap : IsGap before after gap) :
      Shape before after ⟨trimRight before ++ introduction, gap ++ after⟩
  | enclosed {head lead condition trail : Text} {filter : Nat}
      (layout : Layout before filter head lead condition trail) (nonempty : condition ≠ [])
      (is_gap : IsGap before after trail) :
      Shape before after
        ⟨head ++ lead ++ ([Byte.openParen] ++ condition ++ ascii ") AND "), trail ++ after⟩

/-- Without the white space at its end a text ends in its condition, or in its `WHERE`. -/
theorem Layout.trimRight_eq {before head lead condition trail : Text} {filter : Nat}
    (layout : Layout before filter head lead condition trail) :
    trimRight before = if condition = [] then head else head ++ lead ++ condition := by
  split
  · rename_i nothing
    have split : before = head ++ (lead ++ trail) := by simp [layout.split, nothing]
    rw [split, trimRight_append_blank (by simpa [or_imp, forall_and] using
      ⟨layout.lead_blank, layout.trail_blank⟩)]
    obtain ⟨front, written, rfl, -, name_eq⟩ := layout.filter_word
    refine trimRight_of_visible fun last last_eq => ?_
    have identifiers := isIdentifier_of_upper_eq Sign.isName_where.identifiers name_eq
    have nonempty : written ≠ [] := by
      rintro rfl
      exact Sign.isName_where.nonempty name_eq.symm
    rw [List.getLast?_append_of_ne_nil _ nonempty] at last_eq
    exact Byte.isSpace_of_isIdentifier last (identifiers last (List.mem_of_getLast? last_eq))
  · rename_i nonempty
    have split : before = head ++ lead ++ condition ++ trail := by simp [layout.split]
    rw [split, trimRight_append_blank layout.trail_blank]
    refine trimRight_of_visible fun last last_eq => layout.last_visible last ?_
    rwa [List.getLast?_append_of_ne_nil _ nonempty] at last_eq

theorem shape_newConditionSlot {before after : Text} (ends : EndsWith before after) :
    Shape before after (newConditionSlot (before ++ after) before.length) := by
  rw [newConditionSlot_eq]
  refine .extended (by decide) ?_
  split
  · rename_i longer
    refine .inr (.inr ⟨rfl, ?_⟩)
    cases ends with
    | tail after_marks =>
        exact head?_drop_of_mem_marks (after_marks ▸ List.mem_cons_self)
    | semicolon is_blank => simp [bodyEnd_of_semicolon is_blank] at longer
    | blank is_blank visible => simp [bodyEnd_of_ends (.blank is_blank visible) is_blank] at longer
  · exact .inr (.inl rfl)

section Division

variable {text before after column id : Text} {source : Source} {slot : Slot}
  (division : Division text source before after)
  (chosen : slot? text column (Outline.ofText text) source = .ok (some slot))

include division chosen in
theorem Division.shape : Shape before after slot := by
  have parting := division.parting
  rcases division.slot_cases chosen with rfl | ⟨filter, hasOr, filter_eq, inside, rfl⟩
  · exact shape_newConditionSlot parting.ending
  · obtain ⟨head, lead, condition, trail, filtered⟩ :=
      exists_filtered division.opening parting filter_eq inside
    by_cases nonempty : condition = []
    · subst nonempty
      have front_eq := filtered.trimRight_eq.trans (if_pos rfl)
      rw [conditionSlot_blank filtered.toLayout, ← front_eq]
      refine .extended (by decide) (.inl ?_)
      rw [front_eq, filtered.split]
      simp
    · have front_eq := filtered.trimRight_eq.trans (if_neg nonempty)
      have is_gap : IsGap before after trail := .inl (by rw [front_eq, filtered.split]; simp)
      rw [conditionSlot_visible filtered.toLayout nonempty, leading, if_neg nonempty]
      cases hasOr with
      | true => exact .enclosed filtered.toLayout nonempty is_gap
      | false =>
          rw [if_neg Bool.false_ne_true, ← List.append_assoc, ← front_eq]
          exact .extended (by decide) is_gap

end Division

/-! ## Filled slots of bare texts -/

section Bare

theorem bare_quoted {id : Text} (unquoted : ∀ byte ∈ id, byte.isQuote = false) :
    Bare (quoted id) := by
  obtain ⟨text_eq, literal⟩ := quoted_literal unquoted
  have code_eq : (start (quoted id)).code = [] := by
    rw [text_eq, start, code_literal _ _ _ _ _ (by decide) literal, code_nil]
  refine ⟨?_, Unfenced.of_not_mem fun tick => ?_, uncommented_quoted unquoted, by simp [code_eq]⟩
  · rw [text_eq, start, closed_literal _ _ _ _ _ (by decide) literal]
    exact closed_nil _ _ _
  · rcases List.mem_cons.mp tick with same | inside
    · exact absurd same (by decide)
    · rcases List.mem_append.mp inside with inside | same
      · exact absurd (unquoted _ inside) (by decide)
      · exact absurd (List.mem_singleton.mp same) (by decide)

theorem bare_predicate {column id : Text} (name : IsName column)
    (unquoted : ∀ byte ∈ id, byte.isQuote = false) : Bare (predicate column id) := by
  have equals : Bare (ascii " = ") := .of_plain (by decide +kernel)
  have column_bare : Bare column := .of_plain fun byte member => by
    have identifier := name.identifiers byte member
    exact ⟨⟨Byte.isQuote_of_isIdentifier byte identifier,
      Byte.marksComment_of_isIdentifier byte identifier⟩,
      fun same => absurd (same ▸ identifier) (by decide)⟩
  have compared : Bare (column ++ ([Byte.blank, Byte.equals] ++ [Byte.blank])) :=
    column_bare.append_single equals rfl
  exact predicate_eq column id ▸ compared.append_after (by decide) (bare_quoted unquoted)

/-- What introduces a predicate in a bare text is bare. -/
theorem Shape.bare {before after : Text} {slot : Slot} (shape : Shape before after slot)
    (bare : Bare before) :
    Bare slot.before := by
  cases shape with
  | extended listed is_gap =>
      have known : ∀ introduction ∈ introductions, introduction.head?.any Byte.isSingle = true ∧
          ∀ byte ∈ introduction, (byte.isQuote = false ∧ byte.marksComment = false) ∧
            byte ≠ Byte.lessThan := by decide +kernel
      exact bare.trimRight.append_single (.of_plain (known _ listed).2) (known _ listed).1
  | @enclosed head lead condition trail filter layout nonempty is_gap =>
      obtain ⟨-, lead_bare, condition_bare⟩ := layout.bare bare
      have conjunction : [Byte.openParen] ++ condition ++ ascii ") AND " =
          ([Byte.openParen] ++ condition ++ [Byte.closeParen]) ++ ascii " AND " := by
        rw [List.append_assoc _ [Byte.closeParen]]
        rfl
      rw [conjunction]
      exact lead_bare.append_single
        (condition_bare.parenthesized.append_single (.of_plain (by decide +kernel)) rfl) rfl

section Division

variable {text before after column id : Text} {source : Source} {slot : Slot}
  (division : Division text source before after) (plain : IsColumn column) (valid : IsTenantId id)
  (chosen : slot? text column (Outline.ofText text) source = .ok (some slot))

include division plain valid chosen in
/-- A bare text is bare with its slot filled. -/
theorem Division.bare_fill (bare : Bare text) : Bare (slot.fill (predicate column id)) := by
  have parting := division.parting
  rw [parting.split, Bare.append_iff parting.closed parting.broken.toSeam (parting.ending.apart _)]
    at bare
  obtain ⟨filter, fitting, -⟩ := division.fitting chosen
  obtain ⟨trail, blank, -, text_eq⟩ := fitting.fill_eq column id
  obtain ⟨closed, broken⟩ := fitting.closed_before plain.name valid parting.ending blank
  obtain ⟨back, reverse_eq, -⟩ := fitting.joint.exists_blank
  have introduced : Bare (back.reverse ++ ([] ++ [Byte.blank])) := by
    have shaped := (division.shape chosen).bare bare.1
    rwa [← slot.before.reverse_reverse, reverse_eq, List.reverse_cons] at shaped
  have extended := introduced.append_after (by decide) (bare_predicate plain.name valid.unquoted)
  rw [List.nil_append, ← List.reverse_cons, ← reverse_eq, List.reverse_reverse] at extended
  rw [text_eq, Bare.append_iff closed broken.toSeam (parting.ending.apart _),
    Bare.append_blank_iff blank]
  exact ⟨extended, bare.2⟩

end Division

end Bare

/-! ## Filled slots of evenly spaced texts -/

section Even

theorem evenlySpaced_predicate {column id : Text} (name : IsName column)
    (unquoted : ∀ byte ∈ id, byte.isQuote = false) : EvenlySpaced (predicate column id) := by
  obtain ⟨lexed, spelled⟩ := tokens_quoted unquoted
  have quoted_even : EvenlySpaced (quoted id) := by
    rw [← spelled, EvenlySpaced, Token.tokens_spell lexed]
    exact ⟨by simp [Token.Tight, Token.isGap], trivial⟩
  have equals : Holds (ascii " = ") [.byte Byte.equals] := ⟨by decide, by decide⟩
  have compared :=
    (Holds.of_word name).append equals (Seam.of_plain_head (by decide) (by decide) _ _)
  have column_visible : column.getLast?.any Byte.isSpace = false :=
    (Option.any_eq_false _ _).mpr fun last last_eq =>
      Byte.isSpace_of_isIdentifier last (name.identifiers last (List.mem_of_getLast? last_eq))
  have compared_even : EvenlySpaced (column ++ ascii " = ") :=
    (EvenlySpaced.of_word name).append (by decide) (Holds.of_word name).closed
      (Seam.of_plain_head (by decide) (by decide) _ _) (.inl column_visible)
  rw [predicate_eq, comparison]
  refine compared_even.append quoted_even compared.closed ?_ (.inr rfl)
  rw [List.reverse_append]
  exact Seam.of_plain_last (by decide) (by decide) _ _

theorem evenlySpaced_introductions : ∀ introduction ∈ introductions, EvenlySpaced introduction ∧
    introduction.head? = some Byte.blank := by
  decide +kernel

/-- What introduces a predicate in an evenly spaced text is evenly spaced. -/
theorem Shape.evenlySpaced {before after : Text} {slot : Slot} (shape : Shape before after slot)
    (even : EvenlySpaced before) (closed : Closed (start before)) : EvenlySpaced slot.before := by
  cases shape with
  | extended listed is_gap =>
      obtain ⟨blanks, blank, split⟩ := exists_trimRight_append before
      have front_closed : Closed (start before.trimRight) := closed_trimRight.mpr closed
      have front_even : EvenlySpaced before.trimRight :=
        ((EvenlySpaced.append_iff front_closed (Seam.of_blank_right blank _)).mp (split ▸ even)).1
      obtain ⟨introduction_even, head_eq⟩ := evenlySpaced_introductions _ listed
      obtain ⟨rest, rfl⟩ := List.head?_eq_some_iff.mp head_eq
      refine front_even.append introduction_even front_closed
        (Seam.of_plain_head (by decide) (by decide) _ _)
        (.inl ((Option.any_eq_false _ _).mpr getLast?_trimRight))
  | @enclosed head lead condition trail filter layout nonempty is_gap =>
      have split : before = head ++ lead ++ condition ++ trail := by simp [layout.split]
      have core_closed := layout.closed_core closed
      have condition_closed := layout.closed_condition closed
      rw [split, EvenlySpaced.append_iff core_closed (Seam.of_blank_right layout.trail_blank _),
        EvenlySpaced.append_iff layout.closed_lead layout.broken.toSeam] at even
      obtain ⟨⟨lead_even, condition_even, -⟩, -⟩ := even
      have opened : EvenlySpaced ([Byte.openParen] ++ condition) :=
        EvenlySpaced.append (by decide) condition_even (by decide)
          (Seam.of_plain_last (by decide) (by decide) [] _) (.inl rfl)
      have opened_closed : Closed (start ([Byte.openParen] ++ condition)) :=
        (@closed_start_append [Byte.openParen] _ (by decide)
          (Seam.of_plain_last (by decide) (by decide) [] _)).mpr condition_closed
      have enclosed := opened.append
        (show EvenlySpaced (ascii ") AND ") by decide +kernel) opened_closed
        (Seam.of_plain_head (by decide) (by decide) _ _) (.inr rfl)
      exact lead_even.append enclosed layout.closed_lead
        (Seam.of_plain_head (by decide) (by decide) _ _) (.inr rfl)

/-- So is what follows the predicate. -/
theorem Shape.evenlySpaced_after {before after : Text} {slot : Slot}
    (shape : Shape before after slot) (even : EvenlySpaced (before ++ after))
    (closed : Closed (start before)) (seam : Seam before.reverse after) :
    EvenlySpaced slot.after := by
  obtain ⟨before_even, after_even, apart⟩ := (EvenlySpaced.append_iff closed seam).mp even
  have gap_even {gap : Text} (is_gap : IsGap before after gap) : EvenlySpaced (gap ++ after) := by
    rcases is_gap with split | rfl | ⟨rfl, word⟩
    · obtain ⟨blanks, blank, blanks_split⟩ := exists_trimRight_append before
      obtain rfl : gap = blanks := List.append_cancel_left (split.symm.trans blanks_split)
      rw [split] at closed before_even apart
      have front_closed := closed_of_append_blank blank closed
      have gap_even :=
        ((EvenlySpaced.append_iff front_closed (Seam.of_blank_right blank _)).mp before_even).2.1
      have gap_closed : Closed (start gap) :=
        closed_of_plain _ _ fun byte member => Byte.isQuote_of_isSpace byte (blank byte member)
      refine (EvenlySpaced.append_iff gap_closed (Seam.of_blank_left (by simpa using blank) _)).mpr
        ⟨gap_even, after_even, fun space => ?_⟩
      have visible := apart space
      rw [List.getLast?_append] at visible
      cases last : gap.getLast? with
      | none => rfl
      | some byte => rwa [last] at visible
    · exact after_even
    · refine EvenlySpaced.append (by decide) after_even (by decide)
        (Seam.of_plain_last (by decide) (by decide) [] _) (.inr ((Option.any_eq_false _ _).mpr ?_))
      intro first first_eq
      rw [first_eq] at word
      exact Byte.isSpace_of_isIdentifier first word
  cases shape with
  | extended listed is_gap => exact gap_even is_gap
  | enclosed layout nonempty is_gap => exact gap_even is_gap

/-- A slot begins as the text does. -/
theorem Shape.head?_eq {before after : Text} {slot : Slot} (shape : Shape before after slot)
    (nonempty : items before ≠ []) : slot.before.head? = before.head? := by
  cases shape with
  | extended listed is_gap =>
      obtain ⟨blanks, blank, split⟩ := exists_trimRight_append before
      have front_ne : before.trimRight ≠ [] := fun nothing => by
        rw [nothing, List.nil_append] at split
        exact nonempty (items_of_blank (split ▸ blank))
      conv => rhs; rw [split]
      rw [List.head?_append_of_ne_nil _ front_ne, List.head?_append_of_ne_nil _ front_ne]
  | @enclosed head lead condition trail filter layout shown is_gap =>
      have head_ne : head ≠ [] := List.ne_nil_of_length_pos (by rw [layout.length_head]; omega)
      rw [layout.split, List.append_assoc, List.head?_append_of_ne_nil _ head_ne,
        List.head?_append_of_ne_nil _ head_ne]

section Division

variable {text before after column id : Text} {source : Source} {slot : Slot}
  (division : Division text source before after) (plain : IsColumn column) (valid : IsTenantId id)
  (chosen : slot? text column (Outline.ofText text) source = .ok (some slot))

include division chosen in
/-- A text begins as it did when its slot is filled. -/
theorem Division.head?_fill : (slot.fill (predicate column id)).head? = text.head? := by
  have nonempty := @Division.items_ne_nil _ _ _ _ division
  have before_ne : before ≠ [] := by
    rintro rfl
    exact nonempty rfl
  have head_eq := (division.shape chosen).head?_eq nonempty
  have lead_ne : slot.before ≠ [] := fun nothing => by
    rw [nothing, List.head?_nil, eq_comm, List.head?_eq_none_iff] at head_eq
    exact before_ne head_eq
  rw [Slot.fill, List.append_assoc, List.head?_append_of_ne_nil _ lead_ne, head_eq,
    division.parting.split, List.head?_append_of_ne_nil _ before_ne]

include division plain valid chosen in
/-- An evenly spaced text is evenly spaced with its slot filled. -/
theorem Division.evenlySpaced_fill (even : EvenlySpaced text) :
    EvenlySpaced (slot.fill (predicate column id)) := by
  have parting := division.parting
  rw [parting.split] at even
  have before_even := ((EvenlySpaced.append_iff parting.closed parting.broken.toSeam).mp even).1
  have shape := division.shape chosen
  have lead_even := shape.evenlySpaced before_even parting.closed
  have after_even := shape.evenlySpaced_after even parting.closed parting.broken.toSeam
  obtain ⟨filter, fitting, -⟩ := division.fitting chosen
  have word : (predicate column id).head?.any Byte.isSpace = false :=
    (Option.any_eq_false _ _).mpr fun first first_eq =>
      Byte.isSpace_of_isIdentifier first (isIdentifier_of_head?_predicate plain first_eq)
  have extended := lead_even.append
    (evenlySpaced_predicate plain.name valid.unquoted) fitting.closed
    (break_before_predicate fitting.joint column id).toSeam (.inr word)
  refine extended.append after_even
    (closed_before_trail fitting.joint fitting.closed plain.name valid) ?_
    (.inl (by rw [getLast?_append_predicate]; rfl))
  obtain ⟨trail, blank, after_eq, -⟩ := fitting.ends
  rw [after_eq, List.reverse_append]
  cases trail with
  | nil => exact (break_after_predicate column id _ parting.ending.single).toSeam
  | cons space trail =>
      have is_space := blank space List.mem_cons_self
      exact Seam.of_plain_head (Byte.isIdentifier_of_isSpace space is_space)
        (Byte.isQuote_of_isSpace space is_space) _ _

end Division

end Even

end Scope

end TenantScope
