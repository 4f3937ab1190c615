import TenantScope.Proofs.Comments
import TenantScope.Proofs.Nesting
import TenantScope.Proofs.Stems

/-!
# Slots of a statement

What comes before a slot is a stem, whichever way the slot was chosen: after a new `WHERE`, after
one without a condition, after a condition, or after a condition put in parentheses.
-/

namespace TenantScope

namespace Scope

open Text Site Literal

/-- How the text before a slot comes from the text before the end of a condition: it is a stem if no
parenthesis is open at its end, and it has no comments of its own. -/
structure Approach (before stem : Text) (source filter : Nat) : Prop where
  closed : Closed (start stem)
  joint : Joint filter stem
  level : endDepth (start before) = 0 → endDepth (start stem) = 0
  stemmed : endDepth (start stem) = 0 → Stem stem source filter
  comments : Uncommented (start stem) ↔ Uncommented (start before)

/-- How a slot lies in a text divided where its condition ends: the condition before the slot begins
with the words given, and after the slot come white space and the text after the condition. -/
structure Fitting (before after : Text) (slot : Slot) (words : Text) (source filter : Nat) : Prop
    extends Approach before slot.before source filter where
  begins : ∃ lead, (∀ byte ∈ lead, byte.isSpace = true) ∧
    slot.before.drop (filter + 5) = lead ++ words
  visible : ∀ byte, words.head? = some byte → byte.isSpace = false
  ends : ∃ trail, (∀ byte ∈ trail, byte.isSpace = true) ∧ slot.after = trail ++ after ∧
    ((∀ byte ∈ after, byte.isSpace = true) → trail = [])

/-- The stem has an `OR` after its `WHERE`. -/
def Alternated (stem : Text) (filter : Nat) : Prop :=
  ∃ mark ∈ Outline.marks stem, mark.mark = .alternative ∧ filter + 5 ≤ mark.offset

/-- After its `WHERE` a stem has an `OR` where the text there has one. -/
theorem alternated_of_marks {stem head : Text} {filter offset : Nat} {marks : List MarkAt}
    (marks_eq : Outline.marks stem = Outline.marks head ++ marks.map (MarkAt.shift offset))
    (head_length : head.length = filter + 5) (behind : head.length ≤ offset) :
    Alternated stem filter ↔ ∃ mark ∈ marks, mark.mark = .alternative := by
  rw [Alternated, marks_eq]
  constructor
  · rintro ⟨mark, member, mark_eq, after_filter⟩
    rcases List.mem_append.mp member with member | member
    · have early := lt_length_of_mem_marks member
      omega
    · obtain ⟨shifted, shifted_mem, rfl⟩ := List.mem_map.mp member
      exact ⟨shifted, shifted_mem, mark_eq⟩
  · rintro ⟨mark, member, mark_eq⟩
    refine ⟨_, List.mem_append_right _ (List.mem_map_of_mem member), mark_eq, ?_⟩
    simp only [MarkAt.shift]
    omega

/-- No white space comes before the end of a body. -/
theorem EndsWith.tight {front trail after : Text} (ends : EndsWith (front ++ trail) after)
    (trail_blank : ∀ byte ∈ trail, byte.isSpace = true)
    (blank : ∀ byte ∈ after, byte.isSpace = true) : trail = [] := by
  rcases List.eq_nil_or_concat trail with rfl | ⟨others, last, rfl⟩
  · rfl
  · have visible := (ends.visible blank last (by simp)).1
    simp [trail_blank last (by simp)] at visible

theorem newConditionSlot_eq (before after : Text) :
    newConditionSlot (before ++ after) before.length =
      ⟨trimRight before ++ ascii " WHERE ",
        (if before.length < Statement.bodyEnd (before ++ after) then [Byte.blank] else []) ++
          after⟩ := by
  simp [newConditionSlot]

/-- The slot for a new condition. -/
theorem fitting_newConditionSlot {before after : Text} {source : Nat}
    (opening : Opening before source) (ends : EndsWith before after)
    (unfiltered : ∀ mark ∈ Outline.marks before, mark.mark ≠ .clause .filter) :
    Fitting before after (newConditionSlot (before ++ after) before.length) [] source
        ((trimRight before).length + 1) ∧
      (endDepth (start (newConditionSlot (before ++ after) before.length).before) = 0 →
        ¬ Alternated (newConditionSlot (before ++ after) before.length).before
          ((trimRight before).length + 1)) := by
  rw [newConditionSlot_eq]
  obtain ⟨blanks, blank, split⟩ := exists_trimRight_append before
  have core_closed : Closed (start (trimRight before)) := closed_trimRight.mpr opening.closed
  have core_marks : Outline.marks (trimRight before) = Outline.marks before :=
    marks_trimRight opening.closed
  have core_level : endDepth (start (trimRight before)) = endDepth (start before) :=
    endDepth_trimRight opening.closed
  have core_comments : Uncommented (start (trimRight before)) ↔ Uncommented (start before) := by
    conv => rhs; rw [split]
    exact (uncommented_append_blank core_closed blank).symm
  have core : Opening (trimRight before) source :=
    opening.of_marks_eq core_closed core_marks
  obtain ⟨longer, level_eq, marks_eq⟩ := core.filter
  rw [core_level] at level_eq marks_eq
  have text_eq : trimRight before ++ ascii " WHERE " =
      (trimRight before ++ [Byte.blank]) ++ (ascii "WHERE" ++ [Byte.blank]) := by
    rw [List.append_assoc]
    rfl
  have joint : Joint ((trimRight before).length + 1) (trimRight before ++ ascii " WHERE ") := by
    rw [text_eq]
    exact .filter (by simp) (by decide)
  refine ⟨⟨⟨longer.closed, joint, fun level => level_eq.trans level,
    fun level => ⟨longer, level, joint, ?_⟩, ?_⟩, ⟨[Byte.blank], by decide +kernel, ?_⟩, by simp,
    ?_⟩, ?_⟩
  · have none_there : (Outline.marks (trimRight before)).find?
        (fun mark => mark.mark == .clause .filter) = none := by
      refine List.find?_eq_none.mpr fun mark member => ?_
      simpa using unfiltered mark (core_marks ▸ member)
    rw [marks_eq (level_eq.symm.trans level), List.find?_append, none_there]
    rfl
  · exact (uncommented_append_plain core_closed (break_before_filter _).toSeam
      (by decide +kernel)).trans core_comments
  · have drop_eq :
      (trimRight before ++ ascii " WHERE ").drop ((trimRight before).length + (1 + 5)) =
        (ascii " WHERE ").drop 6 := by
      rw [List.drop_append]
      simp
    exact drop_eq
  · refine ⟨if before.length < Statement.bodyEnd (before ++ after) then [Byte.blank] else [],
      ?_, rfl, fun after_blank => ?_⟩
    · split <;> decide +kernel
    · rw [bodyEnd_of_ends ends after_blank, if_neg (Nat.lt_irrefl _)]
  · rintro level ⟨mark, member, mark_eq, after_filter⟩
    rw [marks_eq (level_eq.symm.trans level), List.mem_append, List.mem_singleton] at member
    rcases member with member | rfl
    · have early := lt_length_of_mem_marks member
      omega
    · simp at mark_eq

/-! ## The slot of a condition -/

/-- What comes before the predicate in a condition that is extended. -/
def leading (condition : Text) (hasOr : Bool) : Text :=
  if condition = [] then []
  else if hasOr then [Byte.openParen] ++ condition ++ ascii ") AND "
  else condition ++ ascii " AND "

section Extended

variable {before after head lead condition trail : Text} {source filter : Nat}

theorem slice_region (layout : Layout before filter head lead condition trail) (after : Text) :
    Statement.slice (before ++ after) (filter + 5) before.length =
      lead ++ (condition ++ trail) := by
  have length_eq := layout.length_head
  rw [Statement.slice, layout.split, List.append_assoc, ← length_eq, List.drop_left]
  refine List.take_left' ?_
  rw [@List.length_append _ head]
  omega

/-- A condition that is blank leaves its white space to the text after the slot. -/
theorem conditionSlot_blank (layout : Layout before filter head lead [] trail) (after : Text)
    (hasOr : Bool) :
    conditionSlot (before ++ after) (filter + 5) before.length hasOr =
      ⟨head ++ [Byte.blank], (lead ++ trail) ++ after⟩ := by
  have region_blank : ∀ byte ∈ lead ++ ([] ++ trail), byte.isSpace = true := by
    simpa [or_imp, forall_and] using ⟨layout.lead_blank, layout.trail_blank⟩
  have nothing_left : trimRight (lead ++ ([] ++ trail)) = [] :=
    (trimRight_append_blank region_blank []).trans rfl
  have length_eq := layout.length_head
  unfold conditionSlot
  dsimp only
  rw [slice_region layout after, nothing_left]
  simp only [List.length_nil, Nat.add_zero, Nat.le_add_right, if_true, layout.split, ← length_eq,
    List.append_assoc, List.take_left, List.drop_left, List.nil_append]

/-- A condition that is extended is left without the white space after it. -/
theorem conditionSlot_visible (layout : Layout before filter head lead condition trail)
    (nonempty : condition ≠ []) (after : Text) (hasOr : Bool) :
    conditionSlot (before ++ after) (filter + 5) before.length hasOr =
      ⟨head ++ lead ++ leading condition hasOr, trail ++ after⟩ := by
  obtain ⟨first, rest, condition_eq⟩ := List.exists_cons_of_ne_nil nonempty
  have first_visible := layout.first_visible first (by simp [condition_eq])
  have spaces : (lead ++ (condition ++ trail)).takeWhile Byte.isSpace = lead := by
    rw [List.takeWhile_append_of_pos layout.lead_blank, condition_eq, List.cons_append,
      List.takeWhile_cons_of_neg (by simp [first_visible]), List.append_nil]
  have kept : trimRight (lead ++ (condition ++ trail)) = lead ++ condition := by
    rw [← List.append_assoc, trimRight_append_blank layout.trail_blank, trimRight_of_visible]
    intro byte last_eq
    rw [List.getLast?_append_of_ne_nil _ nonempty] at last_eq
    exact layout.last_visible byte last_eq
  have length_eq := layout.length_head
  have length_pos := List.length_pos_iff.mpr nonempty
  have split : before ++ after = head ++ lead ++ condition ++ (trail ++ after) := by
    simp [layout.split]
  have first_at : filter + 5 + lead.length = (head ++ lead).length := by
    rw [List.length_append, length_eq]
  have last_at : filter + 5 + (lead ++ condition).length = (head ++ lead ++ condition).length := by
    simp only [List.length_append, length_eq]
    omega
  have middle :
      Statement.slice (head ++ lead ++ condition ++ (trail ++ after)) (head ++ lead).length
        (head ++ lead ++ condition).length = condition := by
    rw [Statement.slice, List.append_assoc (head ++ lead), List.drop_left]
    refine List.take_left' ?_
    rw [@List.length_append _ (head ++ lead)]
    omega
  have front : (head ++ lead ++ condition ++ (trail ++ after)).take (head ++ lead).length =
      head ++ lead := by
    rw [List.append_assoc (head ++ lead), List.take_left]
  have longer : ¬ (head ++ lead ++ condition).length ≤ (head ++ lead).length := by
    rw [@List.length_append _ (head ++ lead)]
    omega
  unfold conditionSlot
  dsimp only
  rw [slice_region layout after, spaces, kept, first_at, last_at, if_neg longer, split, middle,
    front, List.take_left, List.drop_left, leading, if_neg nonempty]
  cases hasOr <;> simp

/-- No comment begins before a condition and ends in it. -/
theorem Layout.apart (layout : Layout before filter head lead condition trail) (rest : Text) :
    Apart (head ++ lead).reverse rest := by
  refine apart_of_last (fun byte last_eq => ?_) rest
  rcases layout.last_byte last_eq with word | space
  · exact Byte.marksComment_of_isIdentifier byte word
  · exact Byte.marksComment_of_isSpace byte space

variable (filtered : Filtered before source filter head lead condition trail)

include filtered in
theorem Filtered.comments_core :
    Uncommented (start (head ++ lead ++ condition)) ↔ Uncommented (start before) := by
  have split : before = head ++ lead ++ condition ++ trail := by simp [filtered.split]
  conv => rhs; rw [split]
  exact (uncommented_append_blank (filtered.closed_core filtered.opening.closed)
    filtered.trail_blank).symm

include filtered in
/-- The text through a `WHERE` without a condition. -/
theorem Filtered.approach_blank (nothing : condition = []) :
    Approach before (head ++ [Byte.blank]) source filter ∧
      ¬ Alternated (head ++ [Byte.blank]) filter := by
  have blank : ∀ byte ∈ [Byte.blank], byte.isSpace = true := by decide +kernel
  have opening := filtered.opening_head
  have marks_eq : Outline.marks (head ++ [Byte.blank]) = Outline.marks head :=
    marks_append_blank blank opening.closed
  have level : endDepth (start (head ++ [Byte.blank])) = 0 :=
    (endDepth_append_blank blank opening.closed).trans filtered.level
  have longer : Opening (head ++ [Byte.blank]) source :=
    opening.of_marks_eq (closed_append_blank blank opening.closed) marks_eq
  have joint : Joint filter (head ++ [Byte.blank]) := by
    obtain ⟨front, written, rfl, length_eq, name_eq⟩ := filtered.filter_word
    rw [List.append_assoc]
    exact .filter length_eq name_eq
  refine ⟨⟨longer.closed, joint, fun _ => level, fun _ => ⟨longer, level, joint, ?_⟩, ?_⟩, ?_⟩
  · rw [marks_eq]
    exact filtered.find_head filtered.filter_eq (Nat.le_refl _)
  · have core := filtered.comments_core
    rw [nothing, List.append_nil] at core
    rw [← core, uncommented_append_blank opening.closed blank,
      uncommented_append_blank opening.closed filtered.lead_blank]
  · rintro ⟨mark, member, -, after_filter⟩
    have early := lt_length_of_mem_marks (marks_eq ▸ member)
    have length_eq := filtered.length_head
    omega

include filtered in
/-- The text through the condition and an `AND` has the alternatives of the condition. -/
theorem Filtered.approach_conjunction :
    Approach before (head ++ lead ++ condition ++ ascii " AND ") source filter ∧
      (Alternated (head ++ lead ++ condition ++ ascii " AND ") filter ↔
        ∃ mark ∈ Outline.marks condition, mark.mark = .alternative) := by
  have closed := filtered.opening.closed
  have core_closed := filtered.closed_core closed
  have core_marks := filtered.marks_core closed
  have core : Opening (head ++ lead ++ condition) source :=
    filtered.opening.of_marks_eq core_closed core_marks
  obtain ⟨longer, level_eq, marks_eq⟩ := core.conjunction
  rw [core_marks] at marks_eq
  rw [filtered.level_core closed] at level_eq
  have length_eq := filtered.length_head
  have joint : Joint filter (head ++ lead ++ condition ++ ascii " AND ") :=
    .conjunction (by simp [length_eq, Nat.add_assoc])
  refine ⟨⟨longer.closed, joint, fun level => level_eq.trans level,
    fun level => ⟨longer, level, joint, ?_⟩, ?_⟩, ?_⟩
  · rw [marks_eq]
    exact filtered.filter_eq
  · exact (uncommented_append_plain core_closed (break_before_conjunction _).toSeam
      (by decide +kernel)).trans filtered.comments_core
  · exact alternated_of_marks (marks_eq.trans (filtered.marks_before closed)) length_eq
      (by rw [List.length_append]; omega)

include filtered in
/-- The text through the condition in parentheses and an `AND` has the alternatives that the
condition still has there. -/
theorem Filtered.approach_parenthesized :
    Approach before (head ++ lead ++ ([Byte.openParen] ++ condition ++ ascii ") AND ")) source
        filter ∧
      (Alternated (head ++ lead ++ ([Byte.openParen] ++ condition ++ ascii ") AND ")) filter ↔
        ∃ mark ∈ Site.marks ⟨[], condition, 0, 1⟩, mark.mark = .alternative) := by
  have closed := filtered.opening.closed
  have condition_closed := filtered.closed_condition closed
  have front : Opening (head ++ lead) source :=
    filtered.opening_head.of_marks_eq filtered.closed_lead filtered.marks_lead
  obtain ⟨wrapped, wrapped_level, wrapped_marks⟩ :=
    front.parenthesized filtered.level_lead condition_closed filtered.harmless
  obtain ⟨longer, level_eq, marks_eq⟩ := wrapped.conjunction
  rw [wrapped_marks, filtered.marks_lead] at marks_eq
  rw [wrapped_level] at level_eq
  have text_eq : head ++ lead ++ ([Byte.openParen] ++ condition ++ ascii ") AND ") =
      head ++ lead ++ [Byte.openParen] ++ condition ++ [Byte.closeParen] ++ ascii " AND " := by
    simp [show ascii ") AND " = [Byte.closeParen] ++ ascii " AND " from rfl]
  have length_eq := filtered.length_head
  rw [text_eq]
  have joint : Joint filter
      (head ++ lead ++ [Byte.openParen] ++ condition ++ [Byte.closeParen] ++ ascii " AND ") :=
    .conjunction (by simp only [List.length_append, length_eq]; omega)
  refine ⟨⟨longer.closed, joint, fun level => level_eq.trans ?_,
    fun level => ⟨longer, level, joint, ?_⟩, ?_⟩, ?_⟩
  · have outside := endDepth_start_append filtered.closed_lead filtered.broken.toSeam
    rw [filtered.level_core closed, level, filtered.level_lead] at outside
    have inside := endDepth_succ_le [] condition 0 0
    rw [← outside] at inside
    exact Nat.sub_eq_zero_of_le inside
  · have found := filtered.find_head filtered.filter_eq (Nat.le_refl _)
    obtain ⟨mark, mark_found, offset_eq⟩ := Option.map_eq_some_iff.mp found
    rw [marks_eq, List.find?_append, mark_found]
    exact congrArg some offset_eq
  · rw [uncommented_append_plain wrapped.closed (break_before_conjunction _).toSeam
        (by decide +kernel),
      uncommented_parenthesized filtered.closed_lead condition_closed,
      ← uncommented_start_append filtered.closed_lead filtered.broken.toSeam (filtered.apart _)]
    exact filtered.comments_core
  · exact alternated_of_marks marks_eq length_eq (by simp only [List.length_append]; omega)

include filtered in
/-- The slot of a condition, which has the alternatives that the condition has behind its `WHERE` or
in its parentheses. -/
theorem fitting_conditionSlot (ends : EndsWith before after) (hasOr : Bool) :
    Fitting before after (conditionSlot (before ++ after) (filter + 5) before.length hasOr)
        (leading condition hasOr) source filter ∧
      (Alternated (conditionSlot (before ++ after) (filter + 5) before.length hasOr).before filter ↔
        ∃ mark ∈ Site.marks ⟨[], condition, 0, hasOr.toNat⟩, mark.mark = .alternative) := by
  have length_eq := filtered.length_head
  by_cases nonempty : condition = []
  · subst nonempty
    have split := filtered.split
    rw [conditionSlot_blank filtered.toLayout after]
    obtain ⟨approach, unalternated⟩ := filtered.approach_blank rfl
    refine ⟨⟨approach, ⟨[Byte.blank], by decide +kernel, ?_⟩, by simp [leading],
      lead ++ trail, ?_, rfl, fun blank => ?_⟩, ?_⟩
    · rw [← length_eq, List.drop_left]
      simp [leading]
    · simpa [or_imp, forall_and] using ⟨filtered.lead_blank, filtered.trail_blank⟩
    · rw [split] at ends
      exact ends.tight (by simpa [or_imp, forall_and] using
        ⟨filtered.lead_blank, filtered.trail_blank⟩) blank
    · simp [unalternated, Site.marks, code_nil]
  · have first_visible (byte : Byte) (head_eq : (leading condition hasOr).head? = some byte) :
        byte.isSpace = false := by
      rw [leading, if_neg nonempty] at head_eq
      split at head_eq
      · obtain rfl : Byte.openParen = byte := by simpa using head_eq
        decide
      · rw [List.head?_append_of_ne_nil _ nonempty] at head_eq
        exact filtered.first_visible byte head_eq
    have split : before = head ++ (lead ++ condition) ++ trail := by simp [filtered.split]
    rw [conditionSlot_visible filtered.toLayout nonempty after]
    have begins : (head ++ lead ++ leading condition hasOr).drop (filter + 5) =
        lead ++ leading condition hasOr := by
      rw [← length_eq, List.append_assoc, List.drop_left]
    have fitting
        (approach : Approach before (head ++ lead ++ leading condition hasOr) source filter) :
        Fitting before after ⟨head ++ lead ++ leading condition hasOr, trail ++ after⟩
          (leading condition hasOr) source filter :=
      ⟨approach, ⟨lead, filtered.lead_blank, begins⟩, first_visible, trail,
        filtered.trail_blank, rfl, (split ▸ ends).tight filtered.trail_blank⟩
    cases hasOr with
    | true =>
        have text_eq : head ++ lead ++ leading condition true =
            head ++ lead ++ ([Byte.openParen] ++ condition ++ ascii ") AND ") := by
          simp [leading, nonempty]
        obtain ⟨approach, alternated_iff⟩ := filtered.approach_parenthesized
        rw [← text_eq] at approach alternated_iff
        exact ⟨fitting approach, alternated_iff⟩
    | false =>
        have text_eq : head ++ lead ++ leading condition false =
            head ++ lead ++ condition ++ ascii " AND " := by
          simp [leading, nonempty]
        obtain ⟨approach, alternated_iff⟩ := filtered.approach_conjunction
        rw [← text_eq] at approach alternated_iff
        exact ⟨fitting approach, alternated_iff⟩

end Extended

end Scope

end TenantScope
