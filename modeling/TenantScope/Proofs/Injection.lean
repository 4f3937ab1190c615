import TenantScope.Proofs.Fitting
import TenantScope.Proofs.Nesting

/-!
# Scoping a statement whose parentheses are balanced

The condition of a scoped statement is the condition that it had, put in parentheses if it
has alternatives, with the predicate for its last term.  A scoped statement is scoped
again without a change.
-/

namespace TenantScope

namespace Scope

open Text Site Literal

/-! ## Conditions -/

/-- What a text says of the condition of its outermost query. -/
structure Condition where
  /-- The condition without the white space around it. -/
  words : Text
  /-- An `OR` stands on its outermost level. -/
  alternated : Bool
  /-- It has a predicate on the scope column for a term. -/
  held : Bool
  deriving DecidableEq, Repr

/-- The condition of the outermost query, through the first thing that ends it;
nothing without a `WHERE`. -/
def condition? (text column : Text) : Option Condition := do
  let outline := Outline.ofText text
  let source ← outline.source?
  let offset ← outline.find? .filter
  let start := conditionStart text offset
  let stop := insertionPoint text outline source
  some ⟨trim (Statement.slice text start stop), hasAlternatives text start stop,
    hasPredicate text column start stop⟩

/-- What the condition has before the predicate, if it is given one. -/
def leadingOf (condition? : Option Condition) : Text :=
  condition?.elim [] fun condition => leading condition.words condition.alternated

/-- The words of the condition of a scoped statement. -/
def scopedWords (condition? : Option Condition) (inserted : Text) : Text :=
  if condition?.any fun condition => !condition.alternated && condition.held then
    (condition?.map (·.words)).getD []
  else leadingOf condition? ++ inserted

theorem condition?_eq {text column : Text} {source : Source} {filter : Nat}
    (source_eq : (Outline.ofText text).source? = some source)
    (filter_eq : (Outline.ofText text).find? .filter = some filter) :
    condition? text column = some
      ⟨trim (Statement.slice text (filter + 5) (insertionPoint text (Outline.ofText text) source)),
        hasAlternatives text (filter + 5) (insertionPoint text (Outline.ofText text) source),
        hasPredicate text column (filter + 5)
          (insertionPoint text (Outline.ofText text) source)⟩ := by
  have start_eq := (conditionStart_of_mem_marks (mem_marks_of_find? filter_eq)).1
  rw [condition?, source_eq, filter_eq]
  simp only [Option.bind_eq_bind, Option.bind_some, start_eq]

theorem condition?_eq_none {text : Text} (column : Text)
    (filter_eq : (Outline.ofText text).find? .filter = none) : condition? text column = none := by
  rw [condition?, filter_eq]
  simp

section Divided

variable {text column before after head lead condition trail : Text} {source : Source}
  {filter : Nat} (parting : Parting text before after source.offset)
  (length_eq : before.length = insertionPoint text (Outline.ofText text) source)
  (source_eq : (Outline.ofText text).source? = some source)

include parting source_eq length_eq in
/-- The parts of a text make up its condition. -/
theorem condition?_of_layout (filter_eq : (Outline.ofText text).find? .filter = some filter)
    (layout : Layout before filter head lead condition trail) :
    condition? text column = some ⟨condition, hasAlternatives text (filter + 5) before.length,
      hasPredicate text column (filter + 5) before.length⟩ := by
  have words_eq : trim (Statement.slice text (filter + 5) before.length) = condition := by
    rw [parting.split, slice_region layout after]
    exact trim_of_visible layout.lead_blank layout.trail_blank layout.first_visible
      layout.last_visible
  rw [condition?_eq source_eq filter_eq, ← length_eq, words_eq]

include parting in
/-- The condition has alternatives when it has an `OR` for a mark. -/
theorem hasAlternatives_iff_of_layout
    (filter_eq : (Outline.ofText text).find? .filter = some filter)
    (layout : Layout before filter head lead condition trail) :
    hasAlternatives text (filter + 5) before.length = true ↔
      ∃ mark ∈ Outline.marks condition, mark.mark = .alternative := by
  have resumes := (conditionStart_of_mem_marks (mem_marks_of_find? filter_eq)).2.1
  have head_length := layout.length_head
  have within : before.length ≤ text.length := by simp [parting.split]
  rw [hasAlternatives, isSome_firstTopLevel?_or resumes within, parting.marks_eq,
    layout.marks_before parting.closed]
  constructor
  · rintro ⟨mark, member, mark_eq, after_filter, before_end⟩
    rcases List.mem_append.mp member with member | member
    · rcases List.mem_append.mp member with member | member
      · have early := lt_length_of_mem_marks member
        omega
      · obtain ⟨shifted, shifted_mem, rfl⟩ := List.mem_map.mp member
        exact ⟨shifted, shifted_mem, mark_eq⟩
    · obtain ⟨shifted, -, rfl⟩ := List.mem_map.mp member
      simp only [MarkAt.shift] at before_end
      omega
  · rintro ⟨mark, member, mark_eq⟩
    have there : mark.shift (head ++ lead).length ∈ Outline.marks before := by
      rw [layout.marks_before parting.closed]
      exact List.mem_append_right _ (List.mem_map_of_mem member)
    have room := add_two_le_of_mem_marks there mark_eq
    refine ⟨mark.shift (head ++ lead).length, List.mem_append_left _ ?_, mark_eq, ?_, room⟩
    · rwa [← layout.marks_before parting.closed]
    · simp only [MarkAt.shift, List.length_append]
      omega

include parting in
/-- A condition without alternatives has none in parentheses. -/
theorem not_alternated_of_layout (filter_eq : (Outline.ofText text).find? .filter = some filter)
    (layout : Layout before filter head lead condition trail)
    (unalternated : hasAlternatives text (filter + 5) before.length = false) :
    ¬ ∃ mark ∈ Site.marks ⟨[], condition, 0, 1⟩, mark.mark = .alternative := by
  rintro ⟨mark, member, mark_eq⟩
  have alternated := (hasAlternatives_iff_of_layout parting filter_eq layout).mpr
    ⟨mark, (marks_sublist 0 (Nat.zero_le 1)).subset member, mark_eq⟩
  simp [unalternated] at alternated

end Divided

/-! ## The slot of a statement -/

/-- Alternatives remain in a condition that is put in parentheses. -/
def Escaping (condition? : Option Condition) : Prop :=
  ∃ condition ∈ condition?, ∃ mark ∈ Site.marks ⟨[], condition.words, 0, 1⟩,
    mark.mark = .alternative

instance (condition? : Option Condition) : Decidable (Escaping condition?) :=
  inferInstanceAs (Decidable (∃ _, _ ∧ _))

section Chosen

variable {text column before after : Text} {source : Source} {slot : Slot}

theorem exists_filtered {filter : Nat} (opening : Opening before source.offset)
    (parting : Parting text before after source.offset)
    (filter_eq : (Outline.ofText text).find? .filter = some filter)
    (inside : filter < before.length) :
    ∃ head lead condition trail,
      Filtered before source.offset filter head lead condition trail := by
  have located := Outline.find?_ofText text .filter
  rw [filter_eq] at located
  have found := parting.find_before rfl located.symm (Nat.le_of_lt inside)
  have member := parting.mem_before (mem_marks_of_find? filter_eq) rfl (Nat.le_of_lt inside)
  obtain ⟨head, lead, condition, trail, layout⟩ := exists_layout member (List.append_nil _).symm
    (conditionStart_of_mem_marks member).2.2
  exact ⟨head, lead, condition, trail, layout, opening, found⟩

/-- The slot chosen for a text lies at the end of its condition, and the condition before it has
alternatives only if they remain in parentheses. -/
theorem exists_fitting (opening : Opening before source.offset)
    (parting : Parting text before after source.offset)
    (length_eq : before.length = insertionPoint text (Outline.ofText text) source)
    (source_eq : (Outline.ofText text).source? = some source)
    (chosen : slot? text column (Outline.ofText text) source = .ok (some slot)) :
    ∃ filter,
      Fitting before after slot (leadingOf (condition? text column)) source.offset filter ∧
        (endDepth (start slot.before) = 0 →
          (Alternated slot.before filter ↔ Escaping (condition? text column))) := by
  have split := parting.split
  rcases slot_cases chosen with ⟨no_filter, rfl⟩ | ⟨filter, filter_eq, inside, rfl⟩
  · rw [← length_eq, condition?_eq_none column no_filter, split]
    have unfiltered : ∀ mark ∈ Outline.marks before, mark.mark ≠ .clause .filter := by
      intro mark member mark_eq
      have located := Outline.find?_ofText text .filter
      rw [no_filter] at located
      have absent := List.find?_eq_none.mp (Option.map_eq_none_iff.mp located.symm) mark
        (parting.marks_eq ▸ List.mem_append_left _ member)
      simp [mark_eq] at absent
    obtain ⟨fitting, unalternated⟩ := fitting_newConditionSlot opening parting.ending unfiltered
    exact ⟨_, fitting, fun level => by simp [unalternated level, Escaping]⟩
  · rw [← length_eq] at inside
    obtain ⟨head, lead, condition, trail, filtered⟩ :=
      exists_filtered opening parting filter_eq inside
    have alternatives_iff := hasAlternatives_iff_of_layout parting filter_eq filtered.toLayout
    have unalternated := not_alternated_of_layout parting filter_eq filtered.toLayout
    rw [condition?_of_layout parting length_eq source_eq filter_eq filtered.toLayout]
    rw [← length_eq]
    generalize hasAlternatives text (filter + 5) before.length = hasOr at *
    rw [split]
    obtain ⟨fitting, alternated_iff⟩ := fitting_conditionSlot filtered parting.ending hasOr
    refine ⟨filter, fitting, fun _ => alternated_iff.trans ?_⟩
    cases hasOr with
    | true => simp [Escaping]
    | false =>
        have none_outside : ¬ ∃ mark ∈ Outline.marks condition, mark.mark = .alternative := by
          simpa using alternatives_iff
        refine iff_of_false none_outside ?_
        rintro ⟨known, known_eq, alternatives⟩
        obtain rfl := Option.some.inj known_eq
        exact unalternated rfl alternatives

end Chosen

/-! ## Filled slots -/

section Filled

variable {column id before after words : Text} {source filter : Nat} {slot : Slot}
  (fitting : Fitting before after slot words source filter) (plain : IsColumn column)
  (valid : IsTenantId id)

include fitting in
theorem Fitting.fill_eq (column id : Text) :
    ∃ trail, (∀ byte ∈ trail, byte.isSpace = true) ∧
      ((∀ byte ∈ after, byte.isSpace = true) → trail = []) ∧
      slot.fill (predicate column id) = slot.before ++ predicate column id ++ trail ++ after := by
  obtain ⟨trail, blank, after_eq, tight⟩ := fitting.ends
  exact ⟨trail, blank, tight, by rw [Slot.fill, after_eq]; simp⟩

include fitting plain valid in
theorem Fitting.endsWith (ends : EndsWith before after)
    (level : endDepth (start slot.before) = 0) {trail : Text}
    (tight : (∀ byte ∈ after, byte.isSpace = true) → trail = [])
    (blank : ∀ byte ∈ trail, byte.isSpace = true) :
    EndsWith (slot.before ++ predicate column id ++ trail) after := by
  cases ends with
  | tail marks_eq is_tail =>
      refine .tail marks_eq is_tail ?_
      exact (endDepth_after_trail fitting.joint fitting.closed plain valid blank).trans level
  | semicolon is_blank => exact .semicolon is_blank
  | blank is_blank =>
      refine .blank is_blank fun last last_eq => ?_
      rw [tight is_blank, List.append_nil, getLast?_append_predicate] at last_eq
      obtain rfl := Option.some.inj last_eq
      decide

include fitting in
/-- The text before what follows the condition is closed, and what follows may follow it. -/
theorem Fitting.closed_before (name : IsName column) (valid : IsTenantId id)
    (ends : EndsWith before after) {trail : Text}
    (blank : ∀ byte ∈ trail, byte.isSpace = true) :
    Closed (start (slot.before ++ predicate column id ++ trail)) ∧
      Break (slot.before ++ predicate column id ++ trail).reverse after := by
  refine ⟨closed_append_blank blank
    (closed_before_trail fitting.joint fitting.closed name valid), ?_⟩
  rw [List.reverse_append, List.reverse_append]
  exact break_after_trail column id slot.before.reverse blank ends.single

include fitting in
/-- A filled slot has the literals of the text after the condition left to close. -/
theorem Fitting.closed_fill_iff (name : IsName column) (valid : IsTenantId id)
    (ends : EndsWith before after) :
    Closed (start (slot.fill (predicate column id))) ↔ Closed (start after) := by
  obtain ⟨trail, blank, -, text_eq⟩ := fitting.fill_eq column id
  obtain ⟨closed, broken⟩ := fitting.closed_before name valid ends blank
  rw [text_eq]
  exact closed_start_append closed broken.toSeam

include fitting plain in
/-- The words before the predicate and the predicate make up the condition. -/
theorem Fitting.trim_slice {trail : Text} (blank : ∀ byte ∈ trail, byte.isSpace = true) :
    trim (Statement.slice (slot.before ++ predicate column id ++ trail ++ after) (filter + 5)
      (slot.before ++ predicate column id ++ trail).length) = words ++ predicate column id := by
  obtain ⟨lead, lead_blank, drop_eq⟩ := fitting.begins
  have within := fitting.joint.add_five_le
  have length_eq := congrArg List.length drop_eq
  rw [List.length_drop, List.length_append] at length_eq
  have slice_eq :
      Statement.slice (slot.before ++ predicate column id ++ trail ++ after) (filter + 5)
          (slot.before ++ predicate column id ++ trail).length =
        lead ++ ((words ++ predicate column id) ++ trail) := by
    rw [Statement.slice, List.append_assoc, List.append_assoc, List.drop_append_of_le_length within,
      drop_eq]
    have region_eq : lead ++ words ++ (predicate column id ++ trail ++ after) =
        (lead ++ ((words ++ predicate column id) ++ trail)) ++ after := by simp
    rw [region_eq]
    refine List.take_left' ?_
    simp only [List.length_append]
    omega
  rw [slice_eq, trim_of_visible lead_blank blank]
  · intro byte head_eq
    cases words_eq : words with
    | nil =>
        rw [words_eq, List.nil_append] at head_eq
        exact Byte.isSpace_of_isIdentifier byte (isIdentifier_of_head?_predicate plain head_eq)
    | cons first rest => exact fitting.visible byte (by simpa [words_eq] using head_eq)
  · intro byte last_eq
    rw [getLast?_append_predicate] at last_eq
    obtain rfl := Option.some.inj last_eq
    decide

include fitting plain valid in
/-- A filled slot leaves the clauses of the text and puts the predicate at the end of its
condition. -/
theorem Fitting.filled (ends : EndsWith before after) (level : endDepth (start slot.before) = 0)
    (single : ∀ mark ∈ Outline.marks after, mark.mark ≠ .combination)
    (canonical : Canonical (Outline.ofText (slot.fill (predicate column id))).clauses) :
    ∃ source', source'.offset = source ∧
      IsFiltered (slot.fill (predicate column id)) source' filter ∧
      ∃ alternated, condition? (slot.fill (predicate column id)) column =
        some ⟨words ++ predicate column id, alternated, true⟩ ∧
        (alternated = true ↔ Alternated slot.before filter) := by
  have stemmed := fitting.stemmed level
  obtain ⟨trail, blank, tight, text_eq⟩ := fitting.fill_eq column id
  rw [text_eq] at canonical ⊢
  obtain ⟨source', offset_eq, filtered, point_eq, alternated_iff⟩ :=
    isFiltered_filled stemmed plain valid blank
      (fitting.endsWith plain valid ends level tight blank) single canonical
  have resumes := (conditionStart_of_mem_marks (mem_marks_of_find? filtered.filter_eq)).2.1
  refine ⟨source', offset_eq, filtered, _, ?_, alternated_iff⟩
  rw [condition?_eq filtered.source_eq filtered.filter_eq, point_eq,
    fitting.trim_slice plain blank, hasPredicate_filled stemmed plain resumes]

end Filled

/-! ## Scoped statements -/

/-- A statement that can be scoped, divided where the condition of its outermost query ends. -/
structure Division (text : Text) (source : Source) (before after : Text) : Prop where
  source_eq : (Outline.ofText text).source? = some source
  single : (Outline.ofText text).compound = false
  ordered : ∀ found ∈ (Outline.ofText text).clauses, source.offset ≤ found.offset
  canonical : Canonical (Outline.ofText text).clauses
  length_eq : before.length = insertionPoint text (Outline.ofText text) source
  inside : source.offset ≤ before.length
  parting : Parting text before after source.offset

theorem exists_division {text : Text} {tenant : Tenant} {source : Source}
    (closed : Closed (start text)) (found : sourceOf tenant (Outline.ofText text) = .ok source) :
    ∃ before after, Division text source before after := by
  obtain ⟨-, source_eq, single, ordered, canonical⟩ := sourceOf_eq_ok found
  obtain ⟨before, after, length_eq, inside, parting⟩ := exists_parting closed source_eq ordered
  exact ⟨before, after, source_eq, single, ordered, canonical, length_eq, inside, parting⟩

section Division

variable {text before after column id : Text} {source : Source} {slot : Slot}
  (division : Division text source before after)

include division in
theorem Division.opening : Opening before source.offset :=
  opening_of_parting division.parting division.source_eq division.single division.ordered
    division.inside

include division in
theorem Division.filter_lt {result : Option Slot}
    (chosen : slot? text column (Outline.ofText text) source = .ok result) {filter : Nat}
    (filter_eq : (Outline.ofText text).find? .filter = some filter) : filter < before.length := by
  rw [division.length_eq]
  rcases slot?_cases chosen with ⟨no_filter, -⟩ | ⟨offset, found, inside, -⟩
  · simp [filter_eq] at no_filter
  · rw [filter_eq] at found
    obtain rfl := Option.some.inj found
    exact inside

include division in
/-- The slot of a predicate, told from the parts of the text. -/
theorem Division.slot_cases
    (chosen : slot? text column (Outline.ofText text) source = .ok (some slot)) :
    slot = newConditionSlot (before ++ after) before.length ∨
    ∃ filter hasOr, (Outline.ofText text).find? .filter = some filter ∧ filter < before.length ∧
      slot = conditionSlot (before ++ after) (filter + 5) before.length hasOr := by
  rw [division.length_eq, ← division.parting.split]
  rcases Scope.slot_cases chosen with ⟨-, slot_eq⟩ | ⟨filter, filter_eq, inside, slot_eq⟩
  · exact .inl slot_eq
  · exact .inr ⟨filter, _, filter_eq, inside, slot_eq⟩

include division in
/-- A text that is left as it is was scoped. -/
theorem Division.isScoped (kept : slot? text column (Outline.ofText text) source = .ok none) :
    ∃ filter, IsScoped text column source filter := by
  rcases slot?_cases kept with ⟨-, impossible⟩ |
    ⟨filter, filter_eq, inside, ⟨unalternated, held, -⟩ | ⟨-, impossible⟩⟩
  · simp at impossible
  · exact ⟨filter, ⟨division.source_eq, filter_eq, division.single,
      source_lt_of_le division.source_eq division.ordered, division.canonical, inside⟩,
      unalternated, held⟩
  · simp at impossible

include division in
/-- A text that is left as it is has a condition without alternatives, in parentheses too. -/
theorem Division.not_escaping (kept : slot? text column (Outline.ofText text) source = .ok none) :
    ¬ Escaping (condition? text column) := by
  rcases slot?_cases kept with ⟨-, impossible⟩ |
    ⟨filter, filter_eq, inside, ⟨unalternated, -, -⟩ | ⟨-, impossible⟩⟩
  · simp at impossible
  · rw [← division.length_eq,
      (conditionStart_of_mem_marks (mem_marks_of_find? filter_eq)).1] at unalternated
    obtain ⟨head, lead, words, trail, filtered⟩ := exists_filtered division.opening
      division.parting filter_eq (division.filter_lt kept filter_eq)
    rw [condition?_of_layout division.parting division.length_eq division.source_eq filter_eq
      filtered.toLayout]
    rintro ⟨condition, known, alternatives⟩
    obtain rfl := Option.some.inj known
    exact not_alternated_of_layout division.parting filter_eq filtered.toLayout unalternated
      alternatives
  · simp at impossible

include division in
theorem Division.unscoped
    (chosen : slot? text column (Outline.ofText text) source = .ok (some slot)) :
    ((condition? text column).any fun condition =>
      !condition.alternated && condition.held) = false := by
  rcases slot?_cases chosen with ⟨no_filter, -⟩ |
    ⟨filter, filter_eq, -, ⟨-, -, impossible⟩ | ⟨changed, -⟩⟩
  · simp [condition?_eq_none column no_filter]
  · simp at impossible
  · have start_eq := (conditionStart_of_mem_marks (mem_marks_of_find? filter_eq)).1
    rw [start_eq] at changed
    rw [condition?_eq division.source_eq filter_eq, Option.any_some]
    rcases changed with alternated | absent
    · simp [alternated]
    · simp [absent]

include division in
theorem Division.fitting
    (chosen : slot? text column (Outline.ofText text) source = .ok (some slot)) :
    ∃ filter,
      Fitting before after slot (leadingOf (condition? text column)) source.offset filter ∧
        (endDepth (start slot.before) = 0 →
          (Alternated slot.before filter ↔ Escaping (condition? text column))) :=
  exists_fitting division.opening division.parting division.length_eq division.source_eq chosen

include division in
/-- A text with its slot filled has a condition with the predicate, whose alternatives are those
that remain in parentheses. -/
theorem Division.filled
    (chosen : slot? text column (Outline.ofText text) source = .ok (some slot))
    (level : endDepth (start slot.before) = 0) (plain : IsColumn column) (valid : IsTenantId id)
    (canonical : Canonical (Outline.ofText (slot.fill (predicate column id))).clauses) :
    ∃ source' filter, IsFiltered (slot.fill (predicate column id)) source' filter ∧
      ∃ alternated, condition? (slot.fill (predicate column id)) column =
        some ⟨leadingOf (condition? text column) ++ predicate column id, alternated, true⟩ ∧
        (alternated = true ↔ Escaping (condition? text column)) := by
  obtain ⟨filter, fitting, alternated_iff⟩ := division.fitting chosen
  have single : ∀ mark ∈ Outline.marks after, mark.mark ≠ .combination := by
    intro mark member combination
    have no_combination := division.single
    rw [Outline.compound_ofText, division.parting.marks_eq, List.any_eq_false] at no_combination
    simpa [MarkAt.shift, combination] using
      no_combination (mark.shift before.length)
        (List.mem_append_right _ (List.mem_map_of_mem member))
  obtain ⟨source', -, filtered, alternated, condition_eq, alternated_eq⟩ :=
    fitting.filled plain valid division.parting.ending level single canonical
  exact ⟨source', filter, filtered, alternated, condition_eq,
    alternated_eq.trans (alternated_iff level)⟩

/-- A filtered text is scoped when its condition is. -/
theorem IsFiltered.isScoped {words : Text} {filter : Nat}
    (filtered : IsFiltered text source filter)
    (condition_eq : condition? text column = some ⟨words, false, true⟩) :
    IsScoped text column source filter := by
  have start_eq := (conditionStart_of_mem_marks (mem_marks_of_find? filtered.filter_eq)).1
  rw [condition?_eq filtered.source_eq filtered.filter_eq, Option.some.injEq,
    Condition.mk.injEq] at condition_eq
  exact ⟨filtered, start_eq ▸ condition_eq.2.1, start_eq ▸ condition_eq.2.2⟩

theorem IsScoped.condition?_eq {filter : Nat}
    (scoped_already : IsScoped text column source filter) :
    ∃ words, condition? text column = some ⟨words, false, true⟩ := by
  have start_eq := (conditionStart_of_mem_marks (mem_marks_of_find? scoped_already.filter_eq)).1
  have unalternated := scoped_already.unalternated
  have held := scoped_already.held
  rw [start_eq] at unalternated held
  rw [Scope.condition?_eq scoped_already.source_eq scoped_already.filter_eq, unalternated, held]
  exact ⟨_, rfl⟩

end Division

/-- What comes of a statement that can be scoped: it was scoped, or its slot is filled. -/
theorem inject_cases {rules : ScopeRules} {tenant : Tenant} {statement result : Statement}
    (injected : inject rules tenant statement = .ok result) :
    ∃ source, sourceOf tenant (Outline.ofText statement.text) = .ok source ∧
      ((result = statement ∧
          slot? statement.text (rules.columnOf tenant statement.outline.table)
            (Outline.ofText statement.text) source = .ok none) ∨
        ∃ slot, slot? statement.text (rules.columnOf tenant statement.outline.table)
            (Outline.ofText statement.text) source = .ok (some slot) ∧
          result = statement.withText
            (slot.fill (predicate (rules.columnOf tenant statement.outline.table) tenant.id)) ∧
          Canonical result.outline.clauses) := by
  unfold inject at injected
  dsimp only at injected
  split at injected
  · simp at injected
  · rename_i source source_found
    refine ⟨source, source_found, ?_⟩
    split at injected
    · simp at injected
    · rename_i kept
      exact .inl ⟨by simpa using injected.symm, kept⟩
    · rename_i slot chosen
      unfold verified at injected
      dsimp only at injected
      split at injected
      · rename_i kept_order
        obtain rfl := Except.ok.inj injected
        simp only [Bool.and_eq_true, decide_eq_true_eq] at kept_order
        exact .inr ⟨slot, chosen, rfl, kept_order.2⟩
      · simp at injected

/-! ## Balanced statements -/

section Balanced

variable {text before after column : Text} {source : Source}
  (division : Division text source before after) (balanced : Balanced text)

include division balanced in
/-- Where the condition of a balanced text ends, no parenthesis is open. -/
theorem Division.level_of_balanced : endDepth (start before) = 0 := by
  have parting := division.parting
  have whole := balanced.level
  have plain_after : (∀ byte ∈ after, byte.isQuote = false) →
      (∀ byte ∈ after, byte ≠ Byte.openParen ∧ byte ≠ Byte.closeParen) →
      endDepth (start before) = 0 := by
    intro plain unnested
    rwa [parting.split, endDepth_start_append parting.closed parting.broken.toSeam,
      endDepth_of_plain _ _ plain unnested] at whole
  have plain_blank {blank : Text} (is_blank : ∀ byte ∈ blank, byte.isSpace = true) :
      ∀ byte ∈ blank, byte.isQuote = false ∧ byte ≠ Byte.openParen ∧ byte ≠ Byte.closeParen := by
    intro byte member
    have space := is_blank byte member
    exact ⟨Byte.isQuote_of_isSpace byte space, Byte.depthless_of_isSpace byte space⟩
  have ending := parting.ending
  cases ending with
  | tail _ _ level => exact level
  | semicolon is_blank =>
      refine plain_after ?_ ?_ <;> rw [List.forall_mem_cons]
      · exact ⟨by decide, fun byte member => (plain_blank is_blank byte member).1⟩
      · exact ⟨by decide, fun byte member => (plain_blank is_blank byte member).2⟩
  | blank is_blank =>
      exact plain_after (fun byte member => (plain_blank is_blank byte member).1)
        fun byte member => (plain_blank is_blank byte member).2

include division balanced in
/-- The condition of a balanced text is balanced. -/
theorem Division.nested_condition {result : Option Slot} {condition : Condition}
    (chosen : slot? text column (Outline.ofText text) source = .ok result)
    (known : condition? text column = some condition) :
    Nested ⟨[], condition.words, 0, 0⟩ := by
  have parting := division.parting
  cases filter_eq : (Outline.ofText text).find? .filter with
  | none => simp [condition?_eq_none column filter_eq] at known
  | some filter =>
      obtain ⟨head, lead, words, trail, filtered⟩ := exists_filtered division.opening parting
        filter_eq (division.filter_lt chosen filter_eq)
      rw [condition?_of_layout parting division.length_eq division.source_eq filter_eq
        filtered.toLayout] at known
      obtain rfl := Option.some.inj known
      have before_nested : Nested (start before) := by
        have nested := balanced.nested
        rw [parting.split] at nested
        exact ((nested_start_append parting.closed parting.broken.toSeam).mp nested).1
      have core_closed := filtered.closed_core parting.closed
      have core_split : before = head ++ lead ++ words ++ trail := by simp [filtered.split]
      rw [core_split] at before_nested
      have core_nested := ((nested_start_append core_closed
        (Seam.of_blank_right filtered.trail_blank _)).mp before_nested).1
      have words_nested := ((nested_start_append filtered.closed_lead
        filtered.broken.toSeam).mp core_nested).2
      rwa [filtered.level_lead] at words_nested

end Balanced

/-- The condition of a scoped statement has no alternatives and the predicate for a term; its words
are those that it had if it was scoped, and else those that it had, in parentheses if it had
alternatives, with the predicate after them.  It goes up to the earliest clause other than `WHERE`
or word among `WINDOW`, `OFFSET`, `FETCH` and `FOR`, or else up to the end of the body.  The clauses
stand after the source in their order, the statement is combined with no other query, and as long as
its table has the same scope column it is left as it is. -/
theorem inject_of_balanced {rules : ScopeRules} {tenant : Tenant} {statement result : Statement}
    {column : Text} (closed : Closed (start statement.text)) (balanced : Balanced statement.text)
    (resolved : rules.columnOf tenant statement.outline.table = column) (plain : IsColumn column)
    (valid : IsTenantId tenant.id) (injected : inject rules tenant statement = .ok result) :
    (∃ source filter, IsScoped result.text column source filter ∧
        (IsLeast (conditionEnds result.text source)
            (insertionPoint result.text result.outline source) ∨
          conditionEnds result.text source = ∅ ∧
            insertionPoint result.text result.outline source =
              Statement.bodyEnd result.text)) ∧
      condition? result.text column = some
        ⟨scopedWords (condition? statement.text column) (predicate column tenant.id), false, true⟩ ∧
      (((condition? statement.text column).any fun condition =>
        !condition.alternated && condition.held) = true → result = statement) ∧
      (rules.columnOf tenant result.outline.table = column →
        inject rules tenant result = .ok result) := by
  have settled {source : Source} {filter : Nat}
      (scoped_already : IsScoped result.text column source filter)
      (same : rules.columnOf tenant result.outline.table = column) :
      inject rules tenant result = .ok result :=
    inject_of_isScoped (by rw [same]; exact scoped_already) valid.visible
  obtain ⟨source, source_found, outcome⟩ := inject_cases injected
  obtain ⟨before, after, division⟩ := exists_division closed source_found
  rw [resolved] at outcome
  rcases outcome with ⟨rfl, kept⟩ | ⟨slot, chosen, rfl, canonical⟩
  · obtain ⟨filter, scoped_already⟩ := division.isScoped kept
    obtain ⟨words, condition_eq⟩ := scoped_already.condition?_eq
    refine ⟨⟨source, filter, scoped_already, scoped_already.isLeast_insertionPoint⟩, ?_,
      fun _ => rfl, settled scoped_already⟩
    rw [condition_eq, scopedWords]
    rfl
  · have no_escape : ¬ Escaping (condition? statement.text column) := by
      rintro ⟨condition, known, mark, member, -⟩
      have nested := division.nested_condition balanced chosen known
      rw [show (1 : Nat) = 0 + 1 from rfl, marks_of_nested nested (by decide)] at member
      simp at member
    have level : endDepth (start slot.before) = 0 := by
      obtain ⟨filter, fitting, -⟩ := division.fitting chosen
      exact fitting.level (division.level_of_balanced balanced)
    obtain ⟨source', filter, filtered, alternated, condition_eq, alternated_iff⟩ :=
      division.filled chosen level plain valid canonical
    obtain rfl : alternated = false :=
      Bool.eq_false_iff.mpr fun holds => no_escape (alternated_iff.mp holds)
    have scoped_already := filtered.isScoped condition_eq
    have unscoped := division.unscoped chosen
    refine ⟨⟨source', filter, scoped_already, scoped_already.isLeast_insertionPoint⟩, ?_,
      fun held => ?_, settled scoped_already⟩
    · rw [scopedWords, unscoped]
      exact condition_eq
    · simp [unscoped] at held

/-- A condition with alternatives, one of them in parentheses with a literal that holds one. -/
theorem inject_of_balanced_alternatives :
    condition? (ascii
        "SELECT a FROM t WHERE ((a = ')' OR b) OR c = 2) AND tenant_id = 'x' ORDER BY a;")
        (ascii "tenant_id") =
      some ⟨ascii "((a = ')' OR b) OR c = 2) AND tenant_id = 'x'", false, true⟩ := by
  have injected : inject {} { id := ascii "x" }
      ⟨[], ascii "SELECT a FROM t WHERE (a = ')' OR b) OR c = 2 ORDER BY a;"⟩ = .ok
        ⟨[], ascii
          "SELECT a FROM t WHERE ((a = ')' OR b) OR c = 2) AND tenant_id = 'x' ORDER BY a;"⟩ := by
    decide +kernel
  have resolved : ScopeRules.columnOf {} { id := ascii "x" } (Statement.outline
      ⟨[], ascii "SELECT a FROM t WHERE (a = ')' OR b) OR c = 2 ORDER BY a;"⟩).table =
        ascii "tenant_id" := by
    decide +kernel
  exact (inject_of_balanced (by decide +kernel) (by decide +kernel) resolved (by decide +kernel)
    (by decide +kernel) injected).2.1.trans (by decide +kernel)

end Scope

end TenantScope
