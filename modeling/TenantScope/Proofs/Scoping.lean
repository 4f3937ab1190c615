import TenantScope.Proofs.Slots

/-!
# Scoped statements

A statement is scoped when the condition of its outermost query has no alternatives and a predicate
on the scope column for a term.  A text with a predicate after a stem is scoped, and a scoped
statement is left as it is.
-/

namespace TenantScope

namespace Scope

open Text Site Literal

/-! ## Where the condition of a divided text ends -/

/-- The condition ends where the text is divided. -/
theorem insertionPoint_of_parting {text before after : Text} {source : Source}
    (parting : Parting text before after source.offset)
    (resumes : Site.Resumes text source.offset) (inside : source.offset ≤ before.length)
    (ordered : ∀ found ∈ (Outline.ofText text).clauses, source.offset ≤ found.offset) :
    insertionPoint text (Outline.ofText text) source = before.length := by
  have none_before : (Outline.marks before).find? (fun mark =>
      decide (source.offset ≤ mark.offset) && mark.mark.isTail) = none := by
    refine List.find?_eq_none.mpr fun mark member wanted => ?_
    simp only [Bool.and_eq_true, decide_eq_true_eq] at wanted
    have early := parting.no_tail mark member wanted.2
    omega
  rw [insertionPoint_eq resumes ordered, firstTail?, parting.marks_eq, List.find?_append,
    none_before, Option.none_or]
  have split := parting.split
  have ending := parting.ending
  cases ending with
  | tail marks_eq is_tail =>
      rw [marks_eq]
      simp [MarkAt.shift, is_tail, inside]
  | semicolon is_blank =>
      rw [Outline.marks, start, marks_of_semicolon is_blank, split]
      exact bodyEnd_of_semicolon is_blank
  | blank is_blank visible =>
      rw [Outline.marks, start, marks_of_blank is_blank, split]
      exact bodyEnd_of_ends (.blank is_blank visible) is_blank

/-! ## Stems -/

/-- How a text leads up to a predicate in the condition after the `WHERE` at an offset: it ends in
that `WHERE` or in an `AND` after it, and a blank. -/
inductive Joint (filter : Nat) : Text → Prop
  | filter {before written : Text} : before.length = filter → upper written = ascii "WHERE" →
      Joint filter (before ++ (written ++ [Byte.blank]))
  | conjunction {before : Text} : filter + 5 ≤ before.length →
      Joint filter (before ++ ascii " AND ")

/-- The beginning of a text with one outermost query: its literals are closed, and its clauses come
after the source. -/
structure Opening (text : Text) (source : Nat) : Prop where
  closed : Closed (start text)
  source_eq : ((Outline.marks text).find? fun mark => mark.mark == .source).map (·.offset) =
    some source
  single : ∀ mark ∈ Outline.marks text, mark.mark ≠ .combination
  ordered : ∀ mark ∈ Outline.marks text, ∀ clause, mark.mark = .clause clause →
    source ≤ mark.offset
  no_tail : ∀ mark ∈ Outline.marks text, mark.mark.isTail = true → mark.offset < source

/-- A beginning after which a predicate scopes the outermost query: no parenthesis is open, and the
`WHERE` of its condition stands at the offset. -/
structure Stem (stem : Text) (source filter : Nat) : Prop extends Opening stem source where
  level : endDepth (start stem) = 0
  joint : Joint filter stem
  filter_eq : ((Outline.marks stem).find? fun mark => mark.mark == .clause .filter).map (·.offset) =
    some filter

theorem Joint.add_five_le {filter : Nat} {stem : Text} (joint : Joint filter stem) :
    filter + 5 ≤ stem.length := by
  cases joint with
  | filter length_eq name_eq =>
      have written_length := congrArg List.length name_eq
      rw [length_upper, show (ascii "WHERE").length = 5 from rfl] at written_length
      simp only [List.length_append]
      omega
  | conjunction longer =>
      rw [List.length_append]
      omega

theorem Joint.exists_blank {filter : Nat} {stem : Text} (joint : Joint filter stem) :
    ∃ back, stem.reverse = Byte.blank :: back ∧
      (back.dropWhile Byte.isSpace).head?.any endsPhraseWord = false := by
  cases joint with
  | @filter before written _ name_eq =>
      have is_name : IsName (ascii "WHERE") := by decide +kernel
      have ends_in : upper written = ascii "WHER" ++ [Byte.ofChar 'E'] := name_eq
      have last_eq := head?_dropWhile_of_word before.reverse ends_in
        (isIdentifier_of_upper_eq is_name.identifiers name_eq) (List.forall_mem_nil _)
      refine ⟨written.reverse ++ before.reverse, by simp, ?_⟩
      cases head_eq : ((written.reverse ++ before.reverse).dropWhile Byte.isSpace).head? with
      | none => rfl
      | some byte =>
          have upper_eq : byte.toUpper = Byte.ofChar 'E' := by simpa [head_eq] using last_eq
          simp [endsPhraseWord, upper_eq]
          decide
  | @conjunction before _ =>
      refine ⟨(ascii " AND").reverse ++ before.reverse, ?_, rfl⟩
      rw [List.reverse_append]
      rfl

section Filled

variable {stem column id trail after : Text} {source filter : Nat} (joint : Joint filter stem)
  (closed : Closed (start stem)) (stemmed : Stem stem source filter) (plain : IsColumn column)
  (valid : IsTenantId id)

include joint in
theorem break_before_predicate (column id : Text) :
    Break stem.reverse (predicate column id) := by
  obtain ⟨back, reverse_eq, no_phrase⟩ := joint.exists_blank
  rw [reverse_eq]
  refine ⟨Seam.of_plain_last (by decide) (by decide) _ _, fun ends => ?_⟩
  rw [List.dropWhile_cons_of_pos (by decide), no_phrase] at ends
  simp at ends

/-- The last byte before what follows a predicate is no full stop. -/
theorem head?_reverse_ne_dot (front column id : Text)
    (blank : ∀ byte ∈ trail, byte.isSpace = true) :
    (front ++ predicate column id ++ trail).reverse.head? ≠ some Byte.dot := by
  rw [List.head?_reverse, List.getLast?_append, getLast?_append_predicate]
  cases last : trail.getLast? with
  | none => decide
  | some space =>
      rintro ⟨⟩
      exact absurd (blank _ (List.mem_of_getLast? last)) (by decide)

/-- White space may come between a predicate and what may follow it. -/
theorem break_after_trail (column id back : Text) (blank : ∀ byte ∈ trail, byte.isSpace = true)
    (single : after.head? ≠ some Byte.apostrophe) :
    Break (trail.reverse ++ ((predicate column id).reverse ++ back)) after := by
  have reverse_blank : ∀ byte ∈ trail.reverse, byte.isSpace = true := by simpa using blank
  have direct := break_after_predicate column id back single
  refine ⟨?_, ?_⟩
  · rcases List.eq_nil_or_concat trail with rfl | ⟨first, last, rfl⟩
    · exact direct.toSeam
    · have space : last.isSpace = true := blank last (by simp)
      simpa using Seam.of_plain_last (Byte.isIdentifier_of_isSpace last space)
        (Byte.isQuote_of_isSpace last space) _ after
  · rw [List.dropWhile_append_of_pos reverse_blank]
    exact direct.phrase

include joint closed in
theorem closed_before_trail (name : IsName column) (valid : IsTenantId id) :
    Closed (start (stem ++ predicate column id)) :=
  (closed_start_append closed (break_before_predicate joint column id).toSeam).mpr
    (closed_predicate name valid _ _ _)

include joint closed plain valid in
theorem endDepth_before_trail :
    endDepth (start (stem ++ predicate column id)) = endDepth (start stem) := by
  rw [endDepth_start_append closed (break_before_predicate joint column id).toSeam]
  exact endDepth_predicate plain valid _ _ _

include joint closed plain valid in
theorem marks_before_trail : Outline.marks (stem ++ predicate column id) = Outline.marks stem := by
  obtain ⟨back, reverse_eq, -⟩ := joint.exists_blank
  have undotted : Undotted stem.reverse (predicate column id) :=
    Undotted.of_last (by simp [reverse_eq, show Byte.blank ≠ Byte.dot by decide]) _
  rw [Outline.marks, marks_start_append closed (break_before_predicate joint column id) undotted,
    marks_predicate plain valid _ _ _ (by simp), List.map_nil, List.append_nil]
  rfl

section Trail

variable (blank : ∀ byte ∈ trail, byte.isSpace = true)

include joint closed plain valid blank

/-- A predicate and white space after it leave the parentheses of a stem open. -/
theorem endDepth_after_trail :
    endDepth (start (stem ++ predicate column id ++ trail)) = endDepth (start stem) :=
  (endDepth_append_blank blank (closed_before_trail joint closed plain.name valid)).trans
    (endDepth_before_trail joint closed plain valid)

/-- A predicate and white space after it add no marks to a stem. -/
theorem marks_after_trail :
    Outline.marks (stem ++ predicate column id ++ trail) = Outline.marks stem :=
  (marks_append_blank blank (closed_before_trail joint closed plain.name valid)).trans
    (marks_before_trail joint closed plain valid)

end Trail

include stemmed plain valid in
/-- A text with a predicate after a stem is divided after the predicate and the white space
there. -/
theorem parting_filled (blank : ∀ byte ∈ trail, byte.isSpace = true)
    (ends : EndsWith (stem ++ predicate column id ++ trail) after) :
    Parting (stem ++ predicate column id ++ trail ++ after)
      (stem ++ predicate column id ++ trail) after source := by
  have whole := closed_before_trail stemmed.joint stemmed.closed plain.name valid
  have closed := closed_append_blank blank whole
  have level :=
    (endDepth_after_trail stemmed.joint stemmed.closed plain valid blank).trans stemmed.level
  have marks_eq := marks_after_trail stemmed.joint stemmed.closed plain valid blank
  have broken : Break (stem ++ predicate column id ++ trail).reverse after := by
    rw [List.reverse_append, List.reverse_append]
    exact break_after_trail column id stem.reverse blank ends.single
  refine ⟨rfl, closed, broken, ?_, fun mark member is_tail => ?_, ends⟩
  · have undotted := Undotted.of_last (head?_reverse_ne_dot stem column id blank) after
    rw [Outline.marks, marks_start_append closed broken undotted, level]
    rfl
  · rw [marks_eq] at member
    exact stemmed.no_tail mark member is_tail

/-! ## The predicate as a term -/

include stemmed plain in
/-- The predicate is read right after the stem, outside literals and parentheses. -/
theorem mem_code_filled (rest : Text) :
    ⟨stem.reverse, predicate column id ++ rest, stem.length, 0⟩ ∈
      (start (stem ++ (predicate column id ++ rest))).code := by
  have level : endDepth ⟨[], stem, 0, 0⟩ = 0 := stemmed.level
  obtain ⟨first, others, column_eq⟩ := List.exists_cons_of_ne_nil plain.name.nonempty
  have word : first.isIdentifier = true :=
    plain.name.identifiers first (by simp [column_eq])
  have seam : Seam (stem.reverse ++ []) (predicate column id ++ rest) := by
    obtain ⟨back, reverse_eq, -⟩ := stemmed.joint.exists_blank
    rw [List.append_nil, reverse_eq]
    exact Seam.of_plain_last (by decide) (by decide) _ _
  rw [start, code_append 0 0 stemmed.closed seam, level, List.append_nil, Nat.zero_add]
  refine List.mem_append_right _ ?_
  have predicate_cons : predicate column id ++ rest =
      first :: (others ++ ascii " = " ++ quoted id ++ rest) := by
    simp [predicate_eq, comparison, column_eq]
  rw [predicate_cons, code_cons _ _ _ _ (Byte.isQuote_of_isIdentifier first word)]
  exact List.mem_cons_self

theorem slice_last (front rest : Text) (last : Byte) :
    Statement.slice (front ++ [last] ++ rest) front.length (front.length + 1) = [last] := by
  simp [Statement.slice]

/-- Before the predicate stands its introduction, and a blank between them. -/
theorem Joint.exists_introduction (joint : Joint filter stem) (rest : Text) :
    ∃ (introduction : Introduction) (offset : Nat),
      introduction.EndsAt (stem ++ rest) (filter + 5) offset ∧ filter + 5 ≤ offset ∧
        stem.length = offset + 1 ∧
        Statement.slice (stem ++ rest) offset stem.length = [Byte.blank] := by
  cases joint with
  | @filter before written length_eq name_eq =>
      have written_length : written.length = 5 := by
        rw [← length_upper, name_eq]
        rfl
      have total : (before ++ (written ++ [Byte.blank])).length = filter + 5 + 1 := by
        simp [length_eq, written_length, Nat.add_assoc]
      refine ⟨.opening, filter + 5, rfl, Nat.le_refl _, total, ?_⟩
      have front_length : (before ++ written).length = filter + 5 := by
        simp [length_eq, written_length]
      rw [total, ← List.append_assoc, ← front_length]
      exact slice_last _ _ _
  | @conjunction before after_filter =>
      have is_name : IsName (ascii "AND") := by decide +kernel
      have front_length : (before ++ ascii " AND").length = before.length + 4 := by
        rw [List.length_append]
        rfl
      have stem_eq : before ++ ascii " AND " = (before ++ ascii " AND") ++ [Byte.blank] := by
        rw [List.append_assoc]
        rfl
      refine ⟨.conjunction, before.length + 4, ?_, by omega, ?_, ?_⟩
      · refine (endsAt_iff is_name).mpr ⟨by simp [ascii], ?_⟩
        have place :
            before.length + 4 - (ascii "AND").length = (before ++ [Byte.blank]).length := by
          simp [ascii]
        have text_eq : before ++ ascii " AND " ++ rest =
            (before ++ [Byte.blank]) ++ (ascii "AND" ++ Byte.blank :: rest) := by
          rw [List.append_assoc, List.append_assoc]
          rfl
        have not_word : Byte.isIdentifier Byte.blank = false := by decide
        rw [place, text_eq, Site.atOffset, List.take_left, List.drop_left, Site.spoken,
          Site.takeWhile_isIdentifier_append is_name.identifiers (by simp [not_word])]
        simp [afterIdentifier, previous?, not_word]
        decide
      · rw [List.length_append]
        rfl
      · rw [stem_eq, ← front_length, @List.length_append _ (before ++ ascii " AND")]
        exact slice_last _ _ _

include stemmed plain in
/-- The predicate is a term of the condition. -/
theorem isTerm_filled {rest : Text} {stop : Nat}
    (resumes : Site.Resumes (stem ++ (predicate column id ++ rest)) (filter + 5))
    (before : (stem ++ predicate column id).length ≤ stop) :
    ∃ introduction offset, IsTerm (stem ++ (predicate column id ++ rest)) column (filter + 5) stop
      introduction offset ⟨stem.reverse, predicate column id ++ rest, stem.length, 0⟩ := by
  obtain ⟨introduction, offset, ends, from_filter, length_eq, slice_eq⟩ :=
    stemmed.joint.exists_introduction (predicate column id ++ rest)
  obtain ⟨back, reverse_eq, -⟩ := stemmed.joint.exists_blank
  have rest_eq : predicate column id ++ rest = column ++ (ascii " = " ++ (quoted id ++ rest)) := by
    simp [predicate_eq, comparison]
  refine ⟨introduction, offset, ?_, rfl, ?_, ?_, ends, ⟨from_filter, by simp [length_eq]⟩,
    [Byte.blank], [], fun byte member => by rw [List.mem_singleton.mp member]; decide, by simp,
    by simpa using slice_eq⟩
  · rw [resumes]
    exact List.mem_filter.mpr ⟨mem_code_filled stemmed plain rest, by simp; omega⟩
  · have begins : Site.afterIdentifier
        ⟨stem.reverse, predicate column id ++ rest, stem.length, 0⟩ = false := by
      simp [afterIdentifier, previous?, reverse_eq, Byte.isIdentifier_blank]
    rw [Site.spoken, begins, if_neg (by simp), rest_eq,
      Site.takeWhile_isIdentifier_append plain.name.identifiers (by simp [ascii]; decide)]
  · have total : (stem ++ predicate column id).length =
        stem.length + (column.length + 3 + (id.length + 2)) := by
      simp [predicate_eq, comparison, quoted, ascii]
      omega
    have dropped : (predicate column id ++ rest).drop column.length =
        Byte.blank :: Byte.equals :: Byte.blank :: (quoted id ++ rest) := by
      rw [rest_eq, List.drop_left]
      rfl
    have space : Byte.isSpace Byte.blank = true := by decide
    have visible : Byte.isSpace Byte.equals = false := by decide
    simp only [Site.equalsBefore, dropped]
    simp [space, visible]
    omega

end Filled

/-! ## Scoped texts -/

/-- The outermost query of a text reads from the source and has its `WHERE` at an offset: its
clauses stand after the source in their order, and it is combined with no other query. -/
structure IsFiltered (text : Text) (source : Source) (filter : Nat) : Prop where
  source_eq : (Outline.ofText text).source? = some source
  filter_eq : (Outline.ofText text).find? .filter = some filter
  single : (Outline.ofText text).compound = false
  ordered : ∀ found ∈ (Outline.ofText text).clauses, source.offset < found.offset
  canonical : Canonical (Outline.ofText text).clauses
  inside : filter < insertionPoint text (Outline.ofText text) source

/-- The condition of the outermost query has no alternatives and a predicate on
the column for a term. -/
structure IsScoped (text column : Text) (source : Source) (filter : Nat) : Prop
    extends IsFiltered text source filter where
  unalternated : hasAlternatives text (conditionStart text filter)
    (insertionPoint text (Outline.ofText text) source) = false
  held : hasPredicate text column (conditionStart text filter)
    (insertionPoint text (Outline.ofText text) source) = true

theorem mem_marks_of_source? {text : Text} {source : Source}
    (found : (Outline.ofText text).source? = some source) :
    ⟨.source, source.offset⟩ ∈ Outline.marks text := by
  have located := Outline.source?_ofText text
  rw [found, Option.map_some] at located
  obtain ⟨mark, mark_found, offset_eq⟩ := Option.map_eq_some_iff.mp located.symm
  have mark_eq : mark.mark = .source := by simpa using List.find?_some mark_found
  rw [← mark_eq, ← offset_eq]
  exact List.mem_of_find?_eq_some mark_found

/-- The condition goes up to the earliest thing that ends it. -/
theorem IsFiltered.isLeast_insertionPoint {text : Text} {source : Source} {filter : Nat}
    (filtered : IsFiltered text source filter) :
    IsLeast (conditionEnds text source) (insertionPoint text (Outline.ofText text) source) ∨
      conditionEnds text source = ∅ ∧
        insertionPoint text (Outline.ofText text) source = Statement.bodyEnd text :=
  Scope.isLeast_insertionPoint (resumes_of_mem_marks (mem_marks_of_source? filtered.source_eq))
    fun found member => (filtered.ordered found member).le

/-- Clauses do not begin where the source does. -/
theorem source_lt_of_le {text : Text} {source : Source}
    (found : (Outline.ofText text).source? = some source)
    (ordered : ∀ found ∈ (Outline.ofText text).clauses, source.offset ≤ found.offset) :
    ∀ found ∈ (Outline.ofText text).clauses, source.offset < found.offset := by
  intro clause member
  refine Nat.lt_of_le_of_ne (ordered clause member) fun same => ?_
  have clause_counts := (atOffset_of_mem_marks
    (mem_marks_of_find? (Outline.listed_ofText text clause member))).2
  have source_counts := (atOffset_of_mem_marks (mem_marks_of_source? found)).2
  simp only [← same] at clause_counts source_counts
  simpa using Mark.eq_of_occursAt (Mark.countsAt_iff.mp source_counts).2.1
    (Mark.countsAt_iff.mp clause_counts).2.1

/-- An `OR` has room before the end of the text. -/
theorem add_two_le_of_mem_marks {text : Text} {mark : MarkAt} (member : mark ∈ Outline.marks text)
    (alternative : mark.mark = .alternative) : mark.offset + 2 ≤ text.length := by
  obtain ⟨here, counts⟩ := atOffset_of_mem_marks member
  have is_name : IsName (ascii "OR") := by decide +kernel
  have occurs := (Mark.countsAt_iff.mp counts).2.1
  have spoken_eq : (Site.atOffset text mark.offset).spoken = ascii "OR" := by
    simpa [alternative, Mark.occursAt, Mark.keywords, Site.hasWord_of_isName is_name] using occurs
  have fits := Site.length_spoken_le (Site.atOffset text mark.offset)
  have total := Site.offset_add_length here
  have offset_eq : (Site.atOffset text mark.offset).offset = mark.offset := rfl
  have length_eq : (ascii "OR").length = 2 := rfl
  rw [spoken_eq, length_eq] at fits
  omega

/-- A text with the marks of a stem before the end of its condition has the clauses of the stem, and
its condition has alternatives when the stem has an `OR` after its `WHERE`. -/
theorem isFiltered_of_parting {text stem before after : Text} {source filter : Nat}
    (stemmed : Stem stem source filter) (parting : Parting text before after source)
    (marks_eq : Outline.marks before = Outline.marks stem) (longer : stem.length ≤ before.length)
    (single : ∀ mark ∈ Outline.marks after, mark.mark ≠ .combination)
    (canonical : Canonical (Outline.ofText text).clauses) :
    ∃ source', source'.offset = source ∧ IsFiltered text source' filter ∧
      insertionPoint text (Outline.ofText text) source' = before.length ∧
      (hasAlternatives text (filter + 5) before.length = true ↔
        ∃ mark ∈ Outline.marks stem, mark.mark = .alternative ∧ filter + 5 ≤ mark.offset) := by
  have all_marks := parting.marks_eq
  rw [marks_eq] at all_marks
  have first_of_stem {wanted : MarkAt → Bool} {offset : Nat}
      (found : ((Outline.marks stem).find? wanted).map (·.offset) = some offset) :
      offset < stem.length ∧ ((Outline.marks text).find? wanted).map (·.offset) = some offset := by
    obtain ⟨mark, mark_found, rfl⟩ := Option.map_eq_some_iff.mp found
    refine ⟨lt_length_of_mem_marks (List.mem_of_find?_eq_some mark_found), ?_⟩
    rw [all_marks, List.find?_append, mark_found]
    rfl
  obtain ⟨source_before, source_first⟩ := first_of_stem stemmed.source_eq
  obtain ⟨filter_before, filter_first⟩ := first_of_stem stemmed.filter_eq
  have filter_found : (Outline.ofText text).find? .filter = some filter := by
    rw [Outline.find?_ofText, filter_first]
  obtain ⟨source', source_found, rfl⟩ : ∃ source',
      (Outline.ofText text).source? = some source' ∧ source'.offset = source := by
    refine Option.map_eq_some_iff.mp ?_
    rw [Outline.source?_ofText, source_first]
  have after_source : ∀ found ∈ (Outline.ofText text).clauses, source'.offset ≤ found.offset := by
    intro found listed
    have member := mem_marks_of_find? (Outline.listed_ofText text found listed)
    rw [all_marks, List.mem_append] at member
    rcases member with member | member
    · exact stemmed.ordered _ member _ rfl
    · obtain ⟨mark, -, shifted⟩ := List.mem_map.mp member
      have offset_eq := congrArg MarkAt.offset shifted
      simp only [MarkAt.shift] at offset_eq
      omega
  have point_eq : insertionPoint text (Outline.ofText text) source' = before.length :=
    insertionPoint_of_parting parting (resumes_of_mem_marks (mem_marks_of_source? source_found))
      (by omega) after_source
  refine ⟨source', rfl, ⟨source_found, filter_found, ?_, source_lt_of_le source_found after_source,
    canonical, by omega⟩, point_eq, ?_⟩
  · rw [Outline.compound_ofText, List.any_eq_false, all_marks]
    intro mark member
    rcases List.mem_append.mp member with member | member
    · simpa using stemmed.single mark member
    · obtain ⟨later, later_mem, rfl⟩ := List.mem_map.mp member
      simpa [MarkAt.shift] using single later later_mem
  · have resumes := (conditionStart_of_mem_marks (mem_marks_of_find? filter_found)).2.1
    have within : before.length ≤ text.length := by simp [parting.split]
    rw [hasAlternatives, isSome_firstTopLevel?_or resumes within]
    constructor
    · rintro ⟨mark, member, mark_eq, from_filter, before_end⟩
      rw [all_marks, List.mem_append] at member
      rcases member with member | member
      · exact ⟨mark, member, mark_eq, from_filter⟩
      · obtain ⟨later, -, rfl⟩ := List.mem_map.mp member
        simp only [MarkAt.shift] at before_end
        omega
    · rintro ⟨mark, member, mark_eq, from_filter⟩
      have room := add_two_le_of_mem_marks (marks_eq ▸ member) mark_eq
      exact ⟨mark, all_marks ▸ List.mem_append_left _ member, mark_eq, from_filter, room⟩

section Filled

variable {stem column id trail after : Text} {source filter : Nat}
  (stemmed : Stem stem source filter) (plain : IsColumn column) (valid : IsTenantId id)
  (blank : ∀ byte ∈ trail, byte.isSpace = true)
  (ends : EndsWith (stem ++ predicate column id ++ trail) after)
  (single : ∀ mark ∈ Outline.marks after, mark.mark ≠ .combination)
  (canonical : Canonical (Outline.ofText (stem ++ predicate column id ++ trail ++ after)).clauses)

include stemmed plain valid blank ends single canonical in
/-- A text with a predicate after a stem has the clauses of the stem, and its condition ends after
the predicate and the white space there. -/
theorem isFiltered_filled :
    ∃ source', source'.offset = source ∧
      IsFiltered (stem ++ predicate column id ++ trail ++ after) source' filter ∧
      insertionPoint (stem ++ predicate column id ++ trail ++ after)
        (Outline.ofText (stem ++ predicate column id ++ trail ++ after)) source' =
        (stem ++ predicate column id ++ trail).length ∧
      (hasAlternatives (stem ++ predicate column id ++ trail ++ after) (filter + 5)
          (stem ++ predicate column id ++ trail).length = true ↔
        ∃ mark ∈ Outline.marks stem, mark.mark = .alternative ∧ filter + 5 ≤ mark.offset) := by
  exact isFiltered_of_parting stemmed (parting_filled stemmed plain valid blank ends)
    (marks_after_trail stemmed.joint stemmed.closed plain valid blank) (by simp) single canonical

include stemmed plain in
/-- The predicate is found in the condition. -/
theorem hasPredicate_filled
    (resumes : Site.Resumes (stem ++ predicate column id ++ trail ++ after) (filter + 5)) :
    hasPredicate (stem ++ predicate column id ++ trail ++ after) column (filter + 5)
      (stem ++ predicate column id ++ trail).length = true := by
  have split : stem ++ predicate column id ++ trail ++ after =
      stem ++ (predicate column id ++ (trail ++ after)) := by simp
  rw [split] at resumes ⊢
  have within : (stem ++ predicate column id).length ≤
      (stem ++ predicate column id ++ trail).length := by
    simp
  obtain ⟨introduction, offset, term⟩ :=
    isTerm_filled stemmed plain resumes within
  have stop_eq : min (stem ++ predicate column id ++ trail).length
      (stem ++ (predicate column id ++ (trail ++ after))).length =
        (stem ++ predicate column id ++ trail).length := by
    simp
  rw [hasPredicate_iff plain.name, stop_eq]
  exact ⟨_, term.code, term.offset_lt,
    (isPredicateAt_iff plain.name term.code).mpr ⟨introduction, offset, term⟩⟩

end Filled

/-- A scoped statement is left as it is. -/
theorem inject_of_isScoped {rules : ScopeRules} {tenant : Tenant} {statement : Statement}
    {source : Source} {filter : Nat}
    (scoped_already : IsScoped statement.text (rules.columnOf tenant statement.outline.table) source
      filter) (visible : tenant.id.trim ≠ []) :
    inject rules tenant statement = .ok statement := by
  have source_found : sourceOf tenant statement.outline = .ok source := by
    have no_earlier : statement.outline.clauses.find? (fun found =>
        decide (found.offset < source.offset)) = none := by
      refine List.find?_eq_none.mpr fun found member => ?_
      have later := scoped_already.ordered found member
      simp only [decide_eq_true_eq]
      omega
    have source_eq : statement.outline.source? = some source := scoped_already.source_eq
    have single : statement.outline.compound = false := scoped_already.single
    have canonical : Canonical statement.outline.clauses := scoped_already.canonical
    simp [sourceOf, visible, source_eq, single, no_earlier, canonical]
  have left : slot? statement.text (rules.columnOf tenant statement.outline.table)
      statement.outline source = .ok none := by
    have inside : ¬ insertionPoint statement.text statement.outline source ≤ filter :=
      Nat.not_le.mpr scoped_already.inside
    have kept : (!hasAlternatives statement.text (conditionStart statement.text filter)
        (insertionPoint statement.text statement.outline source) && hasPredicate statement.text
          (rules.columnOf tenant statement.outline.table) (conditionStart statement.text filter)
          (insertionPoint statement.text statement.outline source)) = true := by
      rw [Bool.and_eq_true, Bool.not_eq_true']
      exact ⟨scoped_already.unalternated, scoped_already.held⟩
    have found : statement.outline.find? .filter = some filter := scoped_already.filter_eq
    rw [slot?_of_filter found, if_neg inside, if_pos kept]
  simp [inject, source_found, left]

end Scope

end TenantScope
