import Mathlib.Order.Bounds.Basic
import TenantScope.Proofs.Marks

/-!
# Where the condition ends

The place for a predicate lies before the first mark that ends the condition.  Both ways
of searching a text, for the clauses of the outline and for single keywords, come down
to searching its marks.
-/

namespace TenantScope

namespace Word

open Text

/-- A search between two offsets stops at the place. -/
def soughtAt (keyword : Text) (start stop : Nat) (site : Site) : Bool :=
  (decide (start ≤ site.offset) && decide (site.offset < stop)) &&
    (site.isTopLevel && (site.word? keyword).any (site.offset + · ≤ stop))

/-- A search from an offset at which the reading may be taken up goes through all of the code. -/
theorem firstTopLevel?_eq (keyword : Text) {text : Text} {start stop : Nat}
    (resumes : Site.Resumes text start) (within : stop ≤ text.length) :
    firstTopLevel? keyword text start stop =
      ((Site.start text).code.find? (soughtAt keyword start stop)).map (·.offset) := by
  have ordered := (Site.pairwise_code_start text).filter fun place =>
    decide (start ≤ place.offset)
  rw [firstTopLevel?, Nat.min_eq_left within, resumes]
  rw [takeWhile_offset_lt ordered, List.filter_filter, List.find?_filter]
  congr 2
  funext site
  unfold soughtAt
  cases decide (start ≤ site.offset) <;> cases decide (site.offset < stop) <;> simp

theorem soughtAt_iff {name : Text} (is_name : IsName name) {start stop : Nat} {site : Site} :
    soughtAt name start stop site = true ↔
      (start ≤ site.offset ∧ site.offset + name.length ≤ stop) ∧
        site.depth = 0 ∧ site.spoken = name := by
  have length_pos : 0 < name.length := List.length_pos_iff.mpr is_name.nonempty
  rw [soughtAt, Site.word?_of_isName is_name]
  by_cases spoken_eq : site.spoken = name
  · have not_paren := Site.not_atParen_of_spoken_ne (spoken_eq ▸ is_name.nonempty)
    simp only [spoken_eq, Site.isTopLevel, not_paren, if_true, Option.any_some, Bool.not_false,
      Bool.and_true, Bool.and_eq_true, decide_eq_true_eq, beq_iff_eq, and_true]
    omega
  · simp [spoken_eq]

end Word

namespace Scope

open Text

theorem isName_of_mem_laterKeywords : ∀ keyword ∈ laterKeywords, IsName keyword := by
  decide +kernel

/-- An `OR` is found between two offsets exactly when its mark stands there. -/
theorem isSome_firstTopLevel?_or {text : Text} {start stop : Nat}
    (resumes : Site.Resumes text start) (within : stop ≤ text.length) :
    (Word.firstTopLevel? (ascii "OR") text start stop).isSome = true ↔
      ∃ mark ∈ Outline.marks text,
        mark.mark = .alternative ∧ start ≤ mark.offset ∧ mark.offset + 2 ≤ stop := by
  have is_name : IsName (ascii "OR") := by decide +kernel
  have length_eq : (ascii "OR").length = 2 := rfl
  have occurs_iff (site : Site) : Mark.alternative.occursAt site = true ↔
      site.spoken = ascii "OR" := by
    simp [Mark.occursAt, Mark.keywords, Site.hasWord_of_isName is_name]
  rw [Word.firstTopLevel?_eq _ resumes within, Option.isSome_map, List.find?_isSome]
  constructor
  · rintro ⟨site, member, found⟩
    obtain ⟨⟨after, before⟩, depth_eq, spoken_eq⟩ := (Word.soughtAt_iff is_name).mp found
    have counts : Mark.alternative.countsAt site = true :=
      Mark.countsAt_iff.mpr ⟨depth_eq, (occurs_iff site).mpr spoken_eq, by simp [Mark.inOutline]⟩
    exact ⟨⟨.alternative, site.offset⟩,
      Site.mem_marks.mpr ⟨site, member, Site.mark?_eq_some.mpr counts, rfl⟩, rfl, after, before⟩
  · rintro ⟨mark, member, mark_eq, after, before⟩
    obtain ⟨site, site_mem, marked, offset_eq⟩ := Site.mem_marks.mp member
    rw [mark_eq, Site.mark?_eq_some, Mark.countsAt_iff, occurs_iff] at marked
    exact ⟨site, site_mem, (Word.soughtAt_iff is_name).mpr
      ⟨⟨by omega, by omega⟩, marked.1, marked.2.1⟩⟩

/-- Offset of the first mark from an offset on that ends the condition. -/
def firstTail? (text : Text) (start : Nat) : Option Nat :=
  ((Outline.marks text).find? fun mark =>
    decide (start ≤ mark.offset) && mark.mark.isTail).map (·.offset)

theorem mem_marks_of_find? {text : Text} {clause : Clause} {offset : Nat}
    (found : (Outline.ofText text).find? clause = some offset) :
    ⟨.clause clause, offset⟩ ∈ Outline.marks text := by
  rw [Outline.find?_ofText] at found
  obtain ⟨mark, mark_found, rfl⟩ := Option.map_eq_some_iff.mp found
  have mark_eq : mark.mark = .clause clause := by simpa using List.find?_some mark_found
  rw [← mark_eq]
  exact List.mem_of_find?_eq_some mark_found

/-- The outline lists the first of the marks of a clause. -/
theorem exists_listed {text : Text} {clause : Clause} {mark : MarkAt}
    (member : mark ∈ Outline.marks text) (mark_eq : mark.mark = .clause clause) :
    ∃ found ∈ (Outline.ofText text).clauses,
      found.clause = clause ∧ found.offset ≤ mark.offset := by
  cases first : (Outline.marks text).find? fun found => found.mark == .clause clause with
  | none => exact absurd mark_eq (by simpa using List.find?_eq_none.mp first mark member)
  | some known =>
      have known_le := offset_le_of_find? (pairwise_marks text) first member
        (by simp [mark_eq])
      have listed := Outline.find?_ofText text clause
      rw [first, Option.map_some, Outline.find?, ClauseAt.find?] at listed
      obtain ⟨found, found_eq, offset_eq⟩ := Option.map_eq_some_iff.mp listed
      refine ⟨found, List.mem_of_find?_eq_some found_eq, ?_, by omega⟩
      simpa using List.find?_some found_eq

/-- The offsets of which the earliest is taken. -/
private def candidates (text : Text) (source : Source) : List Nat :=
  (Outline.ofText text).earliestTail?.toList ++
    laterKeywords.filterMap fun keyword =>
      Word.firstTopLevel? keyword text source.offset text.length

/-- Each candidate is the offset of a mark that ends the condition. -/
private theorem mark_of_candidate {text : Text} {source : Source}
    (resumes : Site.Resumes text source.offset)
    (after : ∀ found ∈ (Outline.ofText text).clauses, source.offset ≤ found.offset) {offset : Nat}
    (member : offset ∈ candidates text source) :
    ∃ mark ∈ Outline.marks text,
      source.offset ≤ mark.offset ∧ mark.mark.isTail = true ∧ mark.offset = offset := by
  rcases List.mem_append.mp member with member | member
  · rw [Option.mem_toList, Outline.earliestTail?] at member
    obtain ⟨found, found_mem, rfl⟩ := List.mem_map.mp (List.min?_mem member)
    obtain ⟨listed, is_tail⟩ := List.mem_filter.mp found_mem
    exact ⟨⟨.clause found.clause, found.offset⟩,
      mem_marks_of_find? (Outline.listed_ofText text found listed), after found listed,
      is_tail, rfl⟩
  · obtain ⟨keyword, keyword_mem, found⟩ := List.mem_filterMap.mp member
    have is_name := isName_of_mem_laterKeywords keyword keyword_mem
    rw [Word.firstTopLevel?_eq _ resumes (Nat.le_refl _)] at found
    obtain ⟨site, site_found, rfl⟩ := Option.map_eq_some_iff.mp found
    obtain ⟨⟨from_source, -⟩, depth_eq, spoken_eq⟩ :=
      (Word.soughtAt_iff is_name).mp (List.find?_some site_found)
    have occurs : Mark.later.occursAt site = true :=
      List.any_eq_true.mpr
        ⟨keyword, keyword_mem, (Site.hasWord_of_isName is_name site).mpr spoken_eq⟩
    have counts : Mark.later.countsAt site = true :=
      Mark.countsAt_iff.mpr ⟨depth_eq, occurs, by simp [Mark.inOutline]⟩
    exact ⟨⟨.later, site.offset⟩, Site.mem_marks.mpr
      ⟨site, List.mem_of_find?_eq_some site_found, Site.mark?_eq_some.mpr counts, rfl⟩,
      from_source, rfl, rfl⟩

/-- Each mark that ends the condition has a candidate at it or before it. -/
private theorem candidate_of_mark {text : Text} {source : Source}
    (resumes : Site.Resumes text source.offset) {mark : MarkAt}
    (member : mark ∈ Outline.marks text) (from_source : source.offset ≤ mark.offset)
    (is_tail : mark.mark.isTail = true) :
    ∃ offset ∈ candidates text source, offset ≤ mark.offset := by
  obtain ⟨kind, offset⟩ := mark
  cases kind with
  | clause clause =>
      obtain ⟨found, listed, clause_eq, found_le⟩ := exists_listed member rfl
      have found_mem : found.offset ∈
          (((Outline.ofText text).clauses.filter fun found => found.clause != .filter).map
            (·.offset)) :=
        List.mem_map_of_mem (List.mem_filter.mpr ⟨listed, by rwa [clause_eq]⟩)
      cases earliest : (Outline.ofText text).earliestTail? with
      | none =>
          rw [Outline.earliestTail?, List.min?_eq_none_iff] at earliest
          simp [earliest] at found_mem
      | some least =>
          have least_le := (List.min?_eq_some_iff.mp earliest).2 found.offset found_mem
          exact ⟨least, by simp [candidates, earliest], Nat.le_trans least_le found_le⟩
  | later =>
      obtain ⟨site, site_mem, marked, offset_eq⟩ := Site.mem_marks.mp member
      rw [Site.mark?_eq_some, Mark.countsAt_iff] at marked
      obtain ⟨keyword, keyword_mem, occurs⟩ := List.any_eq_true.mp marked.2.1
      have is_name := isName_of_mem_laterKeywords keyword keyword_mem
      rw [Site.hasWord_of_isName is_name] at occurs
      have fits := Site.length_spoken_le site
      rw [occurs] at fits
      have total := Site.offset_add_length site_mem
      have wanted : Word.soughtAt keyword source.offset text.length site = true :=
        (Word.soughtAt_iff is_name).mpr
          ⟨⟨by simpa [offset_eq] using from_source, by omega⟩, marked.1, occurs⟩
      have found := Word.firstTopLevel?_eq keyword resumes (Nat.le_refl text.length)
      cases first : (Site.start text).code.find?
          (Word.soughtAt keyword source.offset text.length) with
      | none => exact absurd wanted (List.find?_eq_none.mp first site site_mem)
      | some place =>
          rw [first, Option.map_some] at found
          have place_le := offset_le_of_find? (Site.pairwise_code_start text) first site_mem wanted
          exact ⟨place.offset, List.mem_append_right _
            (List.mem_filterMap.mpr ⟨keyword, keyword_mem, found⟩), by
              simpa [offset_eq] using place_le⟩
  | source => simp [Mark.isTail] at is_tail
  | combination => simp [Mark.isTail] at is_tail
  | alternative => simp [Mark.isTail] at is_tail

/-- The predicate goes before the first mark after the source that ends the condition, or to
the end of the body. -/
theorem insertionPoint_eq {text : Text} {source : Source}
    (resumes : Site.Resumes text source.offset)
    (after : ∀ found ∈ (Outline.ofText text).clauses, source.offset ≤ found.offset) :
    insertionPoint text (Outline.ofText text) source =
      (firstTail? text source.offset).getD (Statement.bodyEnd text) := by
  change (candidates text source).min?.getD _ = _
  unfold firstTail?
  congr 1
  cases first : (Outline.marks text).find? fun mark =>
      decide (source.offset ≤ mark.offset) && mark.mark.isTail with
  | none =>
      rw [Option.map_none, List.min?_eq_none_iff]
      refine List.eq_nil_iff_forall_not_mem.mpr fun offset member => ?_
      obtain ⟨mark, mark_mem, from_source, is_tail, -⟩ := mark_of_candidate resumes after member
      have fails := List.find?_eq_none.mp first mark mark_mem
      simp [from_source, is_tail] at fails
  | some mark =>
      have ordered := pairwise_marks text
      have mark_mem := List.mem_of_find?_eq_some first
      have wanted := List.find?_some first
      simp only [Bool.and_eq_true, decide_eq_true_eq] at wanted
      have least (offset : Nat) (member : offset ∈ candidates text source) :
          mark.offset ≤ offset := by
        obtain ⟨other, other_mem, from_source, is_tail, rfl⟩ :=
          mark_of_candidate resumes after member
        exact offset_le_of_find? ordered first other_mem (by simp [from_source, is_tail])
      obtain ⟨offset, offset_mem, offset_le⟩ := candidate_of_mark resumes mark_mem wanted.1 wanted.2
      have offset_eq : offset = mark.offset := Nat.le_antisymm offset_le (least offset offset_mem)
      rw [Option.map_some]
      exact List.min?_eq_some_iff.mpr ⟨offset_eq ▸ offset_mem, least⟩

/-- The offsets of what ends a condition: the clauses of the outline other than `WHERE`, and from
the source on the words `WINDOW`, `OFFSET`, `FETCH` and `FOR` outside literals and parentheses. -/
def conditionEnds (text : Text) (source : Source) : Set Nat :=
  {offset |
    (∃ found ∈ (Outline.ofText text).clauses, found.clause ≠ .filter ∧ found.offset = offset) ∨
      ∃ keyword ∈ [ascii "WINDOW", ascii "OFFSET", ascii "FETCH", ascii "FOR"],
        ∃ site ∈ (Site.start text).code, site.offset = offset ∧ source.offset ≤ offset ∧
          site.isTopLevel = true ∧ site.hasWord keyword = true}

private theorem mem_conditionEnds_of_candidate {text : Text} {source : Source}
    (resumes : Site.Resumes text source.offset) {offset : Nat}
    (member : offset ∈ candidates text source) : offset ∈ conditionEnds text source := by
  rcases List.mem_append.mp member with member | member
  · rw [Option.mem_toList, Outline.earliestTail?] at member
    obtain ⟨found, found_mem, rfl⟩ := List.mem_map.mp (List.min?_mem member)
    obtain ⟨listed, is_tail⟩ := List.mem_filter.mp found_mem
    exact .inl ⟨found, listed, bne_iff_ne.mp is_tail, rfl⟩
  · obtain ⟨keyword, keyword_mem, found⟩ := List.mem_filterMap.mp member
    have is_name := isName_of_mem_laterKeywords keyword keyword_mem
    rw [Word.firstTopLevel?_eq _ resumes (Nat.le_refl _)] at found
    obtain ⟨site, site_found, rfl⟩ := Option.map_eq_some_iff.mp found
    obtain ⟨⟨from_source, -⟩, level, spoken_eq⟩ :=
      (Word.soughtAt_iff is_name).mp (List.find?_some site_found)
    have not_paren := Site.not_atParen_of_spoken_ne (spoken_eq ▸ is_name.nonempty)
    exact .inr ⟨keyword, keyword_mem, site, List.mem_of_find?_eq_some site_found, rfl, from_source,
      by simp [Site.isTopLevel, level, not_paren],
      (Site.hasWord_of_isName is_name site).mpr spoken_eq⟩

private theorem mark_of_mem_conditionEnds {text : Text} {source : Source}
    (after : ∀ found ∈ (Outline.ofText text).clauses, source.offset ≤ found.offset) {offset : Nat}
    (member : offset ∈ conditionEnds text source) :
    ∃ mark ∈ Outline.marks text,
      source.offset ≤ mark.offset ∧ mark.mark.isTail = true ∧ mark.offset = offset := by
  rcases member with ⟨found, listed, is_tail, rfl⟩ |
    ⟨keyword, keyword_mem, site, site_mem, rfl, from_source, outermost, occurs⟩
  · exact ⟨⟨.clause found.clause, found.offset⟩,
      mem_marks_of_find? (Outline.listed_ofText text found listed), after found listed,
      bne_iff_ne.mpr is_tail, rfl⟩
  · simp only [Site.isTopLevel, Bool.and_eq_true, beq_iff_eq] at outermost
    have counts : Mark.later.countsAt site = true :=
      Mark.countsAt_iff.mpr ⟨outermost.1, List.any_eq_true.mpr ⟨keyword, keyword_mem, occurs⟩,
        by simp [Mark.inOutline]⟩
    exact ⟨⟨.later, site.offset⟩,
      Site.mem_marks.mpr ⟨site, site_mem, Site.mark?_eq_some.mpr counts, rfl⟩, from_source,
      rfl, rfl⟩

/-- The predicate goes before the earliest thing that ends the condition, or to the end of the body
when nothing ends it. -/
theorem isLeast_insertionPoint {text : Text} {source : Source}
    (resumes : Site.Resumes text source.offset)
    (after : ∀ found ∈ (Outline.ofText text).clauses, source.offset ≤ found.offset) :
    IsLeast (conditionEnds text source) (insertionPoint text (Outline.ofText text) source) ∨
      conditionEnds text source = ∅ ∧
        insertionPoint text (Outline.ofText text) source = Statement.bodyEnd text := by
  have candidate_le {offset : Nat} (member : offset ∈ conditionEnds text source) :
      ∃ candidate ∈ candidates text source, candidate ≤ offset := by
    obtain ⟨mark, mark_mem, from_source, is_tail, rfl⟩ := mark_of_mem_conditionEnds after member
    exact candidate_of_mark resumes mark_mem from_source is_tail
  change IsLeast _ ((candidates text source).min?.getD _) ∨
    _ ∧ (candidates text source).min?.getD _ = _
  cases least : (candidates text source).min? with
  | none =>
      refine .inr ⟨Set.eq_empty_iff_forall_notMem.mpr fun offset member => ?_, rfl⟩
      obtain ⟨candidate, candidate_mem, -⟩ := candidate_le member
      rw [List.min?_eq_none_iff.mp least] at candidate_mem
      exact List.not_mem_nil candidate_mem
  | some stop =>
      refine .inl ⟨mem_conditionEnds_of_candidate resumes (List.min?_mem least),
        fun offset member => ?_⟩
      obtain ⟨candidate, candidate_mem, candidate_le⟩ := candidate_le member
      exact ((List.min?_eq_some_iff.mp least).2 candidate candidate_mem).trans candidate_le

theorem lt_length_of_mem_marks {text : Text} {mark : MarkAt} (member : mark ∈ Outline.marks text) :
    mark.offset < text.length := by
  obtain ⟨site, site_mem, -, offset_eq⟩ := Site.mem_marks.mp member
  have total := Site.offset_add_length site_mem
  have rest_pos := List.length_pos_iff.mpr
    (Site.rest_ne_nil_of_mem_walk (List.mem_filter.mp site_mem).1)
  omega

theorem insertionPoint_le (text : Text) (source : Source) :
    insertionPoint text (Outline.ofText text) source ≤ text.length := by
  change (candidates text source).min?.getD _ ≤ _
  cases least : (candidates text source).min? with
  | none => exact Statement.bodyEnd_le text
  | some offset =>
      rw [Option.getD_some]
      rcases List.mem_append.mp (List.min?_mem least) with member | member
      · rw [Option.mem_toList, Outline.earliestTail?] at member
        obtain ⟨found, found_mem, rfl⟩ := List.mem_map.mp (List.min?_mem member)
        have listed := (List.mem_filter.mp found_mem).1
        exact Nat.le_of_lt (lt_length_of_mem_marks
          (mem_marks_of_find? (Outline.listed_ofText text found listed)))
      · obtain ⟨keyword, -, found⟩ := List.mem_filterMap.mp member
        obtain ⟨site, site_found, rfl⟩ := Option.map_eq_some_iff.mp found
        have before := List.mem_takeWhile_imp (List.mem_of_find?_eq_some site_found)
        simp only [decide_eq_true_eq] at before
        omega

/-! ## The choice of a slot -/

/-- Offset just after the `WHERE` at an offset. -/
def conditionStart (text : Text) (offset : Nat) : Nat :=
  offset + ((Site.atOffset text offset).word? Clause.filter.keyword).getD 0

/-- An `OR` stands on the outermost level of the condition between two offsets. -/
def hasAlternatives (text : Text) (start stop : Nat) : Bool :=
  (Word.firstTopLevel? (ascii "OR") text start stop).isSome

/-- Where a condition is, its alternatives and its predicate decide on the slot. -/
theorem slot?_of_filter {text column : Text} {outline : Outline} {source : Source} {offset : Nat}
    (found : outline.find? .filter = some offset) :
    slot? text column outline source =
      (if insertionPoint text outline source ≤ offset then .error .filterAfterTail
      else if !hasAlternatives text (conditionStart text offset)
          (insertionPoint text outline source) && hasPredicate text column
            (conditionStart text offset) (insertionPoint text outline source) then .ok none
      else .ok (some (conditionSlot text (conditionStart text offset)
        (insertionPoint text outline source) (hasAlternatives text (conditionStart text offset)
          (insertionPoint text outline source))))) := by
  rw [slot?, found]
  rfl

/-- What a slot is chosen for: a statement without a condition gets one, a scoped one is left as it
is, and any other one has its condition extended. -/
theorem slot?_cases {text column : Text} {outline : Outline} {source : Source}
    {result : Option Slot} (chosen : slot? text column outline source = .ok result) :
    (outline.find? .filter = none ∧
      result = some (newConditionSlot text (insertionPoint text outline source))) ∨
    ∃ offset, outline.find? .filter = some offset ∧ offset < insertionPoint text outline source ∧
      ((hasAlternatives text (conditionStart text offset) (insertionPoint text outline source) =
            false ∧
          hasPredicate text column (conditionStart text offset)
            (insertionPoint text outline source) = true ∧
          result = none) ∨
        (hasAlternatives text (conditionStart text offset) (insertionPoint text outline source) =
              true ∨
            hasPredicate text column (conditionStart text offset)
              (insertionPoint text outline source) = false) ∧
          result = some (conditionSlot text (conditionStart text offset)
            (insertionPoint text outline source)
            (hasAlternatives text (conditionStart text offset)
              (insertionPoint text outline source)))) := by
  cases found : outline.find? .filter with
  | none =>
      rw [slot?, found] at chosen
      exact .inl ⟨rfl, by simpa using chosen.symm⟩
  | some offset =>
      refine .inr ⟨offset, rfl, ?_⟩
      rw [slot?_of_filter found] at chosen
      split at chosen
      · simp at chosen
      · rename_i before_tail
        refine ⟨by omega, ?_⟩
        split at chosen
        · rename_i scoped_already
          simp only [Bool.and_eq_true, Bool.not_eq_true'] at scoped_already
          exact .inl ⟨scoped_already.1, scoped_already.2, by simpa using chosen.symm⟩
        · rename_i unscoped
          refine .inr ⟨?_, by simpa using chosen.symm⟩
          simpa only [Bool.and_eq_true, Bool.not_eq_true', not_and_or, Bool.not_eq_false,
            Bool.not_eq_true] using unscoped

end Scope

end TenantScope
