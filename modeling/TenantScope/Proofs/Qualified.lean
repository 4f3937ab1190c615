import Mathlib.Data.List.Find
import TenantScope.Proofs.Injection
import TenantScope.Proofs.Terminators

/-!
# Words of qualified names

The outline does not read a keyword directly after a full stop, where it is a part of a
qualified name, but the search for the keywords that come after every condition does.  So the
place of the predicate may lie inside a qualified name, and only there it differs from the place
at which no such word is read.
-/

namespace TenantScope

open Text Site Literal

namespace Site

/-- A keyword that comes after every condition stands at the place. -/
def isLater (site : Site) : Bool :=
  Scope.laterKeywords.any site.hasWord

/-- A keyword that ends the condition stands at the place, outside parentheses: one that begins a
clause other than `WHERE`, or one that comes after every condition. -/
def endsCondition (site : Site) : Bool :=
  site.depth == 0 &&
    ((Clause.all.any fun clause => clause != .filter && site.hasWord clause.keyword) ||
      site.isLater)

theorem exists_occursAt_of_endsCondition {site : Site} (ends : site.endsCondition = true) :
    ∃ mark : Mark, mark.occursAt site = true := by
  simp only [endsCondition, Bool.and_eq_true, Bool.or_eq_true, List.any_eq_true] at ends
  rcases ends.2 with ⟨clause, -, -, occurs⟩ | later
  · exact ⟨.clause clause, List.any_eq_true.mpr ⟨_, List.mem_singleton.mpr rfl, occurs⟩⟩
  · exact ⟨.later, later⟩

/-- A mark that ends the condition counts where a keyword of it stands, and a clause does not begin
in a qualified name. -/
theorem any_isTail_markAt? (site : Site) (wanted : Nat → Bool) :
    (site.markAt?.any fun mark => wanted mark.offset && mark.mark.isTail) =
      (wanted site.offset && (site.endsCondition && (!site.afterDot || site.isLater))) := by
  have clause_iff (clause : Clause) : (Mark.clause clause).countsAt site = true ↔
      site.depth = 0 ∧ site.hasWord clause.keyword = true ∧ site.afterDot = false := by
    simp [Mark.countsAt_iff, Mark.occursAt, Mark.keywords, Mark.inOutline]
  have later_iff : Mark.later.countsAt site = true ↔ site.depth = 0 ∧ site.isLater = true := by
    simp [Mark.countsAt_iff, Mark.occursAt, Mark.keywords, Mark.inOutline, isLater]
  rw [Bool.eq_iff_iff, Option.any_eq_true]
  simp only [Bool.and_eq_true, Bool.or_eq_true, Bool.not_eq_true', endsCondition, List.any_eq_true,
    bne_iff_ne, beq_iff_eq, markAt?, Option.map_eq_some_iff]
  constructor
  · rintro ⟨_, ⟨mark, marked, rfl⟩, here, is_tail⟩
    rw [mark?_eq_some] at marked
    refine ⟨here, ?_⟩
    cases mark with
    | clause clause =>
        obtain ⟨level, occurs, undotted⟩ := (clause_iff clause).mp marked
        have listed : clause ∈ Clause.all := by cases clause <;> decide
        exact ⟨⟨level, .inl ⟨clause, listed, by simpa [Mark.isTail] using is_tail, occurs⟩⟩,
          .inl undotted⟩
    | later =>
        obtain ⟨level, later⟩ := later_iff.mp marked
        exact ⟨⟨level, .inr later⟩, .inr later⟩
    | _ => cases is_tail
  · rintro ⟨here, ⟨level, begins⟩, reading⟩
    by_cases later : site.isLater = true
    · exact ⟨⟨.later, site.offset⟩,
        ⟨_, mark?_eq_some.mpr (later_iff.mpr ⟨level, later⟩), rfl⟩, here, rfl⟩
    · obtain ⟨clause, -, other, occurs⟩ := begins.resolve_right later
      have undotted := reading.resolve_right later
      exact ⟨⟨.clause clause, site.offset⟩,
        ⟨_, mark?_eq_some.mpr ((clause_iff clause).mpr ⟨level, occurs, undotted⟩), rfl⟩, here,
        by simpa [Mark.isTail] using other⟩

end Site

namespace Scope

/-- The places after the source where a keyword ends the condition, in qualified names too. -/
def endings (text : Text) (source : Source) : List Site :=
  (Site.start text).code.filter fun site =>
    decide (source.offset < site.offset) && site.endsCondition

/-- Where the condition ends if no word directly after a full stop is a keyword. -/
def unqualifiedPoint (text : Text) (source : Source) : Nat :=
  (((endings text source).find? fun site => !site.afterDot).map (·.offset)).getD
    (Statement.bodyEnd text)

section Endings

variable {text : Text} {source : Source}

/-- No condition ends where the source is named. -/
theorem not_isTail_of_source (source_eq : (Outline.ofText text).source? = some source)
    {mark : MarkAt} (member : mark ∈ Outline.marks text) (here : mark.offset = source.offset) :
    mark.mark.isTail = false := by
  have counts := (atOffset_of_mem_marks member).2
  have source_counts := (atOffset_of_mem_marks (mem_marks_of_source? source_eq)).2
  simp only [here] at counts source_counts
  rw [Mark.eq_of_occursAt (Mark.countsAt_iff.mp counts).2.1
    (Mark.countsAt_iff.mp source_counts).2.1]
  rfl

/-- The predicate goes before the first keyword that ends the condition, but a clause does not begin
in a qualified name. -/
theorem insertionPoint_eq_endings (source_eq : (Outline.ofText text).source? = some source)
    (ordered : ∀ found ∈ (Outline.ofText text).clauses, source.offset ≤ found.offset) :
    insertionPoint text (Outline.ofText text) source =
      (((endings text source).find? fun site => !site.afterDot || site.isLater).map (·.offset)).getD
        (Statement.bodyEnd text) := by
  have later : ((Outline.marks text).find? fun mark =>
        decide (source.offset ≤ mark.offset) && mark.mark.isTail) =
      (Outline.marks text).find? fun mark =>
        decide (source.offset < mark.offset) && mark.mark.isTail := by
    refine List.find?_congr fun mark member => ?_
    by_cases here : mark.offset = source.offset
    · rw [not_isTail_of_source source_eq member here, Bool.and_false, Bool.and_false]
    · have apart : source.offset ≤ mark.offset ↔ source.offset < mark.offset := by omega
      rw [decide_eq_decide.mpr apart]
  rw [insertionPoint_eq (resumes_of_mem_marks (mem_marks_of_source? source_eq)) ordered, firstTail?,
    later, Outline.marks, Site.find?_marks, endings, List.find?_filter]
  congr 3
  funext site
  rw [any_isTail_markAt? site fun offset => decide (source.offset < offset), ← Bool.and_assoc]
  simp

theorem offset_lt_bodyEnd_of_mem_endings {site : Site} (member : site ∈ endings text source) :
    site.offset < Statement.bodyEnd text := by
  obtain ⟨site_mem, ends⟩ := List.mem_filter.mp member
  obtain ⟨mark, occurs⟩ := exists_occursAt_of_endsCondition (Bool.and_eq_true_iff.mp ends).2
  obtain ⟨-, byte, rest, rest_eq, identifier⟩ :=
    exists_of_spoken_ne (Mark.spoken_ne_of_occursAt occurs)
  refine Statement.lt_bodyEnd ?_
  rw [← (of_mem_tour_start (List.mem_filter.mp site_mem).1).2, rest_eq]
  exact identifier

/-- The first of the places with a property is not behind any of them. -/
theorem le_of_mem_endings {wanted : Site → Bool} {site : Site} (member : site ∈ endings text source)
    (holds : wanted site = true) :
    (((endings text source).find? wanted).map (·.offset)).getD (Statement.bodyEnd text) ≤
      site.offset := by
  have ordered := (Site.pairwise_code_start text).filter fun site =>
    decide (source.offset < site.offset) && site.endsCondition
  cases first : (endings text source).find? wanted with
  | none => exact absurd holds (List.find?_eq_none.mp first site member)
  | some other => exact offset_le_of_find? ordered first member holds

/-- Not reading the words of some names, one does not find an earlier place. -/
theorem endings_antitone {wanted fewer : Site → Bool}
    (implies : ∀ site, fewer site = true → wanted site = true) :
    (((endings text source).find? wanted).map (·.offset)).getD (Statement.bodyEnd text) ≤
      (((endings text source).find? fewer).map (·.offset)).getD (Statement.bodyEnd text) := by
  cases found : (endings text source).find? fewer with
  | some site =>
      exact le_of_mem_endings (List.mem_of_find?_eq_some found)
        (implies site (List.find?_some found))
  | none =>
      cases other : (endings text source).find? wanted with
      | none => exact le_rfl
      | some site => exact (offset_lt_bodyEnd_of_mem_endings (List.mem_of_find?_eq_some other)).le

section Found

variable (source_eq : (Outline.ofText text).source? = some source)
  (ordered : ∀ found ∈ (Outline.ofText text).clauses, source.offset ≤ found.offset)

include source_eq ordered

/-- The predicate goes to the end of the body or before a keyword that ends the condition. -/
theorem exists_ending_of_insertionPoint :
    insertionPoint text (Outline.ofText text) source = Statement.bodyEnd text ∨
      ∃ site ∈ endings text source, site.offset = insertionPoint text (Outline.ofText text) source ∧
        (!site.afterDot || site.isLater) = true := by
  rw [insertionPoint_eq_endings source_eq ordered]
  cases first : (endings text source).find? fun site => !site.afterDot || site.isLater with
  | none => exact .inl rfl
  | some site =>
      have reading := List.find?_some first
      exact .inr ⟨site, List.mem_of_find?_eq_some first, rfl, reading⟩

theorem insertionPoint_le_ending {site : Site} (member : site ∈ endings text source)
    (reading : (!site.afterDot || site.isLater) = true) :
    insertionPoint text (Outline.ofText text) source ≤ site.offset :=
  (insertionPoint_eq_endings source_eq ordered).trans_le (le_of_mem_endings member reading)

/-- Words of qualified names change the place of the predicate only if one of
them comes before it. -/
theorem insertionPoint_eq_unqualifiedPoint_iff :
    insertionPoint text (Outline.ofText text) source = unqualifiedPoint text source ↔
      ∀ site ∈ endings text source, site.afterDot = true → site.isLater = true →
        unqualifiedPoint text source ≤ site.offset := by
  constructor
  · intro same site member _ later
    exact same ▸ insertionPoint_le_ending source_eq ordered member (by simp [later])
  · intro behind
    have no_later :
        insertionPoint text (Outline.ofText text) source ≤ unqualifiedPoint text source := by
      rw [insertionPoint_eq_endings source_eq ordered]
      exact endings_antitone fun site undotted => by rw [undotted, Bool.true_or]
    refine le_antisymm no_later ?_
    rcases exists_ending_of_insertionPoint source_eq ordered with
      last | ⟨site, member, offset_eq, reading⟩
    · rw [last]
      cases plain : (endings text source).find? fun site => !site.afterDot with
      | none => rw [unqualifiedPoint, plain]; exact le_rfl
      | some site =>
          rw [unqualifiedPoint, plain]
          exact (offset_lt_bodyEnd_of_mem_endings (List.mem_of_find?_eq_some plain)).le
    · rw [← offset_eq]
      cases dotted : site.afterDot with
      | false => exact le_of_mem_endings member (by simp [dotted])
      | true => exact behind site member dotted (by simpa [dotted] using reading)

end Found

end Endings

/-! ## The text behind a slot -/

/-- The place of the predicate is not among the bytes of the `WHERE`. -/
theorem add_five_le_insertionPoint {text : Text} {source : Source} {filter : Nat}
    (source_eq : (Outline.ofText text).source? = some source)
    (ordered : ∀ found ∈ (Outline.ofText text).clauses, source.offset ≤ found.offset)
    (filter_eq : (Outline.ofText text).find? .filter = some filter)
    (inside : filter < insertionPoint text (Outline.ofText text) source) :
    filter + 5 ≤ insertionPoint text (Outline.ofText text) source := by
  have member := mem_marks_of_find? filter_eq
  have point_eq := insertionPoint_eq (resumes_of_mem_marks (mem_marks_of_source? source_eq)) ordered
  cases first : firstTail? text source.offset with
  | none =>
      rw [first, Option.getD_none] at point_eq
      rw [point_eq] at inside ⊢
      exact add_five_le_bodyEnd member
  | some stop =>
      rw [first, Option.getD_some] at point_eq
      obtain ⟨mark, found, rfl⟩ := Option.map_eq_some_iff.mp first
      rw [point_eq] at inside ⊢
      exact add_five_le_of_mem_marks_of_lt member (List.mem_of_find?_eq_some found) inside

/-- Behind a slot come white space and the text from the place of the predicate on. -/
theorem exists_gap_of_slot {text column : Text} {tenant : Tenant} {source : Source} {slot : Slot}
    (found : sourceOf tenant (Outline.ofText text) = .ok source)
    (chosen : slot? text column (Outline.ofText text) source = .ok (some slot)) :
    ∃ gap, (∀ byte ∈ gap, byte.isSpace = true) ∧
      slot.after = gap ++ text.drop (insertionPoint text (Outline.ofText text) source) := by
  obtain ⟨-, source_eq, -, ordered, -⟩ := sourceOf_eq_ok found
  rcases slot_cases chosen with ⟨-, rfl⟩ | ⟨filter, filter_eq, inside, rfl⟩
  · exact ⟨_, by split <;> decide +kernel, rfl⟩
  · have fits := add_five_le_insertionPoint source_eq ordered filter_eq inside
    generalize insertionPoint text (Outline.ofText text) source = stop at *
    obtain ⟨gap, blank, split⟩ := exists_trimRight_append (Statement.slice text (filter + 5) stop)
    refine ⟨gap, blank, ?_⟩
    rw [conditionSlot_after, ← List.drop_drop, ← Statement.slice_append_drop fits]
    conv => lhs; arg 2; rw [split]
    rw [List.append_assoc, List.drop_left]

/-- The predicate goes to the end of the body or before the first keyword after the source that ends
the condition, outside literals and parentheses.  That keyword stands directly after a full stop at
most where it is none of the outline; so it stands where it would if the words of qualified names
were no keywords, unless a word of such a name comes before.  Behind the predicate come white space
and the statement from that place on. -/
theorem insertionPoint_of_inject {rules : ScopeRules} {tenant : Tenant}
    {statement result : Statement} (injected : inject rules tenant statement = .ok result) :
    ∃ source, statement.outline.source? = some source ∧
      let point := insertionPoint statement.text statement.outline source
      let plain := unqualifiedPoint statement.text source
      (point = Statement.bodyEnd statement.text ∨ ∃ site ∈ endings statement.text source,
        site.offset = point ∧ (site.afterDot = true → site.isLater = true)) ∧
      (∀ site ∈ endings statement.text source, (site.afterDot = true → site.isLater = true) →
        point ≤ site.offset) ∧
      (point = plain ↔ ∀ site ∈ endings statement.text source, site.afterDot = true →
        site.isLater = true → plain ≤ site.offset) ∧
      (result = statement ∨ ∃ front gap, (∀ byte ∈ gap, byte.isSpace = true) ∧
        result.text = front ++
          predicate (rules.columnOf tenant statement.outline.table) tenant.id ++
            (gap ++ statement.text.drop point)) := by
  have reading_iff (site : Site) : (!site.afterDot || site.isLater) = true ↔
      (site.afterDot = true → site.isLater = true) := by
    cases site.afterDot <;> simp
  obtain ⟨source, found, outcome⟩ := inject_cases injected
  obtain ⟨-, source_eq, -, ordered, -⟩ := sourceOf_eq_ok found
  refine ⟨source, source_eq, ?_, fun site member reading => ?_, ?_, ?_⟩
  · simp only [← reading_iff]
    exact exists_ending_of_insertionPoint source_eq ordered
  · exact insertionPoint_le_ending source_eq ordered member ((reading_iff site).mpr reading)
  · exact insertionPoint_eq_unqualifiedPoint_iff source_eq ordered
  · rcases outcome with ⟨same, -⟩ | ⟨slot, chosen, rfl, -⟩
    · exact .inl same
    · obtain ⟨gap, blank, after_eq⟩ := exists_gap_of_slot found chosen
      refine .inr ⟨slot.before, gap, blank, ?_⟩
      rw [Statement.withText, Slot.fill, after_eq]
      rfl

/-- A statement with a qualified name behind the place of the predicate. -/
theorem insertionPoint_of_inject_order :
    inject {} { id := ascii "x" } ⟨[], ascii "SELECT a FROM t ORDER BY t.for"⟩ =
      .ok ⟨[], ascii "SELECT a FROM t WHERE tenant_id = 'x' ORDER BY t.for"⟩ ∧
    ∃ source, (Outline.ofText (ascii "SELECT a FROM t ORDER BY t.for")).source? = some source ∧
      (∃ site ∈ endings (ascii "SELECT a FROM t ORDER BY t.for") source, site.afterDot = true) ∧
      insertionPoint (ascii "SELECT a FROM t ORDER BY t.for")
        (Outline.ofText (ascii "SELECT a FROM t ORDER BY t.for")) source = 16 := by
  have injected : inject {} { id := ascii "x" } ⟨[], ascii "SELECT a FROM t ORDER BY t.for"⟩ =
      .ok ⟨[], ascii "SELECT a FROM t WHERE tenant_id = 'x' ORDER BY t.for"⟩ := by
    decide +kernel
  have known : (Outline.ofText (ascii "SELECT a FROM t ORDER BY t.for")).source? =
      some ⟨9, ascii "t"⟩ := by
    decide +kernel
  obtain ⟨source, source_eq, -, -, plain_iff, -⟩ := insertionPoint_of_inject injected
  obtain rfl : ⟨9, ascii "t"⟩ = source := Option.some.inj (known.symm.trans source_eq)
  refine ⟨injected, _, source_eq, by decide +kernel, ?_⟩
  exact (plain_iff.mpr (by decide +kernel)).trans (by decide +kernel)

/-- A column with the name of a clause: the predicate is put inside its qualified name, and not
where it would be put if the column had another name. -/
theorem inject_in_qualified_name :
    inject {} { id := ascii "x" } ⟨[], ascii "SELECT * FROM t WHERE t.offset = 1"⟩ =
      .ok ⟨[], ascii "SELECT * FROM t WHERE t. AND tenant_id = 'x'offset = 1"⟩ ∧
    inject {} { id := ascii "x" } ⟨[], ascii "SELECT * FROM t WHERE t.amount = 1"⟩ =
      .ok ⟨[], ascii "SELECT * FROM t WHERE t.amount = 1 AND tenant_id = 'x'"⟩ ∧
    ∃ source, (Outline.ofText (ascii "SELECT * FROM t WHERE t.offset = 1")).source? = some source ∧
      insertionPoint (ascii "SELECT * FROM t WHERE t.offset = 1")
        (Outline.ofText (ascii "SELECT * FROM t WHERE t.offset = 1")) source = 24 ∧
      (Site.atOffset (ascii "SELECT * FROM t WHERE t.offset = 1") 24).afterDot = true ∧
      unqualifiedPoint (ascii "SELECT * FROM t WHERE t.offset = 1") source = 34 ∧
      Statement.bodyEnd (ascii "SELECT * FROM t WHERE t.offset = 1") = 34 :=
  ⟨by decide +kernel, by decide +kernel, ⟨9, ascii "t"⟩, by decide +kernel, by decide +kernel,
    by decide +kernel, by decide +kernel, by decide +kernel⟩

end Scope

end TenantScope
