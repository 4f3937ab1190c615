import TenantScope.Proofs.Extents

/-!
# How the clauses divide a statement

The region of a clause runs from its keyword, which it holds as a whole, to the keyword of the
clause listed next, or to the end of the body.  So the regions lie end to end, and together they are
the body from the first clause on.
-/

namespace TenantScope

open Text Site

/-! ## Ranges that lie end to end -/

/-- A range of the offsets of a text. -/
structure Stretch where
  /-- Offset of its first byte. -/
  start : Nat
  /-- Offset behind its last byte. -/
  stop : Nat

/-- Ranges that lie end to end: the first begins at `start`, each later one where the one before it
ends, and the last ends at `stop`. -/
def Tiles (stop : Nat) : (start : Nat) → List Stretch → Prop
  | start, [] => start = stop
  | start, stretch :: others =>
      stretch.start = start ∧ start ≤ stretch.stop ∧ Tiles stop stretch.stop others

namespace Tiles

variable {start stop : Nat} {stretches : List Stretch}

theorem start_le_stop (tiles : Tiles stop start stretches) : start ≤ stop := by
  induction stretches generalizing start with
  | nil => exact tiles.le
  | cons stretch others ih => exact tiles.2.1.trans (ih tiles.2.2)

theorem start_le_of_mem (tiles : Tiles stop start stretches) :
    ∀ stretch ∈ stretches, start ≤ stretch.start := by
  induction stretches generalizing start with
  | nil => exact List.forall_mem_nil _
  | cons stretch others ih =>
      obtain ⟨start_eq, forward, rest⟩ := tiles
      rw [List.forall_mem_cons]
      exact ⟨start_eq.ge, fun other member => forward.trans (ih rest other member)⟩

/-- No two of the ranges overlap. -/
theorem pairwise (tiles : Tiles stop start stretches) :
    stretches.Pairwise fun earlier later => earlier.stop ≤ later.start := by
  induction stretches generalizing start with
  | nil => exact .nil
  | cons stretch others ih => exact .cons (start_le_of_mem tiles.2.2) (ih tiles.2.2)

/-- The ranges leave nothing out. -/
theorem exists_mem_iff (tiles : Tiles stop start stretches) (place : Nat) :
    (∃ stretch ∈ stretches, stretch.start ≤ place ∧ place < stretch.stop) ↔ start ≤ place ∧
    place < stop := by
  induction stretches generalizing start with
  | nil =>
      obtain rfl : start = stop := tiles
      simp only [List.not_mem_nil, false_and, exists_false, false_iff]
      omega
  | cons stretch others ih =>
      obtain ⟨rfl, forward, rest⟩ := tiles
      have behind := rest.start_le_stop
      rw [List.exists_mem_cons_iff, ih rest]
      omega

/-- The pieces of a text in the ranges, one after the other, are the piece from the first
offset to the last. -/
theorem flatten_slices (tiles : Tiles stop start stretches) (text : Text) :
    (stretches.map fun stretch => Statement.slice text stretch.start stretch.stop).flatten =
      Statement.slice text start stop := by
  induction stretches generalizing start with
  | nil =>
      obtain rfl : start = stop := tiles
      simp [Statement.slice]
  | cons stretch others ih =>
      obtain ⟨rfl, forward, rest⟩ := tiles
      rw [List.map_cons, List.flatten_cons, ih rest,
        Statement.slice_append forward rest.start_le_stop]

end Tiles

/-! ## Regions -/

namespace Statement

/-- Where the first of some clauses begins, or the body ends if there is none. -/
def nextStart (text : Text) (clauses : List ClauseAt) : Nat :=
  (clauses.head?.map (·.offset)).getD (bodyEnd text)

variable {statement : Statement} {front back : List ClauseAt} {found : ClauseAt}

/-- The region of a clause ends where the next one begins. -/
theorem regionEnd_eq_nextStart (listed : statement.outline.clauses = front ++ found :: back) :
    statement.regionEnd found.offset = nextStart statement.text back := by
  have signs_eq : statement.outline.clauses.map ClauseAt.toSign =
      front.map ClauseAt.toSign ++ found.toSign :: back.map ClauseAt.toSign := by
    rw [listed, List.map_append, List.map_cons]
  refine (regionEnd_of_clauses statement signs_eq).trans ?_
  cases back <;> rfl

theorem nextStart_le_bodyEnd (listed : statement.outline.clauses = front ++ back) :
    nextStart statement.text back ≤ bodyEnd statement.text := by
  cases back with
  | nil => exact le_rfl
  | cons found back =>
      have member : found ∈ (Outline.ofText statement.text).clauses := by
        change found ∈ statement.outline.clauses
        simp [listed]
      obtain ⟨length, word_eq, -⟩ := Outline.exists_word?_of_mem_clauses member
      have fits := word?_le_bodyEnd (Mark.keyword_mem_clause _) word_eq
      exact (Nat.le_add_right _ _).trans fits

/-- The keyword of a clause ends before the next clause begins. -/
theorem exists_word?_le_nextStart (listed : statement.outline.clauses = front ++ found :: back) :
    ∃ length, (Site.atOffset statement.text found.offset).word? found.clause.keyword = some length ∧
      0 < length ∧ found.offset + length ≤ nextStart statement.text back := by
  have member : ∀ other ∈ found :: back, other ∈ (Outline.ofText statement.text).clauses := by
    intro other other_mem
    change other ∈ statement.outline.clauses
    rw [listed]
    exact List.mem_append_right _ other_mem
  obtain ⟨length, word_eq, positive⟩ :=
    Outline.exists_word?_of_mem_clauses (member found List.mem_cons_self)
  refine ⟨length, word_eq, positive, ?_⟩
  cases back with
  | nil => exact word?_le_bodyEnd (Mark.keyword_mem_clause _) word_eq
  | cons next back =>
      have ordered := Outline.pairwise_clauses statement.text
      rw [show (Outline.ofText statement.text).clauses = _ from listed, List.pairwise_append,
        List.pairwise_cons] at ordered
      exact word?_le_of_mem_marks (Mark.keyword_mem_clause _) word_eq
        (Outline.mem_marks_of_mem_clauses (member next (by simp)))
        (ordered.2.1.1 next List.mem_cons_self)

/-- The range of the region of a clause. -/
def stretch (statement : Statement) (found : ClauseAt) : Stretch :=
  ⟨found.offset, statement.regionEnd found.offset⟩

/-- From any clause on the regions lie end to end. -/
theorem tiles_regions (listed : statement.outline.clauses = front ++ back) :
    Tiles (bodyEnd statement.text) (nextStart statement.text back)
      (back.map statement.stretch) := by
  induction back generalizing front with
  | nil => rfl
  | cons found back ih =>
      have stop_eq := regionEnd_eq_nextStart listed
      obtain ⟨length, -, -, fits⟩ := exists_word?_le_nextStart listed
      have later : statement.outline.clauses = (front ++ [found]) ++ back := by simp [listed]
      refine ⟨rfl, ?_, ?_⟩
      · exact (Nat.le_add_right _ _).trans (stop_eq.symm ▸ fits)
      · rw [stretch, stop_eq]
        exact ih later

/-- The regions of the clauses divide a statement from its first clause to the end of its body,
which is no further than the end of the text.  The region of a clause ends where the clause listed
next begins, or with the body, and its keyword ends there at the latest.  No two regions overlap,
every offset from the first clause to the end of the body lies in one of them, and the pieces of the
text in the regions make up the text between those two offsets. -/
theorem regions_tile (statement : Statement) :
    let text := statement.text
    let clauses := statement.outline.clauses
    let first := (clauses.head?.map (·.offset)).getD (bodyEnd text)
    bodyEnd text ≤ text.length ∧
    (∀ index (listed : index < clauses.length),
      let next := (clauses[index + 1]?.map (·.offset)).getD (bodyEnd text)
      statement.regionEnd clauses[index].offset = next ∧ next ≤ bodyEnd text ∧
        ∃ length,
          (Site.atOffset text clauses[index].offset).word? clauses[index].clause.keyword =
            some length ∧
          0 < length ∧ clauses[index].offset + length ≤ next) ∧
    (clauses.Pairwise fun earlier later => statement.regionEnd earlier.offset ≤ later.offset) ∧
    (∀ place, (∃ found ∈ clauses, found.offset ≤ place ∧ place < statement.regionEnd found.offset) ↔
      first ≤ place ∧ place < bodyEnd text) ∧
    (clauses.map fun found => slice text found.offset (statement.regionEnd found.offset)).flatten =
      slice text first (bodyEnd text) := by
  intro text clauses first
  have tiles : Tiles (bodyEnd text) first (clauses.map statement.stretch) :=
    tiles_regions (List.nil_append _).symm
  refine ⟨bodyEnd_le text, fun index listed => ?_, ?_, fun place => ?_, ?_⟩
  · have split : clauses = clauses.take index ++ clauses[index] :: clauses.drop (index + 1) := by
      rw [← List.drop_eq_getElem_cons listed, List.take_append_drop]
    have next_eq : nextStart text (clauses.drop (index + 1)) =
        (clauses[index + 1]?.map (·.offset)).getD (bodyEnd text) := by
      rw [nextStart, List.head?_drop]
    have later : clauses = clauses.take (index + 1) ++ clauses.drop (index + 1) :=
      (List.take_append_drop _ _).symm
    rw [← next_eq]
    exact ⟨regionEnd_eq_nextStart split, nextStart_le_bodyEnd later,
      exists_word?_le_nextStart split⟩
  · exact List.pairwise_map.mp tiles.pairwise
  · rw [← tiles.exists_mem_iff place]
    simp [stretch]
  · rw [← tiles.flatten_slices text, List.map_map]
    rfl

/-- Two phrases, the first with wide white space in it, in a text that ends inside a literal. -/
theorem regions_tile_phrases :
    let statement : Statement := ⟨[], Text.ascii "SELECT a FROM t GROUP   BY b ORDER BY 'c ; "⟩
    statement.outline.clauses = [⟨.grouping, 16⟩, ⟨.ordering, 29⟩] ∧
      (statement.regionEnd 16 = 29 ∧ ∃ length,
        (Site.atOffset statement.text 16).word? Clause.grouping.keyword = some length ∧ 0 < length ∧
          16 + length ≤ 29) ∧
      statement.regionEnd 29 = 41 ∧ ∃ length,
        (Site.atOffset statement.text 29).word? Clause.ordering.keyword = some length ∧ 0 < length ∧
          29 + length ≤ 41 := by
  intro statement
  have clauses_eq : statement.outline.clauses = [⟨.grouping, 16⟩, ⟨.ordering, 29⟩] := by
    decide +kernel
  have end_eq : bodyEnd statement.text = 41 := by decide +kernel
  have tiled := (regions_tile statement).2.1
  simp only [clauses_eq, end_eq] at tiled
  have first := tiled 0 (by decide)
  have last := tiled 1 (by decide)
  exact ⟨clauses_eq, ⟨first.1, first.2.2⟩, last.1, last.2.2⟩

end Statement

end TenantScope
