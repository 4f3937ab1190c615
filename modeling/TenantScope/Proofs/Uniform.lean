import TenantScope.Proofs.Columns
import TenantScope.Proofs.Injection
import TenantScope.Proofs.Scanning

/-!
# Identifiers that nothing reads

Where the predicate goes is settled before its tenant is known, and the text that comes of it is
read once more.  That reading passes over the identifier as a whole, so the clauses it finds are the
same for all tenants up to the distance by which those behind the predicate have moved.
-/

namespace TenantScope

open Text Site Literal

/-! ## Marks that have moved -/

namespace Outline

/-- Offset of the first mark of a clause. -/
def firstOf (marks : List MarkAt) (clause : Clause) : Option Nat :=
  (marks.find? fun found => found.mark == .clause clause).map (·.offset)

/-- Among the marks is a `WHERE`, and their clauses stand in the canonical order. -/
def InPlace (marks : List MarkAt) : Prop :=
  (firstOf marks .filter).isSome = true ∧
    ∀ earlier later : Clause, earlier.rank < later.rank → ∀ first ∈ firstOf marks earlier,
      ∀ second ∈ firstOf marks later, first < second

/-- The clauses of a text stand in the canonical order when the first marks of the clauses do. -/
theorem canonical_iff (text : Text) : Canonical (ofText text).clauses ↔
    ∀ earlier later : Clause, earlier.rank < later.rank → ∀ first ∈ firstOf (marks text) earlier,
      ∀ second ∈ firstOf (marks text) later, first < second := by
  have listed_iff {clause : Clause} {offset : Nat} :
      offset ∈ firstOf (marks text) clause ↔ ⟨clause, offset⟩ ∈ (ofText text).clauses := by
    rw [mem_clauses_iff, find?_ofText, Option.mem_def, firstOf]
  constructor
  · intro canonical earlier later ranks first first_mem second second_mem
    exact canonical _ (listed_iff.mp first_mem) _ (listed_iff.mp second_mem) ranks
  · rintro ordered ⟨earlier, first⟩ first_mem ⟨later, second⟩ second_mem ranks
    exact ordered earlier later ranks first (listed_iff.mpr first_mem) second
      (listed_iff.mpr second_mem)

theorem inPlace_iff (text : Text) :
    (((ofText text).find? .filter).isSome && Canonical (ofText text).clauses) = true ↔
      InPlace (marks text) := by
  rw [Bool.and_eq_true, decide_eq_true_iff, canonical_iff, find?_ofText]
  rfl

/-- Offset of a place in a text that has become longer by `distance` before the place `start`. -/
def stretch (start distance offset : Nat) : Nat :=
  if offset < start then offset else offset + distance

theorem strictMono_stretch (start distance : Nat) : StrictMono (stretch start distance) := by
  intro first second before
  unfold stretch
  split_ifs <;> omega

/-- A movement that keeps the order of all places keeps the order of the clauses. -/
theorem inPlace_map {move : Nat → Nat} (increasing : StrictMono move) (marks : List MarkAt) :
    InPlace (marks.map fun mark => { mark with offset := move mark.offset }) ↔ InPlace marks := by
  have firstOf_map (clause : Clause) :
      firstOf (marks.map fun mark => { mark with offset := move mark.offset }) clause =
        (firstOf marks clause).map move := by
    rw [firstOf, firstOf, List.find?_map, Option.map_map, Option.map_map]
    rfl
  simp only [InPlace, firstOf_map, Option.isSome_map, Option.mem_def, Option.map_eq_some_iff,
    forall_exists_index, and_imp, forall_apply_eq_imp_iff₂, increasing.lt_iff_lt]

/-- How far the marks behind a place have moved is of no account for the order of the clauses. -/
theorem inPlace_append_shift {front : List MarkAt} {start : Nat}
    (before : ∀ mark ∈ front, mark.offset < start) (rest : List MarkAt) (distance : Nat) :
    InPlace (front ++ rest.map (MarkAt.shift (start + distance))) ↔
      InPlace (front ++ rest.map (MarkAt.shift start)) := by
  rw [← inPlace_map (strictMono_stretch start distance) (front ++ rest.map (MarkAt.shift start)),
    List.map_append, List.map_map]
  have front_eq :
      front.map (fun mark => { mark with offset := stretch start distance mark.offset }) =
      front := by
    refine (List.map_congr_left fun mark member => ?_).trans (List.map_id front)
    rw [stretch, if_pos (before mark member), id]
  have rest_eq :
      ((fun mark : MarkAt => { mark with offset := stretch start distance mark.offset }) ∘
      MarkAt.shift start) = MarkAt.shift (start + distance) := by
    funext mark
    have behind : ¬ (mark.shift start).offset < start := Nat.not_lt.mpr (Nat.le_add_left _ _)
    rw [Function.comp_apply, stretch, if_neg behind]
    simp only [MarkAt.shift, Nat.add_assoc]
  rw [front_eq, rest_eq]

end Outline

/-! ## Filled slots -/

namespace Scope

/-- Between two texts a content is all that one single-quoted literal holds, which
is no escape string. -/
def IsContent (front content back : Text) : Prop :=
  ∃ literal ∈ (start (front ++ content ++ back)).literals,
    literal.offset + 1 = front.length ∧
      literal.rest.take (width .standard literal) = quoted content ∧
      closedAt .standard literal = true ∧ opensEscapeString literal = false

/-- An identifier between apostrophes after a blank is the content of a literal, unless a third
apostrophe follows. -/
theorem isContent_of_blank {front last id back : Text} (closed : Closed (start front))
    (front_eq : front.reverse = Byte.blank :: last) (unquoted : ∀ byte ∈ id, byte.isQuote = false)
    (single : back.head? ≠ some Byte.apostrophe) :
    IsContent (front ++ [Byte.apostrophe]) id (Byte.apostrophe :: back) := by
  have no_escape := endsInEscapeLetter_blank last
  have read := closing?_quoted_append unquoted no_escape single
  have seam : Seam (front.reverse ++ [])
      (Byte.apostrophe :: ((id ++ [Byte.apostrophe]) ++ back)) := by
    rw [List.append_nil, front_eq]
    exact Seam.of_plain_last (by decide) (by decide) _ _
  have text_eq : front ++ [Byte.apostrophe] ++ id ++ (Byte.apostrophe :: back) =
      front ++ (Byte.apostrophe :: ((id ++ [Byte.apostrophe]) ++ back)) := by
    simp
  have member : (⟨Byte.blank :: last, Byte.apostrophe :: ((id ++ [Byte.apostrophe]) ++ back),
      front.length, endDepth (start front)⟩ : Site) ∈
        (start (front ++ [Byte.apostrophe] ++ id ++ (Byte.apostrophe :: back))).literals := by
    rw [text_eq, start, literals_append 0 0 closed seam, List.append_nil, front_eq, Nat.zero_add,
      literals_literal _ _ _ _ _ (by decide) read]
    exact List.mem_append_right _ List.mem_cons_self
  refine ⟨_, member, by simp, ?_, ?_, ?_⟩
  · simp only [width_cons, read, Option.getD_some, List.take_succ_cons, List.take_left]
    rfl
  · simp only [closedAt, escapesAt_mk, read]
    rfl
  · rw [opensEscapeString, no_escape, Bool.and_false]

section Filled

variable {text before after column words : Text} {source : Source} {filter : Nat} {slot : Slot}
  (division : Division text source before after)
  (fitting : Fitting before after slot words source.offset filter) (plain : IsColumn column)

include division fitting plain in
/-- The marks of a filled slot are those of the text before it and, moved behind the predicate,
always the same ones. -/
theorem Division.exists_marks_fill : ∃ (rest : List MarkAt) (distance : Text → Nat),
    ∀ id, IsTenantId id → Outline.marks (slot.fill (predicate column id)) =
      Outline.marks slot.before ++ rest.map (MarkAt.shift (slot.before.length + distance id)) := by
  obtain ⟨trail, blank, after_eq, -⟩ := fitting.ends
  refine ⟨marks ⟨[], after, 0, endDepth (start slot.before)⟩,
    fun id => (predicate column id).length + trail.length, fun id valid => ?_⟩
  have text_eq :
      slot.fill (predicate column id) = slot.before ++ predicate column id ++ trail ++ after := by
    rw [Slot.fill, after_eq, List.append_assoc _ trail]
  obtain ⟨closed, broken⟩ := fitting.closed_before plain.name valid division.parting.ending blank
  have level := endDepth_after_trail fitting.joint fitting.closed plain valid blank
  have undotted := Undotted.of_last (head?_reverse_ne_dot slot.before column id blank) after
  have front_marks := marks_after_trail fitting.joint fitting.closed plain valid blank
  rw [text_eq, Outline.marks, marks_start_append closed broken undotted, level,
    ← Outline.marks, front_marks]
  congr 3
  simp only [List.length_append]
  omega

include fitting plain in
/-- The identifier is the content of one literal of a filled slot. -/
theorem Fitting.isContent_fill {id : Text} (valid : IsTenantId id) (ends : EndsWith before after) :
    IsContent (slot.before ++ comparison column ++ [Byte.apostrophe]) id
      (Byte.apostrophe :: slot.after) := by
  obtain ⟨trail, blank, after_eq, -⟩ := fitting.ends
  have single : slot.after.head? ≠ some Byte.apostrophe := by
    rw [after_eq]
    cases trail with
    | nil => exact ends.single
    | cons space rest =>
        intro apostrophe
        obtain rfl : space = Byte.apostrophe := by simpa using apostrophe
        exact absurd (blank _ List.mem_cons_self) (by decide)
  have closed : Closed (start (slot.before ++ comparison column)) := by
    obtain ⟨others, stem_eq, -⟩ := fitting.joint.exists_blank
    have seam : Seam slot.before.reverse (comparison column) := by
      rw [stem_eq]
      exact Seam.of_plain_last (by decide) (by decide) _ _
    exact (closed_start_append fitting.closed seam).mpr
      (closed_of_plain _ _ fun byte member => (plain_comparison plain.name byte member).1)
  have front_eq := (@List.reverse_append _ slot.before _).trans
    (reverse_comparison column slot.before.reverse)
  exact isContent_of_blank closed front_eq valid.unquoted single

include division fitting plain in
/-- The statement with its slot filled is accepted for all tenants or refused for all. -/
theorem Division.verified_fill (statement : Statement) :
    (∀ id, IsTenantId id → verified (statement.withText (slot.fill (predicate column id))) =
      .ok (statement.withText (slot.fill (predicate column id)))) ∨
    ∀ id, IsTenantId id → verified (statement.withText (slot.fill (predicate column id))) =
      .error (refuse (slot.fill (predicate column id)) .orderLost) := by
  obtain ⟨rest, distance, marks_eq⟩ := division.exists_marks_fill fitting plain
  have inPlace_fill (id : Text) (valid : IsTenantId id) :
      (((Outline.ofText (slot.fill (predicate column id))).find? .filter).isSome &&
          Canonical (Outline.ofText (slot.fill (predicate column id))).clauses) = true ↔
        Outline.InPlace
          (Outline.marks slot.before ++ rest.map (MarkAt.shift slot.before.length)) := by
    rw [Outline.inPlace_iff, marks_eq id valid]
    exact Outline.inPlace_append_shift (fun mark member => lt_length_of_mem_marks member) rest _
  by_cases kept : Outline.InPlace
      (Outline.marks slot.before ++ rest.map (MarkAt.shift slot.before.length))
  · refine .inl fun id valid => ?_
    exact if_pos ((inPlace_fill id valid).mpr kept)
  · refine .inr fun id valid => ?_
    exact if_neg fun accepted => kept ((inPlace_fill id valid).mp accepted)

end Filled

/-! ## Scoping for different tenants -/

section Inject

variable {rules : ScopeRules} {tenant : Tenant} {statement : Statement}

/-- Of the identifier only that it is not blank counts for what the statement reads from. -/
theorem sourceOf_withId {id : Text} (visible : id.trim ≠ []) (outline : Outline) :
    sourceOf { tenant with id } outline = sourceOf { tenant with id := ascii "x" } outline := by
  have other : (ascii "x").trim ≠ [] := by decide
  rw [sourceOf, sourceOf, if_neg (by simpa using visible), if_neg (by simpa using other)]

/-- The scope column of a table is not a matter of the identifier. -/
theorem columnOf_withId (rules : ScopeRules) (tenant : Tenant) (id table : Text) :
    rules.columnOf { tenant with id } table = rules.columnOf tenant table :=
  rfl

/-- A statement is refused for all tenants with the same fault, is left as it is for all, or is
scoped in the same place for all, where the identifier is the content of a literal. -/
theorem inject_withId (closed : Closed (start statement.text))
    (plain : IsColumn (rules.columnOf tenant statement.outline.table)) :
    (∃ fault, ∀ id, IsTenantId id → ∃ context,
      inject rules { tenant with id } statement = .error ⟨fault, context⟩) ∨
    (∀ id, IsTenantId id → inject rules { tenant with id } statement = .ok statement) ∨
    ∃ front back, ∀ id, IsTenantId id →
      inject rules { tenant with id } statement = .ok (statement.withText (front ++ id ++ back)) ∧
        IsContent front id back := by
  cases found : sourceOf { tenant with id := ascii "x" } statement.outline with
  | error fault =>
      refine .inl ⟨fault, fun id valid => ⟨excerpt 200 statement.text, ?_⟩⟩
      simp only [inject, sourceOf_withId valid.visible, found, refuse]
  | ok source =>
      cases chosen : slot? statement.text (rules.columnOf tenant statement.outline.table)
          statement.outline source with
      | error fault =>
          refine .inl ⟨fault, fun id valid => ⟨excerpt 200 statement.text, ?_⟩⟩
          simp only [inject, sourceOf_withId valid.visible, columnOf_withId, found, chosen, refuse]
      | ok outcome =>
          cases outcome with
          | none =>
              refine .inr (.inl fun id valid => ?_)
              simp only [inject, sourceOf_withId valid.visible, columnOf_withId, found, chosen]
          | some slot =>
              obtain ⟨before, after, division⟩ := exists_division closed found
              obtain ⟨filter, fitting, -⟩ := division.fitting chosen
              rcases division.verified_fill fitting plain statement with accepted | refused
              · refine .inr (.inr ⟨_, _, fun id valid => ⟨?_,
                  fitting.isContent_fill plain valid division.parting.ending⟩⟩)
                simp only [inject, sourceOf_withId valid.visible, columnOf_withId, found, chosen,
                  accepted id valid]
                simp [Slot.fill, predicate_eq, quoted]
              · refine .inl ⟨.orderLost, fun id valid => ⟨excerpt 200 (slot.fill
                  (predicate (rules.columnOf tenant statement.outline.table) id)), ?_⟩⟩
                simp only [inject, sourceOf_withId valid.visible, columnOf_withId, found, chosen,
                  refused id valid, refuse]

/-- For any two tenants a statement is refused with the same fault, or left as it is, or scoped to
texts that differ in the identifier only, which is all that a literal holds. -/
theorem inject_of_identifiers (closed : Closed (start statement.text))
    (columns : EveryColumn IsColumn rules tenant) {first second : Text}
    (first_valid : IsTenantId first) (second_valid : IsTenantId second) :
    (∃ fault context other,
      inject rules { tenant with id := first } statement = .error ⟨fault, context⟩ ∧
        inject rules { tenant with id := second } statement = .error ⟨fault, other⟩) ∨
    (inject rules { tenant with id := first } statement = .ok statement ∧
      inject rules { tenant with id := second } statement = .ok statement) ∨
    ∃ front back,
      inject rules { tenant with id := first } statement =
          .ok (statement.withText (front ++ first ++ back)) ∧
        inject rules { tenant with id := second } statement =
          .ok (statement.withText (front ++ second ++ back)) ∧
        IsContent front first back ∧ IsContent front second back := by
  rcases inject_withId closed (columns.columnOf statement.outline.table) with
    ⟨fault, refused⟩ | kept | ⟨front, back, filled⟩
  · obtain ⟨context, first_eq⟩ := refused first first_valid
    obtain ⟨other, second_eq⟩ := refused second second_valid
    exact .inl ⟨fault, context, other, first_eq, second_eq⟩
  · exact .inr (.inl ⟨kept first first_valid, kept second second_valid⟩)
  · obtain ⟨first_eq, first_content⟩ := filled first first_valid
    obtain ⟨second_eq, second_content⟩ := filled second second_valid
    exact .inr (.inr ⟨front, back, first_eq, second_eq, first_content, second_content⟩)

/-- An identifier that reads like the end of a statement and the beginning of another. -/
theorem inject_of_identifiers_statement : ∃ front back,
    inject {} { id := ascii "x" } ⟨[], ascii "SELECT a FROM t WHERE b = ')' LIMIT 2"⟩ =
        .ok ⟨[], front ++ ascii "x" ++ back⟩ ∧
      inject {} { id := ascii "; SELECT 1 FROM u) ORDER BY \\ --" }
          ⟨[], ascii "SELECT a FROM t WHERE b = ')' LIMIT 2"⟩ =
        .ok ⟨[], front ++ ascii "; SELECT 1 FROM u) ORDER BY \\ --" ++ back⟩ ∧
      IsContent front (ascii "; SELECT 1 FROM u) ORDER BY \\ --") back := by
  have changed : inject {} { id := ascii "x" }
      ⟨[], ascii "SELECT a FROM t WHERE b = ')' LIMIT 2"⟩ =
        .ok ⟨[], ascii "SELECT a FROM t WHERE b = ')' AND tenant_id = 'x' LIMIT 2"⟩ := by
    decide +kernel
  have closed : Closed (start (Statement.text
      ⟨[], ascii "SELECT a FROM t WHERE b = ')' LIMIT 2"⟩)) := by
    decide +kernel
  have columns : EveryColumn IsColumn {} {} := by decide +kernel
  rcases inject_of_identifiers closed columns (by decide +kernel : IsTenantId (ascii "x"))
      (by decide +kernel : IsTenantId (ascii "; SELECT 1 FROM u) ORDER BY \\ --")) with
    ⟨_, _, _, refused, -⟩ | ⟨kept, -⟩ | ⟨front, back, first_eq, second_eq, -, content⟩
  · simp [changed] at refused
  · exact absurd (changed.symm.trans kept) (by decide +kernel)
  · exact ⟨front, back, first_eq, second_eq, content⟩

end Inject

end Scope

end TenantScope
