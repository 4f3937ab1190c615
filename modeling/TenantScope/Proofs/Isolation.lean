import TenantScope.Proofs.Columns
import TenantScope.Proofs.Dialects
import TenantScope.Proofs.Unclosed

/-!
# Isolation of tenants

A rewritten statement that a database can read is scoped to its tenant exactly when the statement
was whole before it was scoped: its literals were closed, nothing between them was a comment, and no
closing parenthesis let an alternative out of the parentheses put around its condition.
-/

namespace TenantScope

open Text Site Literal

/-! ## Scope columns -/

namespace Scope

/-- Every scope column that settings and a tenant name can be compared; an empty
one stands for none. -/
structure PlainColumns (rules : ScopeRules) (tenant : Tenant) : Prop where
  general : IsColumn rules.column
  own : tenant.column = [] ∨ IsColumn tenant.column
  single : ∀ entry ∈ tenant.columns.entries ++ rules.columns.entries,
    entry.2 = [] ∨ IsColumn entry.2

instance (rules : ScopeRules) (tenant : Tenant) : Decidable (PlainColumns rules tenant) :=
  decidable_of_iff
    (IsColumn rules.column ∧ (tenant.column = [] ∨ IsColumn tenant.column) ∧
      ∀ entry ∈ tenant.columns.entries ++ rules.columns.entries, entry.2 = [] ∨ IsColumn entry.2)
    ⟨fun ⟨general, own, single⟩ => ⟨general, own, single⟩,
      fun columns => ⟨columns.general, columns.own, columns.single⟩⟩

/-- The scope column of every table can be compared. -/
theorem PlainColumns.isColumn {rules : ScopeRules} {tenant : Tenant}
    (columns : PlainColumns rules tenant) (table : Text) :
    IsColumn (rules.columnOf tenant table) :=
  EveryColumn.columnOf ⟨columns.general, columns.own, columns.single⟩ table

theorem PlainColumns.completed {rules : Rules} {tenant : Tenant}
    (columns : PlainColumns rules.scope tenant) :
    PlainColumns rules.scope (rules.completed tenant) := by
  unfold Rules.completed
  split
  · exact ⟨columns.general, .inr columns.general, columns.single⟩
  · exact columns

/-! ## Comments of scoped statements -/

/-- An identifier between apostrophes is read as one literal. -/
theorem quoted_literal {id : Text} (unquoted : ∀ byte ∈ id, byte.isQuote = false) :
    quoted id = Byte.apostrophe :: ((id ++ [Byte.apostrophe]) ++ []) ∧
      closing? Byte.apostrophe (escapesAfter .standard [] Byte.apostrophe)
          ((id ++ [Byte.apostrophe]) ++ []) =
        some (id ++ [Byte.apostrophe]).length :=
  ⟨by simp [quoted], closing?_quoted_append unquoted rfl (by simp)⟩

theorem uncommented_quoted {id : Text} (unquoted : ∀ byte ∈ id, byte.isQuote = false) :
    Uncommented (start (quoted id)) := by
  obtain ⟨text_eq, literal⟩ := quoted_literal unquoted
  rw [text_eq, start, uncommented_literal _ _ _ _ _ (by decide) literal]
  exact uncommented_nil _ _ _

theorem uncommented_predicate {column id : Text} (plain : IsColumn column) (valid : IsTenantId id) :
    Uncommented (start (predicate column id)) := by
  have quoteless : ∀ byte ∈ comparison column, byte.isQuote = false := fun byte member =>
    (plain_comparison plain.name byte member).1
  have compared : Uncommented (start (comparison column)) := by
    refine uncommented_of_plain _ _ fun byte member => ?_
    have equals_plain : ∀ byte ∈ ascii " = ", byte.marksComment = false := by decide +kernel
    rcases List.mem_append.mp member with member | member
    · exact Byte.marksComment_of_isIdentifier byte (plain.name.identifiers byte member)
    · exact equals_plain byte member
  have seam : Seam (comparison column).reverse (quoted id) := by
    simpa using (break_quoted column id []).toSeam
  have apart : Apart (comparison column).reverse (quoted id) :=
    apart_of_head (fun byte head_eq => by
      obtain rfl : Byte.apostrophe = byte := by simpa [quoted] using head_eq
      decide) _
  rw [predicate_eq, uncommented_start_append (closed_of_plain _ _ quoteless) seam apart]
  exact ⟨compared, uncommented_quoted valid.unquoted⟩

/-- What ends a condition is no part of a mark of comments. -/
theorem EndsWith.apart {before after : Text} (ends : EndsWith before after) (back : Text) :
    Apart back after := by
  refine apart_of_head (fun byte head_eq => ?_) back
  cases ends with
  | tail marks_eq =>
      have counts := (atOffset_of_mem_marks (marks_eq ▸ List.mem_cons_self)).2
      obtain ⟨-, first, rest, rest_eq, word⟩ := exists_of_spoken_ne
        (Mark.spoken_ne_of_occursAt (Mark.countsAt_iff.mp counts).2.1)
      obtain rfl : after = first :: rest := rest_eq
      obtain rfl : first = byte := by simpa using head_eq
      exact Byte.marksComment_of_isIdentifier first word
  | semicolon =>
      obtain rfl : Byte.semicolon = byte := by simpa using head_eq
      decide
  | blank is_blank =>
      exact Byte.marksComment_of_isSpace byte (is_blank byte (List.mem_of_head? head_eq))

section Filled

variable {text column id before after words : Text} {source : Source} {filter : Nat} {slot : Slot}
  (division : Division text source before after)
  (fitting : Fitting before after slot words source.offset filter)
  (plain : IsColumn column) (valid : IsTenantId id)

include division fitting plain valid in
/-- A filled slot has the comments of the text. -/
theorem Division.uncommented_fill_iff :
    Uncommented (start (slot.fill (predicate column id))) ↔ Uncommented (start text) := by
  have parting := division.parting
  obtain ⟨trail, blank, -, text_eq⟩ := fitting.fill_eq column id
  obtain ⟨closed, broken⟩ := fitting.closed_before plain.name valid parting.ending blank
  have whole := closed_before_trail fitting.joint fitting.closed plain.name valid
  have predicate_apart : Apart slot.before.reverse (predicate column id) := by
    refine apart_of_head (fun byte head_eq => ?_) _
    exact Byte.marksComment_of_isIdentifier byte (isIdentifier_of_head?_predicate plain head_eq)
  rw [text_eq, uncommented_start_append closed broken.toSeam (parting.ending.apart _),
    uncommented_append_blank whole blank,
    uncommented_start_append fitting.closed
      (break_before_predicate fitting.joint column id).toSeam predicate_apart,
    and_iff_left (uncommented_predicate plain valid), fitting.comments, parting.split,
    uncommented_start_append parting.closed parting.broken.toSeam (parting.ending.apart _)]

include division fitting plain valid in
/-- No parenthesis is open before the predicate if none is at the end. -/
theorem Division.level_of_fill
    (level : endDepth (start (slot.fill (predicate column id))) = 0) :
    endDepth (start slot.before) = 0 := by
  have parting := division.parting
  obtain ⟨trail, blank, -, text_eq⟩ := fitting.fill_eq column id
  obtain ⟨closed, broken⟩ := fitting.closed_before plain.name valid parting.ending blank
  rw [text_eq, endDepth_start_append closed broken.toSeam,
    endDepth_after_trail fitting.joint fitting.closed plain valid blank] at level
  have ending := parting.ending
  cases ending with
  | tail _ _ outermost => exact fitting.level outermost
  | semicolon is_blank =>
      have same_depth (depth : Nat) : depthAfter Byte.semicolon depth = depth := rfl
      rwa [endDepth_cons _ _ _ _ (by decide), same_depth, endDepth_of_blank is_blank] at level
  | blank is_blank => rwa [endDepth_of_blank is_blank] at level

end Filled

end Scope

/-! ## Statements that were whole -/

/-- A text that can be scoped without losing anything: its literals are closed, it has no comments,
and no alternative is left of its condition in parentheses. -/
structure Intact (text column : Text) : Prop where
  closed : Closed (start text)
  uncommented : Uncommented (start text)
  enclosed : ¬ Scope.Escaping (Scope.condition? text column)

instance (text column : Text) : Decidable (Intact text column) :=
  decidable_of_iff (Closed (start text) ∧ Uncommented (start text) ∧
      ¬ Scope.Escaping (Scope.condition? text column))
    ⟨fun ⟨closed, uncommented, enclosed⟩ => ⟨closed, uncommented, enclosed⟩,
      fun intact => ⟨intact.closed, intact.uncommented, intact.enclosed⟩⟩

namespace Scope

/-- A scoped text is scoped for another column too if that is the same one in another case, or if
the condition has a predicate on it as well. -/
theorem IsScoped.transfer {text column wanted : Text} {source : Source} {filter : Nat}
    (scoped_already : IsScoped text column source filter)
    (transfers : wanted.upper = column.upper ∨
      (condition? text wanted).any Condition.held = true) :
    IsScoped text wanted source filter := by
  refine ⟨scoped_already.toIsFiltered, scoped_already.unalternated, ?_⟩
  rcases transfers with same | held
  · have held := scoped_already.held
    rwa [hasPredicate, ← same] at held
  · rw [Scope.condition?_eq scoped_already.source_eq scoped_already.filter_eq,
      Option.any_some] at held
    rwa [(conditionStart_of_mem_marks (mem_marks_of_find? scoped_already.filter_eq)).1]

/-- Whether a condition has alternatives does not depend on the column. -/
theorem IsScoped.unalternated_condition? {text column wanted : Text} {source : Source}
    {filter : Nat} (scoped_already : IsScoped text wanted source filter) :
    ∃ words held, condition? text column = some ⟨words, false, held⟩ := by
  have unalternated := scoped_already.unalternated
  rw [(conditionStart_of_mem_marks (mem_marks_of_find? scoped_already.filter_eq)).1] at unalternated
  rw [Scope.condition?_eq scoped_already.source_eq scoped_already.filter_eq, unalternated]
  exact ⟨_, _, rfl⟩

section Scoped

variable {rules : ScopeRules} {tenant : Tenant} {statement result : Statement} {column : Text}
  (resolved : rules.columnOf tenant statement.outline.table = column) (plain : IsColumn column)
  (valid : IsTenantId tenant.id) (injected : inject rules tenant statement = .ok result)
  (parseable : Parseable result.text)

include resolved plain valid injected parseable in
/-- An intact statement has no comments when it is scoped. -/
theorem isScoped_of_intact (intact : Intact statement.text column) :
    Uncommented (start result.text) ∧
      ∃ source filter, IsScoped result.text column source filter := by
  obtain ⟨source, source_found, outcome⟩ := inject_cases injected
  obtain ⟨before, after, division⟩ := exists_division intact.closed source_found
  rw [resolved] at outcome
  rcases outcome with ⟨rfl, kept⟩ | ⟨slot, chosen, rfl, canonical⟩
  · exact ⟨intact.uncommented, source, division.isScoped kept⟩
  · obtain ⟨filter', fitting, -⟩ := division.fitting chosen
    have uncommented := (division.uncommented_fill_iff fitting plain valid).mpr intact.uncommented
    have level := division.level_of_fill fitting plain valid (parseable.endDepth_start uncommented)
    obtain ⟨source', filter, filtered, alternated, condition_eq, alternated_iff⟩ :=
      division.filled chosen level plain valid canonical
    obtain rfl : alternated = false :=
      Bool.eq_false_iff.mpr fun holds => intact.enclosed (alternated_iff.mp holds)
    exact ⟨uncommented, source', filter, filtered.isScoped condition_eq⟩

include resolved plain valid injected parseable in
/-- A statement was intact if it is scoped, for whichever column, and has no comments then. -/
theorem intact_of_isScoped {wanted : Text} {source : Source} {filter : Nat}
    (uncommented : Uncommented (start result.text))
    (scoped_already : IsScoped result.text wanted source filter) :
    Intact statement.text column := by
  obtain ⟨source, source_found, outcome⟩ := inject_cases injected
  have closed_result := parseable.closed_start uncommented
  rw [resolved] at outcome
  rcases outcome with ⟨rfl, kept⟩ | ⟨slot, chosen, rfl, canonical⟩
  · obtain ⟨before, after, division⟩ := exists_division closed_result source_found
    exact ⟨closed_result, uncommented, division.not_escaping kept⟩
  · have closed := closed_of_closed_fill plain.name valid source_found chosen closed_result
    obtain ⟨before, after, division⟩ := exists_division closed source_found
    obtain ⟨filter', fitting, -⟩ := division.fitting chosen
    have level := division.level_of_fill fitting plain valid (parseable.endDepth_start uncommented)
    obtain ⟨source', filter'', -, alternated, condition_eq, alternated_iff⟩ :=
      division.filled chosen level plain valid canonical
    refine ⟨closed, (division.uncommented_fill_iff fitting plain valid).mp uncommented,
      fun escaping => ?_⟩
    obtain ⟨words, held, unalternated⟩ := scoped_already.unalternated_condition?
    have same := condition_eq.symm.trans unalternated
    rw [alternated_iff.mpr escaping] at same
    simp at same

end Scoped

end Scope

/-! ## Rewritten statements -/

theorem Rules.id_completed (rules : Rules) (tenant : Tenant) :
    (rules.completed tenant).id = tenant.id := by
  unfold Rules.completed
  split <;> rfl

/-- A rewritten statement is the scoped repaired one. -/
theorem Rules.injected_of_rewrite {rules : Rules} {tenant : Tenant} {received output : Text}
    (rewritten : (rules.rewrite tenant received).result = .ok output) :
    ∃ result, Scope.inject rules.scope (rules.completed tenant)
        (rules.repaired (rules.completed tenant) received received.sanitize) = .ok result ∧
      result.text = output := by
  simp only [rewrite] at rewritten
  split at rewritten
  · simp at rewritten
  · simp only [scopeFor] at rewritten
    split at rewritten
    · simp at rewritten
    · rename_i result injected
      split at rewritten
      · simp at rewritten
      · exact ⟨result, injected, Except.ok.inj rewritten⟩

/-- A rewritten statement that a database can read has no comments, and is scoped for the column of
a table, exactly when the repaired statement was intact and the column is the one that it is scoped
with, or else one that the condition has a predicate on anyway. -/
theorem Rules.rewrite_iff_intact {rules : Rules} {tenant : Tenant}
    {received text output column : Text} (columns : Scope.PlainColumns rules.scope tenant)
    (valid : Scope.IsTenantId tenant.id)
    (repaired : (rules.repaired (rules.completed tenant) received received.sanitize).text = text)
    (resolved : rules.scope.columnOf (rules.completed tenant) (Outline.ofText text).table = column)
    (rewritten : (rules.rewrite tenant received).result = .ok output)
    (parseable : Parseable output) (wanted : Text) :
    ((∀ unit ∈ (start output).units, Markup.comment? unit.rest = none) ∧
        ∃ source filter, Scope.IsScoped output wanted source filter) ↔
      Intact text column ∧
        (wanted.upper = column.upper ∨
          (Scope.condition? output wanted).any Scope.Condition.held = true) := by
  obtain ⟨result, injected, rfl⟩ := Rules.injected_of_rewrite rewritten
  subst repaired
  have plain : Scope.IsColumn column := resolved ▸ columns.completed.isColumn _
  have known : Scope.IsTenantId (rules.completed tenant).id :=
    (rules.id_completed tenant).symm ▸ valid
  rw [forall_units_iff]
  constructor
  · rintro ⟨uncommented, source, filter, scoped_already⟩
    obtain ⟨words, condition_eq⟩ := scoped_already.condition?_eq
    exact ⟨Scope.intact_of_isScoped resolved plain known injected parseable uncommented
      scoped_already, .inr (by simp [condition_eq])⟩
  · rintro ⟨intact, transfers⟩
    obtain ⟨uncommented, source, filter, scoped_already⟩ :=
      Scope.isScoped_of_intact resolved plain known injected parseable intact
    exact ⟨uncommented, source, filter, scoped_already.transfer transfers⟩

/-- Alternatives are put in parentheses, and they stay there. -/
theorem Rules.rewrite_iff_intact_alternatives :
    Intact (ascii "SELECT a FROM t WHERE b = 'c' OR d = 2;") (ascii "tenant_id") ∧
      ∃ source filter, Scope.IsScoped
        (ascii "SELECT a FROM t WHERE (b = 'c' OR d = 2) AND tenant_id = 'x';") (ascii "tenant_id")
        source filter := by
  have intact : Intact (ascii "SELECT a FROM t WHERE b = 'c' OR d = 2;") (ascii "tenant_id") := by
    decide +kernel
  have rewritten : (Rules.rewrite {} { id := ascii "x" }
      (ascii "SELECT a FROM t WHERE b = 'c' OR d = 2")).result =
        .ok (ascii "SELECT a FROM t WHERE (b = 'c' OR d = 2) AND tenant_id = 'x';") := by
    decide +kernel
  exact ⟨intact, ((Rules.rewrite_iff_intact (by decide +kernel) (by decide +kernel)
    (by decide +kernel) (by decide +kernel) rewritten (by decide +kernel) _).mpr
      ⟨intact, .inl rfl⟩).2⟩

/-- An alternative gets out of the parentheses that are put around it, and a literal that nothing
closed turns a part of the statement into a comment. -/
theorem Rules.rewrite_escaping :
    ((Rules.rewrite {} { id := ascii "x" }
      (ascii "SELECT * FROM t WHERE a = 1) OR (b = 2")).result =
        .ok (ascii "SELECT * FROM t WHERE (a = 1) OR (b = 2) AND tenant_id = 'x';") ∧
      Parseable (ascii "SELECT * FROM t WHERE (a = 1) OR (b = 2) AND tenant_id = 'x';") ∧
      ¬ ∃ source filter, Scope.IsScoped
        (ascii "SELECT * FROM t WHERE (a = 1) OR (b = 2) AND tenant_id = 'x';") (ascii "tenant_id")
        source filter) ∧
    (Rules.rewrite {} { id := ascii "--x" } (ascii "SELECT * FROM t WHERE a = 'b")).result =
        .ok (ascii "SELECT * FROM t WHERE a = 'b AND tenant_id = '--x';") ∧
      Parseable (ascii "SELECT * FROM t WHERE a = 'b AND tenant_id = '--x';") ∧
      ¬ ∀ unit ∈ (start (ascii "SELECT * FROM t WHERE a = 'b AND tenant_id = '--x';")).units,
        Markup.comment? unit.rest = none := by
  refine ⟨⟨by decide +kernel, by decide +kernel, ?_⟩, by decide +kernel, by decide +kernel,
    by decide +kernel⟩
  rintro ⟨source, filter, scoped_already⟩
  obtain ⟨words, condition_eq⟩ := scoped_already.condition?_eq
  have alternated : ((Scope.condition? (ascii
      "SELECT * FROM t WHERE (a = 1) OR (b = 2) AND tenant_id = 'x';") (ascii "tenant_id")).any
        Scope.Condition.alternated) = true := by
    decide +kernel
  simp [condition_eq] at alternated

end TenantScope
