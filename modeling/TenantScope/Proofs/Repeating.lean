import TenantScope.Proofs.Rescoping

/-!
# Rewriting a rewritten statement

Where all tables share one scope column, a pass of repair changes only what is to be cut, moved or
spaced, and a text is settled when nothing is.  Scoping leaves a settled text settled, and the
scoped text has no markup, so a rewritten statement stays as it is when it is rewritten again.
-/

namespace TenantScope

open Text Site Literal

/-! ## One scope column -/

/-- Neither the settings nor the tenant name the scope column of a single table. -/
structure SingleColumn (rules : ScopeRules) (tenant : Tenant) : Prop where
  settings : rules.columns.entries = []
  own : tenant.columns.entries = []

instance (rules : ScopeRules) (tenant : Tenant) : Decidable (SingleColumn rules tenant) :=
  decidable_of_iff (rules.columns.entries = [] ∧ tenant.columns.entries = [])
    ⟨fun ⟨settings, own⟩ => ⟨settings, own⟩, fun single => ⟨single.settings, single.own⟩⟩

theorem ColumnMap.find?_of_empty {map : ColumnMap} (empty : map.entries = []) (key : Text) :
    map.find? key = none := by
  simp [find?, empty, firstTable?]

namespace SingleColumn

variable {rules : ScopeRules} {tenant : Tenant} (single : SingleColumn rules tenant)

include single

/-- All tables have the default scope column. -/
theorem columnOf_eq (table : Text) : rules.columnOf tenant table = rules.defaultColumn tenant := by
  simp [ScopeRules.columnOf, ColumnMap.find?_of_empty single.settings,
    ColumnMap.find?_of_empty single.own]

theorem aliasColumn_eq (statement : Statement) :
    Repair.aliasColumn rules tenant statement = statement := by
  simp [Repair.aliasColumn, single.columnOf_eq]

theorem pass_eq (statement : Statement) : Repair.pass rules tenant statement =
    Repair.normalize (Repair.relocateFilter (Repair.cutTrailingConditions statement)) := by
  rw [Repair.pass, single.aliasColumn_eq]

end SingleColumn

/-- So it is once the default scope column is filled in, and the column stays the same. -/
theorem SingleColumn.completed {rules : Rules} {tenant : Tenant}
    (single : SingleColumn rules.scope tenant) :
    SingleColumn rules.scope (rules.completed tenant) := by
  rw [Rules.completed]
  split
  · exact ⟨single.settings, single.own⟩
  · exact single

theorem Rules.defaultColumn_completed (rules : Rules) (tenant : Tenant) :
    rules.scope.defaultColumn (rules.completed tenant) = rules.scope.defaultColumn tenant := by
  rw [Rules.completed]
  split
  · next empty => simp [ScopeRules.defaultColumn, empty]
  · rfl

/-! ## Settled texts -/

namespace Repair

/-- There is nothing to cut, nothing to move and no spacing to settle in the text. -/
structure Settled (text : Text) : Prop where
  tidy : Tidy (start text).kinds
  direct : (Outline.ofText text).detour = 0
  normal : text.normalize = text

section Pass

variable {rules : ScopeRules} {tenant : Tenant} (single : SingleColumn rules tenant)

include single

/-- A pass leaves a statement as it is when its text is settled. -/
theorem pass_eq_self_iff (statement : Statement) :
    pass rules tenant statement = statement ↔ Settled statement.text := by
  rw [single.pass_eq]
  constructor
  · intro rest
    have text_eq :
        (relocateFilter (cutTrailingConditions statement)).text.normalize = statement.text := by
      rw [← text_normalize, rest]
    have kinds_eq : (start (relocateFilter (cutTrailingConditions statement)).text).kinds =
        (start statement.text).kinds := by rw [← kinds_normalize, text_eq]
    have direct : statement.outline.detour = 0 := by
      have shorter := detour_relocateFilter (cutTrailingConditions statement)
      rw [detour_cutTrailingConditions, Statement.outline, Outline.detour_ofText, kinds_eq,
        ← Outline.detour_ofText] at shorter
      have earlier : statement.outline.detour ≤ statement.outline.detour - 1 := shorter
      omega
    rw [relocateFilter_of_detour ((detour_cutTrailingConditions statement).trans direct)]
      at kinds_eq text_eq
    exact ⟨kinds_eq ▸ tidy_cutTrailingConditions statement, direct,
      by rw [← text_eq, Token.normalize_normalize]⟩
  · rintro ⟨tidy, direct, normal⟩
    rw [cutTrailingConditions_of_tidy tidy, relocateFilter_of_detour direct, normalize, normal]
    rfl

/-- A pass leaves a bare text bare and a well-formed one well formed. -/
theorem bare_pass {statement : Statement} (bare : Bare statement.text)
    (whole : Wellformed statement.text) :
    Bare (pass rules tenant statement).text ∧ Wellformed (pass rules tenant statement).text := by
  rw [single.pass_eq]
  exact ⟨bare_normalize (bare_relocateFilter (bare_cutTrailingConditions bare)),
    wellformed_normalize (wellformed_relocateFilter (wellformed_cutTrailingConditions whole))⟩

/-- So do any number of passes. -/
theorem bare_iterate_pass {statement : Statement} (bare : Bare statement.text)
    (whole : Wellformed statement.text) (passes : Nat) :
    Bare ((pass rules tenant)^[passes] statement).text ∧
      Wellformed ((pass rules tenant)^[passes] statement).text := by
  induction passes with
  | zero => exact ⟨bare, whole⟩
  | succ passes ih =>
      rw [Function.iterate_succ_apply']
      exact bare_pass single ih.1 ih.2

/-- Passes over a settled text change nothing. -/
theorem run_of_settled {statement : Statement} (settled : Settled statement.text) (passes : Nat) :
    run rules tenant passes statement = statement := by
  rw [run_eq_iterate, Function.iterate_fixed ((pass_eq_self_iff single statement).mpr settled)]

end Pass

end Repair

/-! ## Scoped texts -/

namespace Scope

open Repair

/-- Where the `WHERE` stands in its place nothing is to be moved. -/
theorem detour_of_canonical {text : Text} {filter : Nat}
    (found : (Outline.ofText text).find? .filter = some filter)
    (canonical : Canonical (Outline.ofText text).clauses) :
    (Outline.ofText text).detour = 0 := by
  rw [Outline.detour]
  cases listed : (Outline.ofText text).clauses with
  | nil => rfl
  | cons first later =>
      rw [List.map_cons, Clause.detour]
      refine if_pos ?_
      by_contra other
      obtain ⟨own, own_found, own_offset⟩ := Option.map_eq_some_iff.mp found
      have own_filter : own.clause = .filter := by simpa using List.find?_some own_found
      have own_mem := List.mem_of_find?_eq_some own_found
      have ranked : own.clause.rank < first.clause.rank := by
        rw [own_filter]
        revert other
        cases first.clause <;> decide
      have earlier := canonical own own_mem first (by simp [listed]) ranked
      rw [listed, List.mem_cons] at own_mem
      rcases own_mem with rfl | own_later
      · exact other own_filter
      · have ordered := Outline.offset_lt_of_mem listed own_later
        omega

/-- Scoping leaves a settled bare text settled and bare, and the scoped text is scoped already. -/
theorem settled_inject {rules : ScopeRules} {tenant : Tenant} {statement result : Statement}
    {column : Text} (resolved : rules.columnOf tenant statement.outline.table = column)
    (plain : IsColumn column) (valid : IsTenantId tenant.id) (bare : Bare statement.text)
    (whole : Wellformed statement.text) (settled : Settled statement.text)
    (injected : inject rules tenant statement = .ok result) :
    Bare result.text ∧ Settled result.text ∧
      ∃ source filter, IsScoped result.text column source filter := by
  have closed := whole.closed
  obtain ⟨source, source_found, outcome⟩ := inject_cases injected
  obtain ⟨before, after, division⟩ := exists_division closed source_found
  rw [resolved] at outcome
  rcases outcome with ⟨rfl, kept⟩ | ⟨slot, chosen, rfl, canonical⟩
  · obtain ⟨filter, scoped_already⟩ := division.isScoped kept
    exact ⟨bare, settled, source, filter, scoped_already⟩
  · obtain ⟨filter, fitting, -⟩ := division.fitting chosen
    have level := fitting.level (division.level_of_balanced whole.balanced)
    obtain ⟨source', filter, filtered, alternated, condition_eq, alternated_iff⟩ :=
      division.filled chosen level plain valid canonical
    have unalternated : alternated = false := by
      refine Bool.eq_false_iff.mpr fun alternates => ?_
      obtain ⟨condition, known, mark, member, -⟩ := alternated_iff.mp alternates
      have nested := division.nested_condition whole.balanced chosen known
      rw [show (1 : Nat) = 0 + 1 from rfl, marks_of_nested nested (by decide)] at member
      simp at member
    subst unalternated
    refine ⟨division.bare_fill plain valid chosen bare,
      ⟨division.tidy_fill whole.balanced plain valid chosen settled.tidy,
      detour_of_canonical filtered.filter_eq canonical, ?_⟩, source', filter,
      filtered.isScoped condition_eq⟩
    have nonempty := text_ne_nil_of_inject injected
    obtain ⟨ended, begins⟩ := EvenlySpaced.ended_of_normal settled.normal nonempty
    obtain ⟨fewer, some_end, at_most, ended⟩ := exists_ended_inject ended one_pos injected
    obtain rfl : fewer = 1 := by omega
    have even :=
      division.evenlySpaced_fill plain valid chosen (EvenlySpaced.of_normal settled.normal)
    refine even.normalize_eq ?_ ended ?_
    · rw [division.head?_fill chosen, begins]
    · simp [Slot.fill, predicate]
      omega

end Scope

/-! ## Rewritten statements -/

/-- A rewritten statement stays as it is when it is rewritten again: it is in normal form, nothing
in it is to be repaired, and it is scoped. -/
theorem Rules.rewrite_of_rewrite {rules : Rules} {tenant : Tenant} {received output : Text}
    (no_database : rules.scope.database = []) (single : SingleColumn rules.scope tenant)
    (plain : Scope.IsColumn (rules.scope.defaultColumn tenant)) (valid : Scope.IsTenantId tenant.id)
    (whole : Wellformed received.sanitize)
    (untagged : ∀ site ∈ (start received.sanitize).code, site.byte? ≠ some Byte.lessThan)
    (stops : Repair.Stops rules.scope (rules.completed tenant) (max 1 rules.repair.passes)
      ⟨received, received.sanitize⟩)
    (rewritten : (rules.rewrite tenant received).result = .ok output) :
    rules.rewrite tenant output = ⟨output, false, .ok output⟩ := by
  obtain ⟨result, injected, rfl⟩ := Rules.injected_of_rewrite rewritten
  have allowed := Rules.allowed_of_rewrite rewritten
  have single' : SingleColumn rules.scope (rules.completed tenant) := single.completed
  have repaired_eq (received text : Text) : rules.repaired (rules.completed tenant) received text =
      Repair.run rules.scope (rules.completed tenant) (max 1 rules.repair.passes)
        ⟨received, text⟩ := by
    rw [Rules.repaired, Statement.repair, no_database]
    rfl
  rw [repaired_eq] at injected
  have settled := (Repair.pass_eq_self_iff single' _).mp stops.pass_run
  obtain ⟨unfenced, uncommented, -⟩ := plain_sanitize received
  obtain ⟨bare, repaired_whole⟩ := @Repair.bare_iterate_pass _ _ single'
    ⟨received, received.sanitize⟩
    ⟨whole.closed, unfenced, uncommented, untagged⟩ whole (max 1 rules.repair.passes)
  rw [← Repair.run_eq_iterate] at bare repaired_whole
  have column_eq (table : Text) : rules.scope.columnOf (rules.completed tenant) table =
      rules.scope.defaultColumn tenant := by
    rw [single'.columnOf_eq, rules.defaultColumn_completed]
  obtain ⟨output_bare, output_settled, source, filter, scoped_already⟩ :=
    Scope.settled_inject (column_eq _) plain
    (rules.id_completed tenant ▸ valid) bare repaired_whole settled injected
  have sanitized := output_bare.sanitize_eq output_settled.normal
  have kept := @Repair.run_of_settled _ _ single' ⟨result.text, result.text⟩ output_settled
  have rescoped := @Scope.inject_of_isScoped rules.scope (rules.completed tenant)
    ⟨result.text, result.text⟩ source filter
    (by rw [column_eq]; exact scoped_already) (rules.id_completed tenant ▸ valid.visible)
  simp only [Rules.rewrite, sanitized, allowed, repaired_eq, kept, Rules.scopeFor, rescoped]
  simp

/-- A moved condition, a cut one and parenthesized alternatives stay as they are. -/
theorem Rules.rewrite_of_rewrite_alternatives :
    let rules : Rules := { scope := { columns := .empty } }
    let tenant : Tenant := { id := ascii "acme" }
    let received := ascii "SELECT a FROM t ORDER BY a WHERE b = 1 OR c = 2 LIMIT 5 AND d = 3"
    let output :=
      ascii "SELECT a FROM t WHERE (b = 1 OR c = 2) AND tenant_id = 'acme' ORDER BY a LIMIT 5;"
    (rules.rewrite tenant received).result = .ok output ∧
      rules.rewrite tenant output = ⟨output, false, .ok output⟩ := by
  intro rules tenant received output
  have rewritten : (rules.rewrite tenant received).result = .ok output := by decide +kernel
  exact ⟨rewritten, rules.rewrite_of_rewrite rfl ⟨rfl, rfl⟩ (by decide +kernel) (by decide +kernel)
    (by decide +kernel) (by decide +kernel) ⟨1, by decide +kernel, by decide +kernel⟩ rewritten⟩

end TenantScope
