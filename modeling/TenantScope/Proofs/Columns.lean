import TenantScope.Tenant

/-!
# Columns that settings and a tenant name

The scope column of any table is one that the settings or the tenant name, so what holds of all of
these holds of the scope column of every table.
-/

namespace TenantScope

namespace ColumnMap

theorem mem_of_firstTable? {entries : List (Text × Text)} {entry : Text × Text}
    (found : firstTable? entries = some entry) : entry ∈ entries := by
  induction entries generalizing entry with
  | nil => simp [firstTable?] at found
  | cons first others ih =>
      rw [firstTable?] at found
      split at found
      · simp [Option.some.inj found]
      · rename_i other other_found
        split at found
        · rw [← Option.some.inj found]
          exact List.mem_cons_of_mem _ (ih other_found)
        · simp [Option.some.inj found]

/-- A column that a map has for a table is one of its entries, and not empty. -/
theorem exists_entry_of_find? {map : ColumnMap} {key column : Text}
    (found : map.find? key = some column) :
    ∃ entry ∈ map.entries, entry.2 = column ∧ column ≠ [] := by
  have named {entry : Text × Text}
      (member : entry ∈ map.entries.filter fun entry => !entry.2.isEmpty) :
      entry ∈ map.entries ∧ entry.2 ≠ [] := by
    simpa using member
  unfold find? at found
  dsimp only at found
  split at found
  · rename_i entry entry_found
    obtain ⟨listed, nonempty⟩ := named (List.mem_of_find?_eq_some entry_found)
    exact ⟨entry, listed, Option.some.inj found, Option.some.inj found ▸ nonempty⟩
  · obtain ⟨entry, entry_found, rfl⟩ := Option.map_eq_some_iff.mp found
    obtain ⟨listed, nonempty⟩ := named (List.mem_filter.mp (mem_of_firstTable? entry_found)).1
    exact ⟨entry, listed, rfl, nonempty⟩

end ColumnMap

/-- Every scope column that settings and a tenant name is of one kind; an empty
one stands for none. -/
structure EveryColumn (kind : Text → Prop) (rules : ScopeRules) (tenant : Tenant) : Prop where
  general : kind rules.column
  own : tenant.column = [] ∨ kind tenant.column
  single : ∀ entry ∈ tenant.columns.entries ++ rules.columns.entries, entry.2 = [] ∨ kind entry.2

instance (kind : Text → Prop) [DecidablePred kind] (rules : ScopeRules) (tenant : Tenant) :
    Decidable (EveryColumn kind rules tenant) :=
  decidable_of_iff
    (kind rules.column ∧ (tenant.column = [] ∨ kind tenant.column) ∧
      ∀ entry ∈ tenant.columns.entries ++ rules.columns.entries, entry.2 = [] ∨ kind entry.2)
    ⟨fun ⟨general, own, single⟩ => ⟨general, own, single⟩,
      fun columns => ⟨columns.general, columns.own, columns.single⟩⟩

namespace EveryColumn

theorem imp {kind other : Text → Prop} {rules : ScopeRules} {tenant : Tenant}
    (columns : EveryColumn kind rules tenant) (implies : ∀ column, kind column → other column) :
    EveryColumn other rules tenant where
  general := implies _ columns.general
  own := columns.own.imp_right (implies _)
  single entry member := (columns.single entry member).imp_right (implies _)

variable {kind : Text → Prop} {rules : ScopeRules} {tenant : Tenant}
  (columns : EveryColumn kind rules tenant)

include columns

theorem defaultColumn : kind (rules.defaultColumn tenant) := by
  unfold ScopeRules.defaultColumn
  split
  · exact columns.general
  · rename_i named
    exact columns.own.resolve_left (by simpa using named)

theorem columnOf (table : Text) : kind (rules.columnOf tenant table) := by
  have listed {map : ColumnMap} {key column : Text}
      (within : ∀ entry ∈ map.entries, entry.2 = [] ∨ kind entry.2)
      (found : map.find? key = some column) : kind column := by
    obtain ⟨entry, member, rfl, nonempty⟩ := ColumnMap.exists_entry_of_find? found
    exact (within entry member).resolve_left nonempty
  have single := List.forall_mem_append.mp columns.single
  unfold ScopeRules.columnOf
  split
  · exact columns.defaultColumn
  · dsimp only
    cases own : tenant.columns.find? (TableName.key table) with
    | some column => exact listed single.1 own
    | none =>
        rw [Option.none_or]
        cases other : rules.columns.find? (TableName.key table) with
        | some column => exact listed single.2 other
        | none => exact columns.defaultColumn

end EveryColumn

end TenantScope
