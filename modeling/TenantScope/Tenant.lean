import TenantScope.TableName

/-!
# Tenants and the columns that tell them apart

The rows of a tenant are those that hold its identifier in the scope column of their table.  A
table has its own scope column where the tenant or the settings name one for it, and the
default one otherwise.
-/

namespace TenantScope

/-- Scope columns of single tables, each table listed once. -/
structure ColumnMap where
  /-- Tables and their scope columns. -/
  entries : List (Text × Text)
  /-- No table is listed twice. -/
  distinct : (entries.map Prod.fst).Nodup
  deriving DecidableEq, Repr

namespace ColumnMap

def empty : ColumnMap where
  entries := []
  distinct := List.nodup_nil

theorem distinct_insert {entries : List (Text × Text)} (table column : Text)
    (distinct : (entries.map Prod.fst).Nodup) :
    ((entries.filter (fun entry => entry.1 != table) ++ [(table, column)]).map Prod.fst).Nodup := by
  rw [List.map_append, List.nodup_append]
  refine ⟨(List.filter_sublist.map Prod.fst).nodup distinct, by simp, ?_⟩
  intro other other_mem last last_mem
  obtain ⟨entry, entry_mem, rfl⟩ := List.mem_map.mp other_mem
  have entry_ne := (List.mem_filter.mp entry_mem).2
  simp only [List.map_cons, List.map_nil, List.mem_singleton] at last_mem
  simpa [last_mem] using entry_ne

/-- The map with one more entry, which replaces the entry of the same table. -/
def insert (map : ColumnMap) (table column : Text) : ColumnMap where
  entries := map.entries.filter (fun entry => entry.1 != table) ++ [(table, column)]
  distinct := distinct_insert table column map.distinct

def ofList (entries : List (Text × Text)) : ColumnMap :=
  entries.foldl (fun map entry => map.insert entry.1 entry.2) empty

/-- The entry whose table comes first in bytewise order. -/
def firstTable? : List (Text × Text) → Option (Text × Text)
  | [] => none
  | entry :: entries =>
      match firstTable? entries with
      | none => some entry
      | some other => if other.1 < entry.1 then some other else some entry

/-- The scope column of the table with a key: the one listed under the key itself, or else the one
of the first table in bytewise order that has the key.  An empty column counts as none. -/
def find? (map : ColumnMap) (key : Text) : Option Text :=
  let named := map.entries.filter fun entry => !entry.2.isEmpty
  match named.find? fun entry => entry.1 == key with
  | some entry => some entry.2
  | none => (firstTable? (named.filter fun entry => TableName.key entry.1 == key)).map Prod.snd

end ColumnMap

/-- A tenant whose identity has been established by the caller. -/
structure Tenant where
  /-- The identifier of the tenant in the rows of its tables. -/
  id : Text := []
  /-- The scope column of tables without one of their own; empty to take the one of the settings. -/
  column : Text := Text.ascii "tenant_id"
  /-- Scope columns of single tables. -/
  columns : ColumnMap := .empty
  deriving DecidableEq, Repr

/-- Settings on scope columns that hold for every tenant. -/
structure ScopeRules where
  /-- The scope column of tables without one of their own. -/
  column : Text := Text.ascii "tenant_id"
  /-- Scope columns of single tables. -/
  columns : ColumnMap := .ofList [(Text.ascii "tenants", Text.ascii "id")]
  /-- Name of the database, which is taken off the names of tables; empty to leave them. -/
  database : Text := []
  deriving DecidableEq, Repr

namespace ScopeRules

/-- The scope column of tables without one of their own. -/
def defaultColumn (rules : ScopeRules) (tenant : Tenant) : Text :=
  if tenant.column.isEmpty then rules.column else tenant.column

/-- The scope column of a table: the tenant's for it, the settings' for it, or the default one. -/
def columnOf (rules : ScopeRules) (tenant : Tenant) (table : Text) : Text :=
  if table.isEmpty then rules.defaultColumn tenant
  else
    let key := TableName.key table
    ((tenant.columns.find? key).or (rules.columns.find? key)).getD (rules.defaultColumn tenant)

end ScopeRules

end TenantScope
