import Mathlib.Data.List.Nodup
import TenantScope.Proofs.Columns
import TenantScope.Proofs.Folding
import TenantScope.Settings

/-!
# Which column a table gets

Several entries may name a scope column for one table: under its key, under names that have the same
key, for the tenant and for all tenants.  This file says which of them decides, without saying how
it is looked for, and shows that the look-up finds it.  Settings that are read leave a choice among
the tenant's own entries only.
-/

namespace TenantScope

open Text

/-! ## Keys -/

namespace TableName

theorem isMark_of_mem_unquoted {name : Text} {byte : Byte}
    (member : byte ∈ name.filter fun byte => !isMark byte) : isMark byte = false := by
  simpa using (List.mem_filter.mp member).2

/-- A key is its own key. -/
theorem key_key (name : Text) : key (key name) = key name := by
  obtain ⟨part, part_eq, unmarked, undotted⟩ : ∃ part : Text, key name = part.lower ∧
      (∀ byte ∈ part, isMark byte = false) ∧ ∀ byte ∈ part, (byte != Byte.dot) = true := by
    refine ⟨_, rfl, fun byte member => ?_, fun byte member => ?_⟩
    · have kept := (List.takeWhile_sublist _).subset (List.mem_reverse.mp member)
      exact isMark_of_mem_unquoted (List.mem_reverse.mp kept)
    · exact List.mem_takeWhile_imp (p := (· != Byte.dot)) (List.mem_reverse.mp member)
  have whole : part.filter (fun byte => !isMark byte) = part :=
    List.filter_eq_self.mpr fun byte member => by simp [unmarked byte member]
  have last : part.reverse.takeWhile (· != Byte.dot) = part.reverse :=
    List.takeWhile_eq_self_iff.mpr fun byte member => undotted byte (List.mem_reverse.mp member)
  rw [part_eq, key_lower, key, whole, last, List.reverse_reverse]

end TableName

/-! ## Entries of one map -/

namespace ColumnMap

/-- The entry names a column for the tables that have a key. -/
structure Names (map : ColumnMap) (key : Text) (entry : Text × Text) : Prop where
  listed : entry ∈ map.entries
  same : TableName.key entry.1 = key
  nonempty : entry.2 ≠ []

/-- Of the entries that name a column, the one listed under the key itself decides, or else the one
whose table comes first in bytewise order. -/
structure Decides (map : ColumnMap) (key : Text) (entry : Text × Text) : Prop extends
    Names map key entry where
  prior : entry.1 = key ∨ ∀ other, Names map key other → other.1 ≠ key ∧ entry.1 ≤ other.1

theorem eq_of_fst_eq (map : ColumnMap) {entry other : Text × Text} (member : entry ∈ map.entries)
    (other_member : other ∈ map.entries) (same : entry.1 = other.1) : entry = other :=
  List.inj_on_of_nodup_map map.distinct member other_member same

/-- One entry decides at most. -/
theorem Decides.unique {map : ColumnMap} {key : Text} {entry other : Text × Text}
    (decides : Decides map key entry) (other_decides : Decides map key other) : entry = other := by
  refine map.eq_of_fst_eq decides.listed other_decides.listed ?_
  rcases decides.prior with exact_match | first
  · rcases other_decides.prior with other_exact | other_first
    · rw [exact_match, other_exact]
    · exact absurd exact_match (other_first entry decides.toNames).1
  · obtain ⟨apart, le⟩ := first other other_decides.toNames
    have other_first := other_decides.prior.resolve_left apart
    exact List.le_antisymm le (other_first entry decides.toNames).2

theorem firstTable?_eq_none {entries : List (Text × Text)} :
    firstTable? entries = none ↔ entries = [] := by
  cases entries with
  | nil => simp [firstTable?]
  | cons entry entries =>
      simp only [firstTable?, reduceCtorEq, iff_false]
      split
      · simp
      · split <;> simp

/-- The table of the first entry comes before the others, or is one of them. -/
theorem le_of_firstTable? {entries : List (Text × Text)} {first : Text × Text}
    (found : firstTable? entries = some first) : ∀ entry ∈ entries, first.1 ≤ entry.1 := by
  induction entries generalizing first with
  | nil => simp [firstTable?] at found
  | cons entry entries ih =>
      rw [firstTable?] at found
      rw [List.forall_mem_cons]
      split at found
      · rename_i nothing
        rw [firstTable?_eq_none] at nothing
        simp [← Option.some.inj found, nothing]
      · rename_i other other_found
        split at found
        · rename_i before
          rw [← Option.some.inj found]
          exact ⟨List.le_of_lt before, ih other_found⟩
        · rename_i after
          rw [← Option.some.inj found]
          exact ⟨List.le_refl _, fun later member =>
            List.le_trans (List.not_lt.mp after) (ih other_found later member)⟩

/-- The look-up under a key finds the column of the entry that decides. -/
theorem exists_decides_of_find? {map : ColumnMap} {key column : Text}
    (is_key : TableName.key key = key) (found : map.find? key = some column) :
    ∃ entry, Decides map key entry ∧ entry.2 = column := by
  unfold find? at found
  dsimp only at found
  split at found
  · rename_i entry entry_found
    have exact_match : entry.1 = key := by simpa using List.find?_some entry_found
    obtain ⟨listed, nonempty⟩ := List.mem_filter.mp (List.mem_of_find?_eq_some entry_found)
    have names : Names map key entry := ⟨listed, exact_match ▸ is_key, by simpa using nonempty⟩
    exact ⟨entry, ⟨names, .inl exact_match⟩, Option.some.inj found⟩
  · rename_i no_exact
    obtain ⟨entry, entry_found, column_eq⟩ := Option.map_eq_some_iff.mp found
    have names_iff (other : Text × Text) :
        other ∈ (map.entries.filter fun entry => !entry.2.isEmpty).filter
          (fun entry => TableName.key entry.1 == key) ↔ Names map key other := by
      rw [List.mem_filter, List.mem_filter]
      constructor
      · rintro ⟨⟨listed, nonempty⟩, same⟩
        exact ⟨listed, by simpa using same, by simpa using nonempty⟩
      · intro names
        exact ⟨⟨names.listed, by simpa using names.nonempty⟩, by simpa using names.same⟩
    refine ⟨entry,
      ⟨(names_iff entry).mp (mem_of_firstTable? entry_found), .inr fun other names => ?_⟩,
      column_eq⟩
    have member := (names_iff other).mpr names
    refine ⟨fun exact_match => ?_, le_of_firstTable? entry_found other member⟩
    exact List.find?_eq_none.mp no_exact other (List.mem_filter.mp member).1
      (by simpa using exact_match)

/-- The look-up finds nothing when no entry names a column. -/
theorem not_names_of_find? {map : ColumnMap} {key : Text} (nothing : map.find? key = none)
    (entry : Text × Text) : ¬ Names map key entry := by
  intro names
  unfold find? at nothing
  dsimp only at nothing
  split at nothing
  · cases nothing
  · rw [Option.map_eq_none_iff, firstTable?_eq_none, List.filter_eq_nil_iff] at nothing
    have listed : entry ∈ map.entries.filter fun entry => !entry.2.isEmpty :=
      List.mem_filter.mpr ⟨names.listed, by simpa using names.nonempty⟩
    exact nothing entry listed (by simpa using names.same)

/-- Which entry decides depends on the entries only, not on their order. -/
theorem decides_congr {map other : ColumnMap}
    (same : ∀ entry, entry ∈ map.entries ↔ entry ∈ other.entries) (key : Text) :
    (∀ entry, Names map key entry ↔ Names other key entry) ∧
      ∀ entry, Decides map key entry ↔ Decides other key entry := by
  have names_iff (entry : Text × Text) : Names map key entry ↔ Names other key entry := by
    constructor
    · exact fun ⟨listed, has_key, nonempty⟩ => ⟨(same entry).mp listed, has_key, nonempty⟩
    · exact fun ⟨listed, has_key, nonempty⟩ => ⟨(same entry).mpr listed, has_key, nonempty⟩
  refine ⟨names_iff, fun entry => ?_⟩
  constructor
  · rintro ⟨names, prior⟩
    exact ⟨(names_iff entry).mp names, prior.imp_right fun first other names =>
      first other ((names_iff other).mpr names)⟩
  · rintro ⟨names, prior⟩
    exact ⟨(names_iff entry).mpr names, prior.imp_right fun first other names =>
      first other ((names_iff other).mp names)⟩

/-- The look-up does not depend on the order of the entries. -/
theorem find?_congr {map other : ColumnMap}
    (same : ∀ entry, entry ∈ map.entries ↔ entry ∈ other.entries) {key : Text}
    (is_key : TableName.key key = key) : map.find? key = other.find? key := by
  obtain ⟨names_iff, decides_iff⟩ := decides_congr same key
  cases found : map.find? key with
  | some column =>
      obtain ⟨entry, decides, rfl⟩ := exists_decides_of_find? is_key found
      cases other_found : other.find? key with
      | some other_column =>
          obtain ⟨other_entry, other_decides, rfl⟩ := exists_decides_of_find? is_key other_found
          rw [((decides_iff entry).mp decides).unique other_decides]
      | none =>
          exact absurd ((names_iff entry).mp decides.toNames)
            (not_names_of_find? other_found entry)
  | none =>
      cases other_found : other.find? key with
      | some other_column =>
          obtain ⟨entry, decides, -⟩ := exists_decides_of_find? is_key other_found
          exact absurd ((names_iff entry).mpr decides.toNames) (not_names_of_find? found entry)
      | none => rfl

end ColumnMap

/-! ## The column of a table -/

/-- The column of a table, step by step: the tenant's own entries, those for all
tenants, the tenant's column, and the one of the settings.  A table without a name takes
the last two steps only. -/
inductive Resolves (rules : ScopeRules) (tenant : Tenant) (table : Text) : Text → Prop
  | own {entry : Text × Text} (named : table ≠ [])
      (decides : tenant.columns.Decides (TableName.key table) entry) :
      Resolves rules tenant table entry.2
  | shared {entry : Text × Text} (named : table ≠ [])
      (none_own : ∀ other, ¬ tenant.columns.Names (TableName.key table) other)
      (names : rules.columns.Names (TableName.key table) entry) :
      Resolves rules tenant table entry.2
  | ofTenant
      (none_listed : table ≠ [] → ∀ other, ¬ tenant.columns.Names (TableName.key table) other ∧
        ¬ rules.columns.Names (TableName.key table) other)
      (nonempty : tenant.column ≠ []) : Resolves rules tenant table tenant.column
  | ofRules
      (none_listed : table ≠ [] → ∀ other, ¬ tenant.columns.Names (TableName.key table) other ∧
        ¬ rules.columns.Names (TableName.key table) other)
      (empty : tenant.column = []) : Resolves rules tenant table rules.column

namespace ScopeRules

variable {rules : ScopeRules}

/-- Without an entry for a table, the default column is the tenant's, or else that of the
settings. -/
theorem resolves_defaultColumn {tenant : Tenant} {table : Text}
    (none_listed : table ≠ [] → ∀ other, ¬ tenant.columns.Names (TableName.key table) other ∧
      ¬ rules.columns.Names (TableName.key table) other) :
    Resolves rules tenant table (rules.defaultColumn tenant) := by
  unfold defaultColumn
  split
  · rename_i empty
    exact .ofRules none_listed (by simpa using empty)
  · rename_i nonempty
    exact .ofTenant none_listed (by simpa using nonempty)

theorem resolves_columnOf (rules : ScopeRules) (tenant : Tenant) (table : Text) :
    Resolves rules tenant table (rules.columnOf tenant table) := by
  have is_key := TableName.key_key table
  unfold columnOf
  split
  · rename_i empty
    exact resolves_defaultColumn fun named => absurd (by simpa using empty) named
  · rename_i nonempty
    have named : table ≠ [] := by simpa using nonempty
    dsimp only
    cases own : tenant.columns.find? (TableName.key table) with
    | some column =>
        obtain ⟨entry, decides, rfl⟩ := ColumnMap.exists_decides_of_find? is_key own
        exact .own named decides
    | none =>
        have none_own := ColumnMap.not_names_of_find? own
        rw [Option.none_or]
        cases shared : rules.columns.find? (TableName.key table) with
        | some column =>
            obtain ⟨entry, decides, rfl⟩ := ColumnMap.exists_decides_of_find? is_key shared
            exact .shared named none_own decides.toNames
        | none =>
            exact resolves_defaultColumn fun _ other =>
              ⟨none_own other, ColumnMap.not_names_of_find? shared other⟩

end ScopeRules

/-- The tables that the settings list for all tenants have different keys, and the column of the
settings has a name. -/
structure ScopeRules.Sound (rules : ScopeRules) : Prop where
  apart : ∀ entry ∈ rules.columns.entries, ∀ other ∈ rules.columns.entries,
    TableName.key entry.1 = TableName.key other.1 → entry = other
  nonempty : rules.column ≠ []

namespace Resolves

variable {rules : ScopeRules} {tenant : Tenant} {table column other : Text}

theorem nonempty (sound : rules.Sound) (resolves : Resolves rules tenant table column) :
    column ≠ [] := by
  cases resolves with
  | own _ decides => exact decides.nonempty
  | shared _ _ names => exact names.nonempty
  | ofTenant _ nonempty => exact nonempty
  | ofRules => exact sound.nonempty

/-- A table has one column. -/
theorem unique (sound : rules.Sound) (resolves : Resolves rules tenant table column)
    (other_resolves : Resolves rules tenant table other) : column = other := by
  cases resolves with
  | own named decides =>
      cases other_resolves with
      | own _ other_decides => rw [decides.unique other_decides]
      | shared _ none_own => exact absurd decides.toNames (none_own _)
      | ofTenant none_listed => exact absurd decides.toNames (none_listed named _).1
      | ofRules none_listed => exact absurd decides.toNames (none_listed named _).1
  | shared named none_own names =>
      cases other_resolves with
      | own _ other_decides => exact absurd other_decides.toNames (none_own _)
      | shared _ _ other_names =>
          rw [sound.apart _ names.listed _ other_names.listed
            (names.same.trans other_names.same.symm)]
      | ofTenant none_listed => exact absurd names (none_listed named _).2
      | ofRules none_listed => exact absurd names (none_listed named _).2
  | ofTenant none_listed nonempty =>
      cases other_resolves with
      | own named other_decides => exact absurd other_decides.toNames (none_listed named _).1
      | shared named _ other_names => exact absurd other_names (none_listed named _).2
      | ofTenant => rfl
      | ofRules _ empty => exact absurd empty nonempty
  | ofRules none_listed empty =>
      cases other_resolves with
      | own named other_decides => exact absurd other_decides.toNames (none_listed named _).1
      | shared named _ other_names => exact absurd other_names (none_listed named _).2
      | ofTenant _ nonempty => exact absurd empty nonempty
      | ofRules => rfl

end Resolves

/-! ## Settings that are read -/

namespace Settings

theorem sound_of_ofDocument {path : Text} {document : Document} {settings : Settings}
    {conventions : Document.Conventions}
    (read : ofDocument path document conventions = .ok settings) :
    settings.rules.scope.Sound := by
  have faultless := fault?_of_ofDocument read
  simp only [fault?] at faultless
  split_ifs at faultless with _ _ _ differ column
  refine ⟨fun entry member other other_member same => ?_, by simpa using column⟩
  have nodup :
      (settings.rules.scope.columns.entries.map fun entry => TableName.key entry.1).Nodup := by
    simpa [keysDiffer] using differ
  exact List.inj_on_of_nodup_map nodup member other_member same

/-- Under settings that are read, by any conventions, every table has one column, and it has
a name.  Of the entries for all tenants one has the key of the table at most, and no order
of entries matters. -/
theorem columnOf_of_ofDocument {path : Text} {document : Document} {settings : Settings}
    {conventions : Document.Conventions}
    (read : ofDocument path document conventions = .ok settings) (tenant : Tenant) (table : Text) :
    let rules := settings.rules.scope
    rules.columnOf tenant table ≠ [] ∧
      (∀ column, rules.columnOf tenant table = column ↔ Resolves rules tenant table column) ∧
      (∀ entry ∈ rules.columns.entries, ∀ other ∈ rules.columns.entries,
        TableName.key entry.1 = TableName.key table → TableName.key other.1 = TableName.key table →
          entry = other) ∧
      ∀ own shared : ColumnMap,
        (∀ entry, entry ∈ own.entries ↔ entry ∈ tenant.columns.entries) →
        (∀ entry, entry ∈ shared.entries ↔ entry ∈ rules.columns.entries) →
          ({ rules with columns := shared } : ScopeRules).columnOf
          { tenant with columns := own } table =
            rules.columnOf tenant table := by
  intro rules
  have sound : rules.Sound := sound_of_ofDocument read
  have resolves := rules.resolves_columnOf tenant table
  refine ⟨resolves.nonempty sound, fun column => ?_,
    fun entry member other other_member has_key other_key =>
    sound.apart entry member other other_member (has_key.trans other_key.symm),
    fun own shared own_same shared_same => ?_⟩
  · constructor
    · exact fun column_eq => column_eq ▸ resolves
    · exact fun other_resolves => resolves.unique sound other_resolves
  · have is_key := TableName.key_key table
    simp only [ScopeRules.columnOf, ColumnMap.find?_congr own_same is_key,
      ColumnMap.find?_congr shared_same is_key]
    rfl

/-- A document that names scope columns for two tables, and says nothing else. -/
def scoping (columns : List (Text × Text)) : Document :=
  .mapping [(ascii "tenant",
    .mapping [(ascii "column_overrides",
      .mapping (columns.map fun entry => (entry.1, .scalar entry.2)))])]

/-- A tenant with three entries for one table, of which the one under the key has no column, so that
the first of the others in bytewise order decides. -/
theorem columnOf_of_ofDocument_tie :
    let shared := ColumnMap.ofList [(ascii "s.Orders", ascii "org"), (ascii "tenants", ascii "id")]
    let own := ColumnMap.ofList
      [(ascii "orders", []), (ascii "b.ORDERS", ascii "late"), (ascii "a.Orders", ascii "owner")]
    ofDocument [] (scoping [(ascii "s.Orders", ascii "org"), (ascii "tenants", ascii "id")]) =
        .ok { rules := { scope := { columns := shared } } } ∧
      Resolves { columns := shared } { columns := own } (ascii "`Orders`") (ascii "owner") := by
  intro shared own
  have read : ofDocument []
      (scoping [(ascii "s.Orders", ascii "org"), (ascii "tenants", ascii "id")]) =
      .ok { rules := { scope := { columns := shared } } } := rfl
  have column_iff := (columnOf_of_ofDocument read { columns := own } (ascii "`Orders`")).2.1
  exact ⟨read, (column_iff (ascii "owner")).mp (by decide)⟩

end Settings

end TenantScope
