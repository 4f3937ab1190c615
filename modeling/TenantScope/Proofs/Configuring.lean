import Mathlib.Data.List.Induction
import Mathlib.Data.List.Lex
import Mathlib.Data.List.Nodup
import Mathlib.Data.List.TakeWhile
import TenantScope.Proofs.Timestamps
import TenantScope.Settings

/-!
# Settings that a document gives

Whatever the conventions are by which documents are read, as long as a name finds its part, scalars
are their own texts, and decimal numbers and truth values are read, the same settings can be given
by a document: those without a fault whose numbers have 32 bits, whose keywords are in order, and
whose scope columns have names.
-/

namespace TenantScope

open Text

/-! ## Words in order -/

namespace Text

theorem pairwise_insertSorted {word : Text} {words : List Text} (sorted : words.Pairwise (· < ·)) :
    (insertSorted word words).Pairwise (· < ·) := by
  induction words with
  | nil => simp [insertSorted]
  | cons head tail ih =>
      rw [List.pairwise_cons] at sorted
      simp only [insertSorted]
      split
      · rename_i before
        refine List.pairwise_cons.mpr ⟨fun other member => ?_, List.pairwise_cons.mpr sorted⟩
        rcases List.mem_cons.mp member with rfl | member
        · exact before
        · exact List.lt_trans before (sorted.1 other member)
      · rename_i not_before
        split
        · exact List.pairwise_cons.mpr sorted
        · rename_i differ
          refine List.pairwise_cons.mpr ⟨fun other member => ?_, ih sorted.2⟩
          rcases mem_insertSorted.mp member with rfl | member
          · exact Std.lt_of_le_of_ne not_before (Ne.symm differ)
          · exact sorted.1 other member

theorem pairwise_sortedSet (words : List Text) : (sortedSet words).Pairwise (· < ·) := by
  induction words using List.reverseRecOn with
  | nil => exact .nil
  | append_singleton words word ih =>
      rw [sortedSet, List.foldl_concat]
      exact pairwise_insertSorted ih

theorem insertSorted_of_forall_lt {word : Text} {words : List Text}
    (later : ∀ other ∈ words, other < word) : insertSorted word words = words ++ [word] := by
  induction words with
  | nil => rfl
  | cons head tail ih =>
      rw [List.forall_mem_cons] at later
      have not_before : ¬ word < head := fun before =>
        List.lt_irrefl _ (List.lt_trans before later.1)
      have differ : word ≠ head := fun same => List.lt_irrefl head (same ▸ later.1)
      rw [insertSorted, if_neg not_before, if_neg differ, ih later.2, List.cons_append]

/-- Words in order are left as they are. -/
theorem sortedSet_of_pairwise {words : List Text} (sorted : words.Pairwise (· < ·)) :
    sortedSet words = words := by
  induction words using List.reverseRecOn with
  | nil => rfl
  | append_singleton words word ih =>
      rw [List.pairwise_append] at sorted
      have placed : sortedSet (words ++ [word]) = insertSorted word (sortedSet words) := by
        rw [sortedSet, List.foldl_concat, ← sortedSet]
      rw [placed, ih sorted.1, insertSorted_of_forall_lt fun other member =>
        sorted.2.2 other member word (List.mem_singleton_self word)]

end Text

/-! ## Conventions -/

namespace Document

/-- What a program relies on when it reads a document: a name that a mapping lists once finds its
part, a scalar is its own text, and decimal numbers and the names of the truth values are read. -/
structure Conventions.Documented (conventions : Conventions) : Prop where
  find?_of_mem {entries : List (Text × Document)} {name : String} {part : Document} :
    (entries.map Prod.fst).Nodup → (ascii name, part) ∈ entries →
      conventions.find? name (.mapping entries) = some part
  plainText?_scalar (text : Text) : conventions.plainText? (.scalar text) = some text
  word?_decimal (value : UInt32) : conventions.word? (decimal value.toNat) = some value
  truth?_name (value : Bool) :
    conventions.truth? (ascii (if value then "true" else "false")) = some value

/-- The value of a decimal digit. -/
theorem digitValue?_of_isDigit {digit : Byte} (decimal : digit.isDigit = true) :
    digit.digitValue? = some (digit.toNat - 48) ∧ digit.toNat - 48 < 10 := by
  have bounds := digit_bounds decimal
  rw [Byte.digitValue?, if_pos decimal]
  exact ⟨rfl, by omega⟩

theorem ofDigits_ten {digits : Text} (decimal : ∀ digit ∈ digits, digit.isDigit = true) :
    ofDigits 10 digits = ofDecimal digits := by
  refine List.foldl_ext _ _ _ fun value digit member => ?_
  rw [(digitValue?_of_isDigit (decimal digit member)).1, Option.getD_some]

/-- A decimal number is read in base ten. -/
theorem based_decimal (value : Nat) : based (decimal value) = (10, decimal value) := by
  obtain ⟨leading, small, head_eq, zero⟩ := head?_decimal value
  by_cases is_zero : leading = 0
  · rw [zero is_zero, decimal_of_lt (by decide)]
    rfl
  · have apart : ∀ leading < 10, leading ≠ 0 →
        (some (digit leading) != some (Byte.ofChar '0')) = true := by
      decide
    rw [based, head_eq, apart leading small is_zero, Bool.true_or, if_pos rfl]

theorem word?_decimal (value : UInt32) : word? (decimal value.toNat) = some value := by
  obtain ⟨leading, small, head_eq, -⟩ := head?_decimal value.toNat
  have are_digits : ∀ byte ∈ decimal value.toNat, byte.digitValue?.any (· < 10) = true := by
    intro byte member
    obtain ⟨value_eq, value_lt⟩ := digitValue?_of_isDigit (isDigit_of_mem_decimal _ byte member)
    simpa [value_eq] using value_lt
  have unsigned : ((decimal value.toNat).head? == some Byte.plus) = false := by
    have not_plus : ∀ leading < 10, (some (digit leading) == some Byte.plus) = false := by
      decide
    rw [head_eq, not_plus leading small]
  have begins : (decimal value.toNat).head?.any (·.digitValue?.any (· < 10)) = true := by
    rw [head_eq]
    exact are_digits _ (List.mem_of_mem_head? head_eq)
  have read_eq : ofDigits 10 (decimal value.toNat) = value.toNat := by
    rw [ofDigits_ten (isDigit_of_mem_decimal _), ofDecimal_decimal]
  have fits : value.toNat < UInt32.size := value.toNat_lt
  rw [word?, unsigned, if_neg Bool.false_ne_true, based_decimal]
  simp only [List.takeWhile_eq_self_iff.mpr are_digits, List.dropWhile_eq_nil_iff.mpr are_digits,
    begins, read_eq, fits, List.all_nil, decide_true, Bool.and_true, if_true, UInt32.ofNat_toNat]

/-- The conventions of the program are of that kind. -/
theorem Conventions.documented_standard : Conventions.standard.Documented where
  find?_of_mem {entries name part} distinct member := by
    change (entries.find? fun entry => entry.1 == ascii name).map Prod.snd = some part
    induction entries with
    | nil => cases member
    | cons entry entries ih =>
        rw [List.map_cons, List.nodup_cons] at distinct
        rcases List.mem_cons.mp member with rfl | member
        · simp
        · have other : entry.1 ≠ ascii name := fun same =>
            distinct.1 (same ▸ List.mem_map_of_mem member)
          rw [List.find?_cons_of_neg (by simpa using other)]
          exact ih distinct.2 member
  plainText?_scalar _ := rfl
  word?_decimal := word?_decimal
  truth?_name := by decide

end Document

/-! ## Documents of settings -/

namespace Settings

open Document

/-- Texts as a part of a document. -/
def listed (texts : List Text) : Document :=
  .sequence (texts.map .scalar)

def logEntries (log : LogSettings) : List (Text × Document) :=
  [(ascii "log_level", .scalar log.level), (ascii "log_path", .scalar log.directory)]

def policyEntries (policy : Policy) : List (Text × Document) :=
  [(ascii "max_select_count", .scalar (decimal policy.selectLimit)),
    (ascii "max_join_count", .scalar (decimal policy.joinLimit)),
    (ascii "require_limit",
      .scalar (ascii (if policy.rowLimitRequired then "true" else "false"))),
    (ascii "allowed_statements", listed policy.openings),
    (ascii "dangerous_keywords", listed policy.keywords),
    (ascii "dangerous_functions", listed policy.functions),
    (ascii "injection_patterns", listed policy.patterns)]

def scopeEntries (scope : ScopeRules) : List (Text × Document) :=
  [(ascii "default_scope_column", .scalar scope.column),
    (ascii "database_name", .scalar scope.database),
    (ascii "column_overrides",
      .mapping (scope.columns.entries.map fun entry => (entry.1, .scalar entry.2)))]

def repairEntries (repair : RepairRules) : List (Text × Document) :=
  [(ascii "max_repair_iterations", .scalar (decimal repair.passes))]

def entries (settings : Settings) : List (Text × Document) :=
  [(ascii "global", .mapping (logEntries settings.log)),
    (ascii "classifier", .mapping (policyEntries settings.rules.policy)),
    (ascii "tenant", .mapping (scopeEntries settings.rules.scope)),
    (ascii "repair", .mapping (repairEntries settings.rules.repair))]

/-- A document that gives the settings. -/
def document (settings : Settings) : Document :=
  .mapping settings.entries

/-- Settings that a document can give by any conventions: they have no fault, numbers of 32 bits,
keywords in order, and no scope column without a name or for a table without a name. -/
structure Writable (settings : Settings) : Prop where
  faultless : settings.fault? = none
  select : settings.rules.policy.selectLimit < UInt32.size
  join : settings.rules.policy.joinLimit < UInt32.size
  passes : settings.rules.repair.passes < UInt32.size
  sorted : settings.rules.policy.keywords.Pairwise (· < ·)
  named : ∀ entry ∈ settings.rules.scope.columns.entries, entry.1 ≠ [] ∧ entry.2 ≠ []

/-- The default settings can be written. -/
theorem writable_default : ({} : Settings).Writable :=
  ⟨by decide +kernel, by decide, by decide, by decide, by decide, by decide⟩

variable {conventions : Conventions}

section Written

variable (documented : conventions.Documented) {entries : List (Text × Document)} {name : String}
  (distinct : (entries.map Prod.fst).Nodup)

include documented distinct

theorem readOr_of_mem {α : Type} {read? : Text → Option α} {text : Text} {value fallback : α}
    (member : (ascii name, .scalar text) ∈ entries) (read : read? text = some value) :
    conventions.readOr read? name fallback (.mapping entries) = value := by
  rw [Conventions.readOr, documented.find?_of_mem distinct member, Option.bind_some, text?,
    Option.bind_some, read, Option.getD_some]

theorem wordOr_of_mem {value fallback : Nat} (small : value < UInt32.size)
    (member : (ascii name, .scalar (decimal value)) ∈ entries) :
    conventions.wordOr name fallback (.mapping entries) = value := by
  refine readOr_of_mem documented distinct member ?_
  have read := documented.word?_decimal (UInt32.ofNat value)
  rw [UInt32.toNat_ofNat_of_lt' small] at read
  rw [read, Option.map_some, UInt32.toNat_ofNat_of_lt' small]

theorem scalarsOr_of_mem {texts fallback : List Text}
    (member : (ascii name, listed texts) ∈ entries) :
    conventions.scalarsOr name fallback (.mapping entries) = texts := by
  rw [Conventions.scalarsOr, documented.find?_of_mem distinct member, Option.map_some,
    Option.getD_some, listed, scalars, List.filterMap_map]
  exact List.filterMap_some

theorem part_of_mem {part : Document} (member : (ascii name, part) ∈ entries) :
    Settings.part conventions (.mapping entries) name = part := by
  rw [Settings.part, documented.find?_of_mem distinct member, Option.getD_some]

end Written

/-- Entries with names are all added to a map that has none of their tables. -/
theorem foldlM_addColumn (documented : conventions.Documented) {entries : List (Text × Text)}
    (named : ∀ entry ∈ entries, entry.1 ≠ [] ∧ entry.2 ≠ []) (columns : ColumnMap)
    (distinct : ((columns.entries ++ entries).map Prod.fst).Nodup) :
    ∃ result, (entries.map fun entry => (entry.1, Document.scalar entry.2)).foldlM
        (addColumn conventions) columns = .ok result ∧
      result.entries = columns.entries ++ entries := by
  induction entries generalizing columns with
  | nil => exact ⟨columns, rfl, (List.append_nil _).symm⟩
  | cons entry entries ih =>
      obtain ⟨table, column⟩ := entry
      rw [List.forall_mem_cons] at named
      have fresh :
          (columns.insert table column).entries = columns.entries ++ [(table, column)] := by
        change columns.entries.filter (fun other => other.1 != table) ++ _ = _
        rw [List.filter_eq_self.mpr]
        intro other member
        rw [List.map_append, List.nodup_append] at distinct
        have apart := distinct.2.2 other.1 (List.mem_map_of_mem member) table (by simp)
        simpa using apart
      obtain ⟨result, folded, entries_eq⟩ := ih named.2 (columns.insert table column)
        (by rwa [fresh, List.append_assoc, List.singleton_append])
      refine ⟨result, ?_, by rw [entries_eq, fresh, List.append_assoc, List.singleton_append]⟩
      have added : addColumn conventions columns (table, .scalar column) =
          .ok (columns.insert table column) := by
        simp [addColumn, documented.plainText?_scalar, named.1]
      rw [List.map_cons, List.foldlM_cons, added]
      exact folded

theorem readColumns_written (documented : conventions.Documented) {columns : ColumnMap}
    (named : ∀ entry ∈ columns.entries, entry.1 ≠ [] ∧ entry.2 ≠ []) :
    readColumns conventions (columns.entries.map fun entry => (entry.1, .scalar entry.2)) =
      .ok columns := by
  obtain ⟨result, folded, entries_eq⟩ := foldlM_addColumn documented named .empty columns.distinct
  obtain rfl : result = columns := by
    cases result
    cases columns
    cases entries_eq
    rfl
  exact folded

section Parts

variable (documented : conventions.Documented)

include documented

theorem readLog_written (log : LogSettings) :
    readLog conventions (.mapping (logEntries log)) = log := by
  have distinct : ((logEntries log).map Prod.fst).Nodup :=
    (by decide : [ascii "log_level", ascii "log_path"].Nodup)
  have level_eq (fallback : Text) : conventions.readOr some "log_level" fallback
      (.mapping (logEntries log)) = log.level :=
    readOr_of_mem documented distinct (by simp [logEntries]) rfl
  have directory_eq (fallback : Text) : conventions.readOr some "log_path" fallback
      (.mapping (logEntries log)) = log.directory :=
    readOr_of_mem documented distinct (by simp [logEntries]) rfl
  rw [readLog, level_eq, directory_eq]

theorem readPolicy_written {policy : Policy} (select : policy.selectLimit < UInt32.size)
    (join : policy.joinLimit < UInt32.size) (sorted : policy.keywords.Pairwise (· < ·)) :
    readPolicy conventions (.mapping (policyEntries policy)) = policy := by
  have distinct : ((policyEntries policy).map Prod.fst).Nodup :=
    (by decide : [ascii "max_select_count", ascii "max_join_count", ascii "require_limit",
      ascii "allowed_statements", ascii "dangerous_keywords", ascii "dangerous_functions",
      ascii "injection_patterns"].Nodup)
  have scalars_eq {name : String} {texts : List Text}
      (member : (ascii name, listed texts) ∈ policyEntries policy) (fallback : List Text) :
      conventions.scalarsOr name fallback (.mapping (policyEntries policy)) = texts :=
    scalarsOr_of_mem documented distinct member
  have required_eq (fallback : Bool) : conventions.readOr conventions.truth? "require_limit"
      fallback (.mapping (policyEntries policy)) = policy.rowLimitRequired :=
    readOr_of_mem documented distinct (by simp [policyEntries]) (documented.truth?_name _)
  have openings : (ascii "allowed_statements", listed policy.openings) ∈ policyEntries policy := by
    simp [policyEntries]
  have keywords : (ascii "dangerous_keywords", listed policy.keywords) ∈ policyEntries policy := by
    simp [policyEntries]
  have functions :
      (ascii "dangerous_functions", listed policy.functions) ∈ policyEntries policy := by
    simp [policyEntries]
  have patterns : (ascii "injection_patterns", listed policy.patterns) ∈ policyEntries policy := by
    simp [policyEntries]
  rw [readPolicy, wordOr_of_mem documented distinct select (by simp [policyEntries]),
    wordOr_of_mem documented distinct join (by simp [policyEntries]), required_eq,
    scalars_eq openings, scalars_eq keywords, scalars_eq functions, scalars_eq patterns,
    sortedSet_of_pairwise sorted]

theorem readScope_written {scope : ScopeRules}
    (named : ∀ entry ∈ scope.columns.entries, entry.1 ≠ [] ∧ entry.2 ≠ []) :
    readScope conventions (.mapping (scopeEntries scope)) = .ok scope := by
  have distinct : ((scopeEntries scope).map Prod.fst).Nodup :=
    (by decide : [ascii "default_scope_column", ascii "database_name",
      ascii "column_overrides"].Nodup)
  have columns_eq : conventions.find? "column_overrides" (.mapping (scopeEntries scope)) =
      some (.mapping (scope.columns.entries.map fun entry => (entry.1, .scalar entry.2))) :=
    documented.find?_of_mem distinct (by simp [scopeEntries])
  have column_eq (fallback : Text) : conventions.readOr some "default_scope_column" fallback
      (.mapping (scopeEntries scope)) = scope.column :=
    readOr_of_mem documented distinct (by simp [scopeEntries]) rfl
  have database_eq (fallback : Text) : conventions.readOr some "database_name" fallback
      (.mapping (scopeEntries scope)) = scope.database :=
    readOr_of_mem documented distinct (by simp [scopeEntries]) rfl
  simp only [readScope, columns_eq, readColumns_written documented named, column_eq, database_eq,
    Except.map]

theorem readRepair_written {repair : RepairRules} (passes : repair.passes < UInt32.size) :
    readRepair conventions (.mapping (repairEntries repair)) = repair := by
  have distinct : ((repairEntries repair).map Prod.fst).Nodup := List.nodup_singleton _
  rw [readRepair, wordOr_of_mem documented distinct passes (by simp [repairEntries])]

/-- The document of settings gives them. -/
theorem ofDocument_document {settings : Settings} (writable : settings.Writable) (path : Text) :
    ofDocument path settings.document conventions = .ok settings := by
  have distinct : (settings.entries.map Prod.fst).Nodup :=
    (by decide : [ascii "global", ascii "classifier", ascii "tenant", ascii "repair"].Nodup)
  have part_eq {name : String} {part : List (Text × Document)}
      (member : (ascii name, .mapping part) ∈ settings.entries) :
      Settings.part conventions (.mapping settings.entries) name = .mapping part :=
    part_of_mem documented distinct member
  have log : (ascii "global", .mapping (logEntries settings.log)) ∈ settings.entries := by
    simp [entries]
  have policy : (ascii "classifier", .mapping (policyEntries settings.rules.policy)) ∈
      settings.entries := by
    simp [entries]
  have scope : (ascii "tenant", .mapping (scopeEntries settings.rules.scope)) ∈
      settings.entries := by
    simp [entries]
  have repair : (ascii "repair", .mapping (repairEntries settings.rules.repair)) ∈
      settings.entries := by
    simp [entries]
  have faultless := writable.faultless
  simp only [document, ofDocument, part_eq log, part_eq policy, part_eq scope, part_eq repair,
    readLog_written documented, readScope_written documented writable.named,
    readPolicy_written documented writable.select writable.join writable.sorted,
    readRepair_written documented writable.passes, bind, Except.bind, faultless]

end Parts

/-! ## What documents give -/

theorem wordOr_lt {name : String} {fallback : Nat} (small : fallback < UInt32.size)
    (part : Document) : conventions.wordOr name fallback part < UInt32.size := by
  rw [Conventions.wordOr, Conventions.readOr]
  cases read : ((conventions.find? name part).bind text?).bind
      fun text => (conventions.word? text).map UInt32.toNat with
  | none => exact small
  | some value =>
      obtain ⟨text, -, word_eq⟩ := Option.bind_eq_some_iff.mp read
      obtain ⟨word, -, rfl⟩ := Option.map_eq_some_iff.mp word_eq
      exact word.toNat_lt

theorem named_of_addColumn {columns result : ColumnMap} {entry : Text × Document}
    (named : ∀ entry ∈ columns.entries, entry.1 ≠ [] ∧ entry.2 ≠ [])
    (added : addColumn conventions columns entry = .ok result) :
    ∀ entry ∈ result.entries, entry.1 ≠ [] ∧ entry.2 ≠ [] := by
  rw [addColumn] at added
  split at added
  · cases added
  · rename_i column _
    split at added
    · cases added
      exact named
    · rename_i visible
      cases added
      simp only [Bool.or_eq_true, List.isEmpty_iff, not_or] at visible
      intro other member
      rcases List.mem_append.mp member with member | member
      · exact named other (List.mem_filter.mp member).1
      · rw [List.mem_singleton.mp member]
        exact visible

theorem named_of_foldlM {entries : List (Text × Document)} {columns result : ColumnMap}
    (named : ∀ entry ∈ columns.entries, entry.1 ≠ [] ∧ entry.2 ≠ [])
    (folded : entries.foldlM (addColumn conventions) columns = .ok result) :
    ∀ entry ∈ result.entries, entry.1 ≠ [] ∧ entry.2 ≠ [] := by
  induction entries generalizing columns with
  | nil =>
      cases folded
      exact named
  | cons entry entries ih =>
      rw [List.foldlM_cons] at folded
      cases added : addColumn conventions columns entry with
      | error fault =>
          rw [added] at folded
          cases folded
      | ok next =>
          rw [added] at folded
          exact ih (named_of_addColumn named added) folded

theorem named_of_readScope {part : Document} {scope : ScopeRules}
    (read : readScope conventions part = .ok scope) :
    ∀ entry ∈ scope.columns.entries, entry.1 ≠ [] ∧ entry.2 ≠ [] := by
  have plain : ∀ entry ∈ ({} : ScopeRules).columns.entries, entry.1 ≠ [] ∧ entry.2 ≠ [] := by
    decide
  rw [readScope] at read
  split at read
  · rename_i entries _
    cases columns_eq : readColumns conventions entries with
    | error fault =>
        rw [columns_eq] at read
        cases read
    | ok columns =>
        rw [columns_eq] at read
        cases read
        exact named_of_foldlM (fun entry member => (List.not_mem_nil member).elim) columns_eq
  · cases read
    exact plain

/-- Settings that a document gives have the properties that settings need to be written. -/
theorem writable_of_ofDocument {path : Text} {document : Document} {settings : Settings}
    (read : ofDocument path document conventions = .ok settings) : settings.Writable := by
  obtain ⟨-, policy_eq, scope_eq, repair_eq, faultless⟩ := parts_of_ofDocument read
  refine ⟨faultless, ?_, ?_, ?_, ?_, named_of_readScope scope_eq⟩
  · rw [policy_eq]
    exact wordOr_lt (by decide) _
  · rw [policy_eq]
    exact wordOr_lt (by decide) _
  · rw [repair_eq]
    exact wordOr_lt (by decide) _
  · rw [policy_eq]
    exact pairwise_sortedSet _

/-- By conventions of that kind, documents give exactly the settings that can be written. -/
theorem exists_document_iff (documented : conventions.Documented) (settings : Settings)
    (path : Text) :
    (∃ document, ofDocument path document conventions = .ok settings) ↔ settings.Writable :=
  ⟨fun ⟨_, read⟩ => writable_of_ofDocument read,
    fun writable => ⟨settings.document, ofDocument_document documented writable path⟩⟩

end Settings

end TenantScope
