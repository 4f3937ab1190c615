import TenantScope.Rewriting
import TenantScope.Settings.Document

/-!
# Settings

Settings are read from a document.  What the document does not say, or says in a form that cannot be
read, keeps its default; settings that would switch off the protection are refused.
-/

namespace TenantScope

/-- Settings of the log. -/
structure LogSettings where
  /-- Name of the least severity that is written. -/
  level : Text := Text.ascii "info"
  /-- Directory of the log. -/
  directory : Text := Text.ascii "/var/log/sqlscope"
  deriving DecidableEq, Repr

/-- All settings. -/
structure Settings where
  log : LogSettings := {}
  rules : Rules := {}
  deriving DecidableEq, Repr

/-- Why settings cannot be used. -/
inductive SettingsError
  /-- Nothing is found at the path of the document. -/
  | notFound (path : Text)
  /-- The document is not a mapping. -/
  | notMapping (path : Text)
  /-- A part of the document holds a collection where a text is needed. -/
  | malformed (part : Text)
  /-- No keyword is forbidden. -/
  | noKeywords
  /-- A limit of zero would reject every query. -/
  | zeroLimit
  /-- There would be no pass of repair. -/
  | zeroPasses
  /-- Two entries name scope columns for the same table. -/
  | sameTable
  /-- The default scope column has no name. -/
  | emptyColumn
  deriving DecidableEq, Repr

namespace SettingsError

/-- What is reported about settings that cannot be used. -/
def message (error : SettingsError) : Text :=
  Text.ascii "config_loader: " ++
    match error with
    | notFound path =>
        Text.ascii "cannot resolve config path '" ++ path ++
          Text.ascii "': No such file or directory"
    | notMapping path =>
        Text.ascii "'" ++ path ++ Text.ascii "' is not a valid YAML map (top-level)"
    | malformed part => Text.ascii "error parsing '" ++ part ++ Text.ascii "' section"
    | noKeywords => Text.ascii "classifier.dangerous_keywords must have at least one keyword"
    | zeroLimit => Text.ascii "classifier.max_select_count and max_join_count must be positive"
    | zeroPasses => Text.ascii "repair.max_repair_iterations must be positive"
    | sameTable => Text.ascii "tenant.column_overrides entries name the same table"
    | emptyColumn => Text.ascii "tenant.default_scope_column must not be empty"

end SettingsError

namespace Settings

section Reading

variable (conventions : Document.Conventions)

def readLog (document : Document) : LogSettings :=
  let plain : LogSettings := {}
  { level := conventions.readOr some "log_level" plain.level document
    directory := conventions.readOr some "log_path" plain.directory document }

def readPolicy (document : Document) : Policy :=
  let plain : Policy := {}
  { selectLimit := conventions.wordOr "max_select_count" plain.selectLimit document
    joinLimit := conventions.wordOr "max_join_count" plain.joinLimit document
    rowLimitRequired :=
      conventions.readOr conventions.truth? "require_limit" plain.rowLimitRequired document
    openings := conventions.scalarsOr "allowed_statements" plain.openings document
    keywords := Text.sortedSet (conventions.scalarsOr "dangerous_keywords" plain.keywords document)
    functions := conventions.scalarsOr "dangerous_functions" plain.functions document
    patterns := conventions.scalarsOr "injection_patterns" plain.patterns document }

/-- A map of scope columns with one more entry; one with an empty table or column says nothing. -/
def addColumn (columns : ColumnMap) (entry : Text × Document) : Except SettingsError ColumnMap :=
  match conventions.plainText? entry.2 with
  | none => .error (.malformed (Text.ascii "tenant"))
  | some column =>
      if entry.1.isEmpty || column.isEmpty then .ok columns
      else .ok (columns.insert entry.1 column)

/-- The scope columns of single tables. -/
def readColumns (entries : List (Text × Document)) : Except SettingsError ColumnMap :=
  entries.foldlM (addColumn conventions) ColumnMap.empty

def readScope (document : Document) : Except SettingsError ScopeRules :=
  let plain : ScopeRules := {}
  let columns := match conventions.find? "column_overrides" document with
    | some (.mapping entries) => readColumns conventions entries
    | _ => .ok plain.columns
  columns.map fun columns =>
    { column := conventions.readOr some "default_scope_column" plain.column document
      columns := columns
      database := conventions.readOr some "database_name" plain.database document }

def readRepair (document : Document) : RepairRules :=
  let plain : RepairRules := {}
  { passes := conventions.wordOr "max_repair_iterations" plain.passes document }

/-- A part of the document, which is empty if it is missing. -/
def part (document : Document) (name : String) : Document :=
  (conventions.find? name document).getD .null

end Reading

/-- No two tables of a map have the same key. -/
def keysDiffer (columns : ColumnMap) : Bool :=
  decide (columns.entries.map fun entry => TableName.key entry.1).Nodup

/-- The first reason not to use settings. -/
def fault? (settings : Settings) : Option SettingsError :=
  let rules := settings.rules
  if rules.policy.keywords.isEmpty then some .noKeywords
  else if rules.policy.selectLimit == 0 || rules.policy.joinLimit == 0 then some .zeroLimit
  else if rules.repair.passes == 0 then some .zeroPasses
  else if !keysDiffer rules.scope.columns then some .sameTable
  else if rules.scope.column.isEmpty then some .emptyColumn
  else none

/-- The settings that a document at a path gives. -/
def ofDocument (path : Text) (document : Document)
    (conventions : Document.Conventions := .standard) : Except SettingsError Settings :=
  match document with
  | .mapping _ => do
      let scope ← readScope conventions (part conventions document "tenant")
      let settings : Settings :=
        { log := readLog conventions (part conventions document "global")
          rules :=
            { policy := readPolicy conventions (part conventions document "classifier")
              scope := scope
              repair := readRepair conventions (part conventions document "repair") } }
      match settings.fault? with
      | some fault => .error fault
      | none => .ok settings
  | _ => .error (.notMapping path)

/-- Settings that are read come from the parts of the document and have no fault. -/
theorem parts_of_ofDocument {path : Text} {document : Document} {settings : Settings}
    {conventions : Document.Conventions}
    (read : ofDocument path document conventions = .ok settings) :
    settings.log = readLog conventions (part conventions document "global") ∧
      settings.rules.policy = readPolicy conventions (part conventions document "classifier") ∧
      readScope conventions (part conventions document "tenant") = .ok settings.rules.scope ∧
      settings.rules.repair = readRepair conventions (part conventions document "repair") ∧
      settings.fault? = none := by
  cases document with
  | mapping entries =>
      rw [ofDocument] at read
      cases scope : readScope conventions (part conventions (.mapping entries) "tenant") with
      | error fault => rw [scope] at read; cases read
      | ok scope_rules =>
          simp only [scope, bind, Except.bind] at read
          split at read
          · cases read
          · rename_i sound
            cases read
            exact ⟨rfl, rfl, rfl, rfl, sound⟩
  | null => cases read
  | scalar text => cases read
  | sequence items => cases read

theorem fault?_of_ofDocument {path : Text} {document : Document} {settings : Settings}
    {conventions : Document.Conventions}
    (read : ofDocument path document conventions = .ok settings) : settings.fault? = none :=
  (parts_of_ofDocument read).2.2.2.2

end Settings

end TenantScope
