import TenantScope.Audit.Event
import TenantScope.Settings
import TenantScope.Settings.Reader

/-!
# The command line

The arguments are the tenant and the file with the statement, which is standard input if it is
missing or a hyphen.  The rewritten statement goes to standard output; a rejected one ends with
status 2, and settings or input that cannot be used end with status 1.
-/

namespace TenantScope

namespace Command

def bytes (text : Text) : ByteArray :=
  ByteArray.mk text.toArray

def ofString (string : String) : Text :=
  string.toUTF8.toList

/-- Text of a path for the operating system. -/
def toPath (text : Text) : String :=
  (String.fromUTF8? (bytes text)).getD ""

def report (text : Text) : IO Unit := do
  (← IO.getStderr).write (bytes (Text.ascii "sqlscope: " ++ text ++ [Byte.lineFeed]))

/-- A variable of the environment that is set and not empty. -/
def environment (name : String) (fallback : Text) : IO Text := do
  match ← IO.getEnv name with
  | some value => return if value.isEmpty then fallback else ofString value
  | none => return fallback

partial def readRest (stream : IO.FS.Stream) (content : ByteArray) : IO ByteArray := do
  let block ← stream.read 65536
  if block.isEmpty then return content else readRest stream (content ++ block)

def readStatement (path : String) : IO Text := do
  if path == "-" then return (← readRest (← IO.getStdin) ByteArray.empty).toList
  else return (← IO.FS.readBinFile path).toList

/-- The present time, which is the time at which a temporary file comes into being. -/
def now : IO Moment := do
  let (_, path) ← IO.FS.createTempFile
  let modified := (← path.metadata).modified
  IO.FS.removeFile path
  return ⟨modified.sec * 1000000 + (modified.nsec.toNat / 1000 : Nat)⟩

/-- What is reported about a line of the settings that fits nowhere. -/
def lineFault (path : Text) (number : Nat) : Text :=
  Text.ascii "config_loader: YAML parse error in '" ++ path ++ Text.ascii "' at line " ++
    Text.decimal number

def loadSettings (path : Text) : IO (Except Text Settings) := do
  match ← EIO.toBaseIO (IO.FS.readBinFile (toPath path)) with
  | .error _ => return .error (SettingsError.notFound path).message
  | .ok content =>
      let found := ofString (← IO.FS.realPath (toPath path)).toString
      match Document.ofText content.toList with
      | .error number => return .error (lineFault found number)
      | .ok document => return (Settings.ofDocument found document).mapError SettingsError.message

/-- A log: its level, and the file to which lines are added. -/
structure Log where
  level : Audit.Level
  path : String

def openLog (settings : LogSettings) : IO Log := do
  let directory := toPath settings.directory
  IO.FS.createDirAll directory
  let path := directory ++ "/sqlscope.log"
  let _ ← IO.FS.Handle.mk path .append
  return ⟨.ofName settings.level, path⟩

def Log.write (log : Log) (event : Audit.Event) : IO Unit := do
  match event.line? log.level with
  | none => return
  | some line =>
      let content := bytes (line ++ [Byte.lineFeed])
      (← IO.getStderr).write content
      (← IO.FS.Handle.mk log.path .append).write content

/-- The event that records what came of a statement. -/
def recordOf (request received : Text) (tenant : Tenant) (outcome : Outcome) (moment : Moment)
    (duration : Int) : Audit.Event :=
  match outcome.result with
  | .ok text =>
      .rewritten {
        request := request, tenant := tenant.id, received := received, result := text
        repaired := outcome.repaired, moment := moment, duration := duration }
  | .error error =>
      let (kind, code) := match error with
        | .rejected rejection => (Text.ascii "safety", rejection.code)
        | .refused refusal => (Text.ascii "structural", refusal.fault.code.name)
      .rejected {
        request := request, tenant := tenant.id, received := received, kind := kind, code := code
        reason := error.message, moment := moment }

/-- Rewrite a statement, record what came of it and say how the command ends. -/
def rewrite (settings : Settings) (log : Log) (tenant : Tenant) (received : Text) : IO UInt32 := do
  let arrived ← now
  let request := Text.ascii "req-" ++ Text.integer arrived.microseconds
  let started ← IO.monoNanosNow
  let outcome ← IO.lazyPure fun _ => settings.rules.rewrite tenant received
  let finished ← IO.monoNanosNow
  log.write (recordOf request received tenant outcome (← now) ((finished - started) / 1000 : Nat))
  match outcome.result with
  | .ok text =>
      (← IO.getStdout).write (bytes (text ++ [Byte.lineFeed]))
      return 0
  | .error error =>
      report error.message
      return 2

/-- Run the command with its settings. -/
def run (settings : Settings) (tenant : Tenant) (path : String) : IO UInt32 := do
  match ← EIO.toBaseIO (openLog settings.log) with
  | .error fault =>
      report (Text.ascii "Logger initialization failed: " ++ ofString fault.toString)
      return 1
  | .ok log =>
      match ← EIO.toBaseIO (readStatement path) with
      | .error _ =>
          report (Text.ascii "cannot read SQL from '" ++ ofString path ++ Text.ascii "'")
          return 1
      | .ok received => rewrite settings log tenant received

/-- Settings of the log, where the environment may name others than the document. -/
def overridden (settings : Settings) : IO Settings := do
  let directory ← environment "LOG_PATH" settings.log.directory
  let level ← environment "LOG_LEVEL" settings.log.level
  return { settings with log := { level, directory } }

end Command

end TenantScope

/-- Run the command with its arguments. -/
def main (arguments : List String) : IO UInt32 := do
  let path ← TenantScope.Command.environment "SQLSCOPE_CONFIG"
    (TenantScope.Text.ascii "config/sqlscope.yaml")
  let fallback ← TenantScope.Command.environment "SQLSCOPE_TENANT_ID" []
  let tenant : TenantScope.Tenant :=
    { id := (arguments[0]?.map TenantScope.Command.ofString).getD fallback }
  match ← TenantScope.Command.loadSettings path with
  | .error fault =>
      TenantScope.Command.report fault
      return 1
  | .ok settings =>
      TenantScope.Command.run (← TenantScope.Command.overridden settings) tenant
        (arguments[1]?.getD "-")
