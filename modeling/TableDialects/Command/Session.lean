import TableDialects.Command.Explanation
import TableDialects.Command.FileTree
import TableDialects.Command.Request
import TableDialects.Script.Conversion
import TableDialects.Settings

/-!
# Sessions

A session is one run of the command. It is planned from what it can read; writing its output is
the last step.
-/
namespace TableDialects.Command

/-- What a run is given: the arguments, the target dialect of the environment, the standard input
if it is text, the places of the usual settings, and the files. -/
structure Session where
  arguments : List Text
  target : Option Text := none
  standardInput : Option Text
  settingsPaths : List Text
  isFile : Text → Bool
  read : Text → Except FileFault Text

structure Output where
  exitCode : Nat
  stdout : Text := []
  stderr : Text := []
  deriving DecidableEq, Repr, Inhabited

/-- A file to be written, what is said before, and what is said once it is written. -/
structure Writing where
  path : Text
  content : Text
  notes : Text
  success : Text
  deriving DecidableEq, Repr, Inhabited

/-- A run ends with its output, or by writing a file. -/
inductive Plan where
  | finish (output : Output)
  | write (w : Writing)
  deriving DecidableEq, Repr, Inhabited

/-- A run that fails says why. -/
def failure (notes message : Text) : Output :=
  { exitCode := 1, stderr := notes ++ line ["Error: ", message] }

def settingsContext : Text := "Failed to load configuration: "

namespace Session

/-- The settings of the file asked for, or of the first of the usual places that is a file. -/
def settings (s : Session) (path : Option Text) : Except Problem Settings :=
  match path.or (s.settingsPaths.find? s.isFile) with
  | none => .ok {}
  | some path =>
    match s.read path with
    | .ok text => Settings.read text
    | .error fault => .error (.inputOutput fault.message)

/-- The dialect asked for, that of the environment, or that of the settings. -/
def dialect (s : Session) (o : Options) (settings : Settings) : Except Text Dialect :=
  match o.target.or s.target with
  | some name => (Dialect.ofName name).mapError Problem.message
  | none =>
    match settings.dialect? with
    | .ok (some d) => .ok d
    | .ok none =>
      .error "No target dialect. Use --to or set [output] target in schemashift.toml"
    | .error p => .error p.message

def script (s : Session) (input : Option Text) : Except Text Text :=
  match input with
  | some path =>
    match s.read path with
    | .ok text => .ok text
    | .error fault => .error ("Failed to read ".toList ++ path ++ ": ".toList ++ fault.message)
  | none =>
    match s.standardInput with
    | some text => .ok text
    | none => .error ("Failed to read stdin: ".toList ++ FileFault.notText.message)

/-- The dialect, layout and script of a conversion. -/
def inputs (s : Session) (o : Options) : Except Text (Dialect × Layout × Text) := do
  let settings ← (s.settings o.settings).mapError fun p => settingsContext ++ p.message
  let dialect ← s.dialect o settings
  let layout := if o.lineFeeds then { settings.layout with lineEnding := .lf } else settings.layout
  let script ← s.script o.input
  return (dialect, layout, script)

def planConversion (s : Session) (o : Options) : Plan :=
  match s.inputs o with
  | .error message => .finish (failure [] message)
  | .ok (dialect, layout, script) =>
    let report := Script.report script
    let sql := Script.convert dialect layout script
    let notes := if o.verbose then report.diagnostics.flatMap (explainProblem "skipped") else []
    match o.output with
    | none => .finish { exitCode := 0, stdout := line [sql], stderr := notes }
    | some path =>
      .write ⟨path, sql, notes,
        line ["✓ Wrote ", Text.ofNat report.tables.length, " table(s) to ", path]⟩

def planExplanation (s : Session) (input : Option Text) (asJson : Bool) : Output :=
  match s.script input with
  | .error message => failure [] message
  | .ok script =>
    let report := Script.report script
    { exitCode := 0, stdout := if asJson then explainAsJson report else explain report }

def usage : Text :=
  "Usage: schemashift [INPUT] [--to DIALECT] [--output FILE] [--lf] [--config FILE] [--verbose]\n       schemashift explain [INPUT] [--json]\n       schemashift dialects\n"

/-- What a run does. Wrong arguments are answered by the exit code 2. -/
def plan (s : Session) : Plan :=
  match Request.ofArguments? s.arguments with
  | none => .finish { exitCode := 2 }
  | some .version => .finish { exitCode := 0, stdout := "schemashift 0.3.0\n" }
  | some .help => .finish { exitCode := 0, stdout := usage }
  | some .dialects => .finish { exitCode := 0, stdout := listDialects }
  | some (.explain input asJson) => .finish (s.planExplanation input asJson)
  | some (.convert o) => s.planConversion o

end Session

namespace Writing

/-- The output of a run that wrote, with what its text was passed on as. -/
def succeeded (w : Writing) (stdout stderr : Text := []) : Output :=
  { exitCode := 0, stdout, stderr := w.notes ++ stderr ++ w.success }

def failed (w : Writing) (fault : FileFault) : Output :=
  failure w.notes ("Failed to write ".toList ++ w.path ++ ": ".toList ++ fault.message)

end Writing

/-- The output of a plan carried out on the files of a host, and the files after it. -/
def Plan.run (p : Plan) (t : FileTree) (h : Host) : Output × FileTree :=
  match p with
  | .finish output => (output, t)
  | .write w =>
    let d := t.write h w.path w.content
    match d.fault with
    | none => (w.succeeded d.stdout d.stderr, d.tree)
    | some fault => (w.failed fault, d.tree)

/-- The places of the usual settings, the working directory first. -/
def settingsPaths (configuration : Text) : List Text :=
  ["schemashift.toml", configuration ++ "/schemashift/config.toml".toList]

/-- The devices that every host has. -/
def standardDevices (standardInput : Option Text) : List (Path × Device) :=
  [(["dev", "null"], ⟨.ok [], .ok .nowhere⟩),
    (["dev", "stdin"], ⟨standardInput.elim (.error .notText) .ok, .ok .nowhere⟩),
    (["dev", "stdout"], ⟨.ok [], .ok .standardOutput⟩),
    (["dev", "stderr"], ⟨.ok [], .ok .standardError⟩)]

/-- A run on a host, where `configuration` is the directory of the user's settings. -/
def run (arguments : List Text) (target standardInput : Option Text) (configuration : Text)
    (t : FileTree) (h : Host := { devices := standardDevices standardInput }) :
    Output × FileTree :=
  let session : Session :=
    { arguments, target, standardInput, settingsPaths := settingsPaths configuration,
      isFile := t.isFile h, read := t.read h }
  session.plan.run t h

end TableDialects.Command
