import TableDialects.Command.Session

/-!
# The command
-/
namespace TableDialects.Command

def faultOf : IO.Error → FileFault
  | .noFileOrDirectory _ _ _ => .notFound
  | .inappropriateType _ code _ => if code = 20 then .notDirectory else .isDirectory
  | e => .other e.toString.toList

def textOf (bytes : ByteArray) : Option Text := (String.fromUTF8? bytes).map String.toList

def load (path : Text) : IO (Except FileFault Text) := do
  try
    let bytes ← IO.FS.readBinFile (String.ofList path)
    return match textOf bytes with
      | some text => .ok text
      | none => .error .notText
  catch e => return .error (faultOf e)

def loadInput : IO (Option Text) := do
  return textOf (← (← IO.getStdin).readBinToEnd)

/-- The paths that a request may read, and whether it may read the standard input. -/
def sources (usual : List Text) : Option Request → List Text × Bool
  | some (.convert o) =>
    (o.input.toList ++ (o.settings.map fun p => [p]).getD usual, o.input.isNone)
  | some (.explain input _) => (input.toList, input.isNone)
  | _ => ([], false)

def say (o : Output) : IO UInt32 := do
  (← IO.getStdout).putStr (String.ofList o.stdout)
  (← IO.getStderr).putStr (String.ofList o.stderr)
  return o.exitCode.toUInt32

def perform : Plan → IO UInt32
  | .finish o => say o
  | .write w => do
    let outcome ←
      try
        IO.FS.writeFile (String.ofList w.path) (String.ofList w.content)
        pure w.succeeded
      catch e => pure (w.failed (faultOf e))
    say outcome

/-- The directory of the user's settings. -/
def configuration : IO Text := do
  match ← IO.getEnv "XDG_CONFIG_HOME" with
  | some path => if path.startsWith "/" then return path.toList
  | none => pure ()
  return ((← IO.getEnv "HOME").getD "").toList ++ "/.config".toList

def start (arguments : List Text) : IO UInt32 := do
  let usual := settingsPaths (← configuration)
  let (paths, readsInput) := sources usual (Request.ofArguments? arguments)
  let loaded ← paths.mapM fun path => do return (path, ← load path)
  let standardInput ← if readsInput then loadInput else pure none
  let read (path : Text) : Except FileFault Text :=
    ((loaded.find? (·.1 == path)).map (·.2)).getD (.error .notFound)
  let isFile (path : Text) : Bool :=
    match read path with
    | .ok _ | .error .notText => true
    | .error _ => false
  let target := (← IO.getEnv "SCHEMASHIFT_TARGET").map String.toList
  let session : Session :=
    { arguments, target, standardInput, settingsPaths := usual, isFile, read }
  perform session.plan

end TableDialects.Command

def main (arguments : List String) : IO UInt32 :=
  TableDialects.Command.start (arguments.map String.toList)
