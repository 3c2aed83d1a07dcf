import TableDialects.Text.Basic

/-!
# Requests on the command line

Arguments are read from left to right. The first that is wrong refuses the whole line.
-/
namespace TableDialects.Command

/-- What a conversion is asked to read, to use and to write. -/
structure Options where
  input : Option Text := none
  target : Option Text := none
  output : Option Text := none
  settings : Option Text := none
  lineFeeds : Bool := false
  verbose : Bool := false
  deriving DecidableEq, Repr, Inhabited

inductive Request where
  | convert (options : Options)
  | explain (input : Option Text) (asJson : Bool)
  | dialects
  | version
  | help
  deriving DecidableEq, Repr, Inhabited

/-- The options that take a value. -/
inductive Key where
  | target | output | settings
  deriving DecidableEq, Repr, Inhabited

namespace Options

/-- A path that is given once and not empty. -/
def path? (known : Option Text) (path : Text) : Option (Option Text) :=
  if known.isSome || path.isEmpty then none else some (some path)

def setValue? (o : Options) (key : Key) (value : Text) : Option Options :=
  match key with
  | .target => if o.target.isSome then none else some { o with target := some value }
  | .output => (path? o.output value).map fun p => { o with output := p }
  | .settings => (path? o.settings value).map fun p => { o with settings := p }

def setInput? (o : Options) (path : Text) : Option Options :=
  (path? o.input path).map fun p => { o with input := p }

def setVerbose? (o : Options) : Option Options :=
  if o.verbose then none else some { o with verbose := true }

def setLineFeeds? (o : Options) : Option Options :=
  if o.lineFeeds then none else some { o with lineFeeds := true }

end Options

/-- What has been read so far: the options, the option that waits for its value, and whether only
paths may follow. -/
structure Progress where
  options : Options := {}
  pending : Option Key := none
  pathsOnly : Bool := false

/-- What one argument leads to. -/
inductive Step where
  | next (p : Progress)
  | done (r : Request)
  | explain
  | dialects
  | help

/-- A hyphen by itself is a path. -/
def isOption (argument : Text) : Bool := argument.head? == some '-' && argument.length != 1

def keyNamed? (name : Text) : Option Key :=
  if name = "to".toList then some .target
  else if name = "output".toList then some .output
  else if name = "config".toList then some .settings
  else none

def keyLettered? : Char → Option Key
  | 't' => some .target
  | 'o' => some .output
  | _ => none

/-- An option after two hyphens. Its value may follow an equals sign. -/
def longOption? (p : Progress) (text : Text) : Option Step :=
  let name := text.takeWhile (· != '=')
  let attached := text.drop name.length
  match keyNamed? name with
  | some key =>
    match attached with
    | [] => some (.next { p with pending := some key })
    | _ :: value => (p.options.setValue? key value).map fun o => .next { p with options := o }
  | none =>
    if !attached.isEmpty then none
    else if name = "lf".toList then
      p.options.setLineFeeds?.map fun o => .next { p with options := o }
    else if name = "verbose".toList then
      p.options.setVerbose?.map fun o => .next { p with options := o }
    else if name = "version".toList then some (.done .version)
    else if name = "help".toList then some (.done .help)
    else none

/-- The options after one hyphen. The first that takes a value takes all that follows it. -/
def shortOptions? (p : Progress) : Text → Option Step
  | [] => some (.next p)
  | 'v' :: cs => do shortOptions? { p with options := ← p.options.setVerbose? } cs
  | 'V' :: _ => some (.done .version)
  | 'h' :: _ => some (.done .help)
  | c :: cs => do
    let key ← keyLettered? c
    match cs with
    | [] => return .next { p with pending := some key }
    | '=' :: value => return .next { p with options := ← p.options.setValue? key value }
    | value => return .next { p with options := ← p.options.setValue? key value }

def step? (p : Progress) (argument : Text) : Option Step :=
  match p.pending with
  | some key =>
    if isOption argument then none
    else (p.options.setValue? key argument).map fun o =>
      .next { p with options := o, pending := none }
  | none =>
    if !p.pathsOnly && isOption argument then
      match argument with
      | ['-', '-'] => some (.next { p with pathsOnly := true })
      | '-' :: '-' :: text => longOption? p text
      | _ :: text => shortOptions? p text
      | [] => none
    else if !p.pathsOnly && argument = "explain".toList then some .explain
    else if !p.pathsOnly && argument = "dialects".toList then some .dialects
    else if !p.pathsOnly && argument = "help".toList then some .help
    else (p.options.setInput? argument).map fun o => .next { p with options := o }

/-- The arguments after `explain`. -/
def explain? (input : Option Text) (asJson pathsOnly : Bool) : List Text → Option Request
  | [] => some (.explain input asJson)
  | argument :: rest =>
    if !pathsOnly && isOption argument then
      if argument = "--".toList then explain? input asJson true rest
      else if argument = "--json".toList && !asJson then explain? input true pathsOnly rest
      else if argument = "--help".toList || argument.take 2 = "-h".toList then some .help
      else none
    else do explain? (← Options.path? input argument) asJson pathsOnly rest

/-- The arguments after `dialects`. -/
def dialects? : List Text → Option Request
  | [] => some .dialects
  | [argument] =>
    if argument = "--".toList then some .dialects
    else if argument = "--help".toList || argument.take 2 = "-h".toList then some .help
    else none
  | argument :: _ =>
    if argument = "--help".toList || argument.take 2 = "-h".toList then some .help else none

/-- The arguments after `help`. -/
def help? : List Text → Option Request
  | [] => some .help
  | [name] => if ["explain", "dialects", "help"].any (·.toList == name) then some .help else none
  | _ => none

def readFrom? (p : Progress) : List Text → Option Request
  | [] => if p.pending.isSome then none else some (.convert p.options)
  | argument :: rest =>
    match step? p argument with
    | none => none
    | some (.next p) => readFrom? p rest
    | some (.done r) => some r
    | some .explain => explain? none false false rest
    | some .dialects => dialects? rest
    | some .help => help? rest

/-- What the arguments ask for, unless one of them is wrong. -/
def Request.ofArguments? (arguments : List Text) : Option Request := readFrom? {} arguments

end TableDialects.Command
