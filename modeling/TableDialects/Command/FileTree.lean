import TableDialects.Text.Basic

/-!
# Files

A run reads and writes the files of a system, each known by its path from the root. What it cannot
change is the host: the working directory, the devices, and what becomes of a text on its way to a
file.
-/
namespace TableDialects.Command

/-- Why a file cannot be read or written. -/
inductive FileFault where
  | notFound
  | notDirectory
  | isDirectory
  | nameTooLong
  /-- The bytes of the file are no text in UTF-8. -/
  | notText
  | other (detail : Text)
  deriving DecidableEq, Repr, Inhabited

def FileFault.message : FileFault → Text
  | .notFound => "No such file or directory (os error 2)"
  | .notDirectory => "Not a directory (os error 20)"
  | .isDirectory => "Is a directory (os error 21)"
  | .nameTooLong => "File name too long (os error 36)"
  | .notText => "stream did not contain valid UTF-8"
  | .other detail => detail

/-- The names of the directories from the root down to a file, and its own name. -/
abbrev Path := List Text

/-- Where a device passes on what is written to it. -/
inductive Channel where
  | nowhere | standardOutput | standardError
  deriving DecidableEq, Repr, Inhabited

/-- A device keeps no text. It gives one to be read and passes on the one that it takes. -/
structure Device where
  gives : Except FileFault Text
  takes : Except FileFault Channel

/-- What becomes of a text that is written to a file. Opening the file makes it or empties it. -/
inductive Fate where
  | written
  /-- The file is not opened. -/
  | refused (fault : FileFault)
  /-- The file is opened and takes no more than so many bytes. -/
  | cut (bytes : Nat) (fault : FileFault)
  deriving DecidableEq, Repr, Inhabited

/-- What no run changes. Directories are those that are named here and those on the way to
something. -/
structure Host where
  /-- Where paths begin that do not begin at the root. -/
  directory : Path := []
  folders : List Path := []
  devices : List (Path × Device) := []
  /-- What a path stands for: a link for what it links to, any other path for itself. -/
  real : Path → Except FileFault Path := .ok
  /-- Why a file cannot be read although it is there. -/
  unreadable : Path → Option FileFault := fun _ => none
  fate : Path → Fate := fun _ => .written

def Host.device? (h : Host) (path : Path) : Option Device :=
  (h.devices.find? (·.1 == path)).map (·.2)

/-- The files with their texts. A file that is no text has none. -/
structure FileTree where
  files : List (Path × Option Text) := []
  deriving DecidableEq, Repr, Inhabited

namespace FileTree

/-- What a path leads to. -/
inductive Place where
  | file (path : Path)
  | device (d : Device)
  | directory
  /-- Nothing, although the directory that would hold it is there. -/
  | vacant (path : Path)

/-- Why no path leads further from a place that is no directory. -/
def Place.obstruction : Place → FileFault
  | .vacant _ => .notFound
  | _ => .notDirectory

def find? (t : FileTree) (path : Path) : Option (Option Text) :=
  (t.files.find? (·.1 == path)).map (·.2)

def hasDirectory (t : FileTree) (h : Host) (path : Path) : Bool :=
  (h.directory :: h.folders).any path.isPrefixOf ||
    (h.devices.any fun d => path.isPrefixOf d.1 && d.1 != path) ||
    t.files.any fun f => path.isPrefixOf f.1 && f.1 != path

/-- What stands at a path that is no directory. -/
def occupant (t : FileTree) (h : Host) (path : Path) : Place :=
  if (t.find? path).isSome then .file path
  else match h.device? path with
    | some d => .device d
    | none => .vacant path

/-- The longest name in bytes. -/
def nameLimit : Nat := 255

/-- The longest path in bytes. -/
def pathLimit : Nat := 4095

/-- Where the names lead from a directory. The directory above the root is the root. -/
def walk (t : FileTree) (h : Host) (directory : Path) : List Text → Except FileFault Place
  | [] => .ok .directory
  | name :: names =>
    if name.isEmpty || name = ['.'] then walk t h directory names
    else if name = ['.', '.'] then walk t h directory.dropLast names
    else if nameLimit < Text.utf8Length name then .error .nameTooLong
    else
      match h.real (directory ++ [name]) with
      | .error fault => .error fault
      | .ok path =>
        if t.hasDirectory h path then walk t h path names
        else if names.isEmpty then .ok (t.occupant h path)
        else .error (t.occupant h path).obstruction

def namesOf (path : Text) : List Text := Text.pieces (· == '/') path

/-- Where the names of a written path lead, from the root if it begins with a slash. -/
def follow (t : FileTree) (h : Host) (path : Text) (names : List Text) : Except FileFault Place :=
  if path.isEmpty then .error .notFound
  else if pathLimit < Text.utf8Length path then .error .nameTooLong
  else t.walk h (if path.head? = some '/' then [] else h.directory) names

def locate (t : FileTree) (h : Host) (path : Text) : Except FileFault Place :=
  t.follow h path (namesOf path)

def isFile (t : FileTree) (h : Host) (path : Text) : Bool :=
  match t.locate h path with
  | .ok (.file _) => true
  | _ => false

def read (t : FileTree) (h : Host) (path : Text) : Except FileFault Text := do
  match ← t.locate h path with
  | .file p =>
    match h.unreadable p, t.find? p with
    | some fault, _ => .error fault
    | none, some (some text) => .ok text
    | none, some none => .error .notText
    | none, none => .error .notFound
  | .device d => d.gives
  | .directory => .error .isDirectory
  | .vacant _ => .error .notFound

def put (path : Path) (text : Option Text) :
    List (Path × Option Text) → List (Path × Option Text)
  | [] => [(path, text)]
  | f :: fs => if f.1 == path then (path, text) :: fs else f :: put path text fs

/-- The tree in which the text stands at the path, in place of the one that stood there. -/
def putting (t : FileTree) (path : Path) (text : Option Text) : FileTree := ⟨put path text t.files⟩

end FileTree

/-- What writing brings about: the files after it, what reached the standard output and the
standard error, and why it failed if it did. -/
structure Delivery where
  tree : FileTree
  stdout : Text := []
  stderr : Text := []
  fault : Option FileFault := none
  deriving DecidableEq, Repr, Inhabited

namespace FileTree

def failing (t : FileTree) (fault : FileFault) : Delivery := { tree := t, fault := some fault }

/-- The text goes to a file, which takes all of it or the first bytes, or through a device. -/
def deliver (t : FileTree) (h : Host) (text : Text) : Place → Delivery
  | .file p | .vacant p =>
    match h.fate p with
    | .written => { tree := t.putting p (some text) }
    | .refused fault => t.failing fault
    | .cut bytes fault =>
      if Text.utf8Length text ≤ bytes then { tree := t.putting p (some text) }
      else (t.putting p (Text.takeBytes? bytes text)).failing fault
  | .device d =>
    match d.takes with
    | .ok .nowhere => { tree := t }
    | .ok .standardOutput => { tree := t, stdout := text }
    | .ok .standardError => { tree := t, stderr := text }
    | .error fault => t.failing fault
  | .directory => t.failing .isDirectory

/-- The path without the slashes at its end. -/
def stem (path : Text) : Text := (path.reverse.dropWhile (· == '/')).reverse

/-- A text is written to what the path leads to. A path that ends in a slash is that of a
directory. -/
def write (t : FileTree) (h : Host) (path text : Text) : Delivery :=
  match t.follow h path (namesOf (stem path)) with
  | .error fault => t.failing fault
  | .ok place =>
    if path.getLast? = some '/' then t.failing .isDirectory else t.deliver h text place

end FileTree

end TableDialects.Command
