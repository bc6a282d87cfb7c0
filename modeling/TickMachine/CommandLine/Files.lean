import TickMachine.Text.Blank
import TickMachine.Text.Utf8

/-! The files a command works on: the two operations it may use, and a directory held in memory that
provides them. -/

namespace TickMachine.CommandLine

inductive FileFault
  | notFound | notDirectory | isDirectory | nameTooLong | notText
  | other (message : String)
  deriving DecidableEq

def FileFault.message : FileFault → String
  | .notFound => "No such file or directory (os error 2)"
  | .notDirectory => "Not a directory (os error 20)"
  | .isDirectory => "Is a directory (os error 21)"
  | .nameTooLong => "File name too long (os error 36)"
  | .notText => "stream did not contain valid UTF-8"
  | .other message => message

structure Files (m : Type → Type) where
  read : String → m (Except FileFault String)
  write : String → String → m (Except FileFault Unit)

inductive Content
  | text (s : String)
  | binary (bytes : List UInt8)
  deriving DecidableEq

def Content.ofBytes (bytes : List UInt8) : Content :=
  match Text.decode? bytes with
  | some chars => .text (String.ofList chars)
  | none => .binary bytes

def Content.display : Content → String
  | .text s => s
  | .binary bytes => String.ofList (Text.decodeReplacing bytes)

abbrev Path := List String

inductive Place
  | inside (path : Path)
  | outside
  deriving DecidableEq

def Place.child (place : Place) (name : String) : Place :=
  if name = "." then place
  else match place with
    | .outside => .outside
    | .inside path =>
      if name = ".." then if path.isEmpty then .outside else .inside path.dropLast
      else .inside (path ++ [name])

/-- A path as text: where it begins, the names along it, and whether it is closed by a slash, as
only the path of a directory may be. -/
structure Route where
  start : Place
  names : List String
  isClosed : Bool

def route (text : String) : Route where
  start := if text.toList.head? = some '/' then .outside else .inside []
  names := ((Text.splitOn (· == '/') text.toList).map String.ofList).filter (· ≠ "")
  isClosed := text.toList.getLast? = some '/'

def maxNameBytes : Nat := 255

def maxPathBytes : Nat := 4095

inductive Found
  | directory
  | file (content : Content)
  | nothing

structure Directory where
  files : List (Path × Content)
  deriving DecidableEq

namespace Directory

def ofFiles (files : List (String × Content)) : Directory :=
  ⟨files.map fun (name, content) => ((route name).names, content)⟩

def isDirectory (d : Directory) (path : Path) : Bool :=
  path.isEmpty || d.files.any fun (other, _) => path.isPrefixOf other && path != other

def lookup (d : Directory) (path : Path) : Found :=
  match d.files.lookup path with
  | some content => .file content
  | none => if d.isDirectory path then .directory else .nothing

/-- What a name stands for in a place. Outside nothing is known to be there. -/
def find (d : Directory) (place : Place) (name : String) : Except FileFault Found :=
  if name = "." ∨ name = ".." then .ok .directory
  else if maxNameBytes < name.utf8ByteSize then .error .nameTooLong
  else match place with
    | .outside => .ok .nothing
    | .inside path => .ok (d.lookup (path ++ [name]))

def enter (d : Directory) (place : Place) (name : String) : Except FileFault Place := do
  match ← d.find place name with
  | .directory => return place.child name
  | .file _ => throw .notDirectory
  | .nothing => throw .notFound

def approach (d : Directory) (text : String) : Except FileFault (Place × String) :=
  if maxPathBytes < text.utf8ByteSize then .error .nameTooLong
  else
    let r := route text
    match r.names.getLast? with
    | none => if text = "" then .error .notFound else .ok (r.start, ".")
    | some name => do return (← r.names.dropLast.foldlM d.enter r.start, name)

def read (d : Directory) (name : String) : Except FileFault String := do
  let (place, last) ← d.approach name
  match ← d.find place last with
  | .directory => throw .isDirectory
  | .nothing => throw .notFound
  | .file content =>
    if (route name).isClosed then throw .notDirectory
    match content with
    | .text text => return text
    | .binary _ => throw .notText

def put (path : Path) (content : Content) : List (Path × Content) → List (Path × Content)
  | [] => [(path, content)]
  | (other, old) :: files =>
    if other = path then (path, content) :: files else (other, old) :: put path content files

def write (d : Directory) (name text : String) : Except FileFault Directory := do
  let (place, last) ← d.approach name
  if (route name).isClosed then throw .isDirectory
  match ← d.find place last, place with
  | .directory, _ => throw .isDirectory
  | _, .outside => return d
  | _, .inside path => return ⟨put (path ++ [last]) (.text text) d.files⟩

def access : Files (StateM Directory) where
  read name := do return (← get).read name
  write name text := do
    match (← get).write name text with
    | .ok d =>
      set d
      return .ok ()
    | .error fault => return .error fault

def topFiles (d : Directory) : List (String × Content) :=
  d.files.filterMap fun (path, content) =>
    match path with
    | [name] => some (name, content)
    | _ => none

end Directory
end TickMachine.CommandLine
