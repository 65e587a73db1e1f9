import Brainfuck.Command.Path

/-! # Reading files

A file tree as data, for commands that run on given files. A path is followed name by name, and
every name on the way has to lead out of a folder. Folders and files are made along paths by the
same rule, so a path to one of them need not be the path that made it.
-/

namespace Brainfuck.Command

inductive ReadError where
  | notFound
  | other (text : String)
  deriving DecidableEq

namespace ReadError

def isFolder : ReadError :=
  .other "Is a directory (os error 21)"

def notFolder : ReadError :=
  .other "Not a directory (os error 20)"

def nameTooLong : ReadError :=
  .other "File name too long (os error 36)"

def invalidText : ReadError :=
  .other "stream did not contain valid UTF-8"

end ReadError

/-- The names that lead to a place: down from the working folder, from a folder so many steps
above it, or from the root. -/
structure Place where
  /-- The names are counted from the root, not from the working folder. -/
  absolute : Bool := false
  above : Nat := 0
  names : List String := []
  deriving DecidableEq

namespace Place

def start (path : String) : Place where
  absolute := path.startsWith "/"

/-- The folder above a place; the root has none. -/
def up (p : Place) : Place :=
  if !p.names.isEmpty then { p with names := p.names.dropLast }
  else if p.absolute then p
  else { p with above := p.above + 1 }

def follow (p : Place) (name : String) : Place :=
  if Path.isHere name then p
  else if name = ".." then p.up
  else { p with names := p.names ++ [name] }

end Place

inductive Entry where
  | folder
  | file (contents : List UInt8)

/-- Entries by their places; of two at one place the first counts. -/
structure FileTree where
  entries : List (Place × Entry) := []

namespace FileTree

/-- What is at a place. The working folder, the folders above it and the root are there from the
start. -/
def find? (t : FileTree) (p : Place) : Option Entry :=
  if p.names.isEmpty then some .folder else t.entries.lookup p

def put (t : FileTree) (p : Place) (e : Entry) : FileTree :=
  ⟨(p, e) :: t.entries⟩

/-- Makes a folder at every place on the way, and gives the last one. -/
def makeFolders (t : FileTree) (p : Place) : List String → FileTree × Place
  | [] => (t, p)
  | name :: names => (t.put (p.follow name) .folder).makeFolders (p.follow name) names

def addFolder (t : FileTree) (path : String) : FileTree :=
  (t.makeFolders (.start path) (Path.names path)).1

/-- Makes a file, and the folders on the way to it. -/
def addFile (t : FileTree) (path : String) (contents : List UInt8) : FileTree :=
  let names := Path.names path
  let (t, folder) := t.makeFolders (.start path) names.dropLast
  t.put (folder.follow (names.getLastD "")) (.file contents)

/-- The longest name, in bytes, that a folder can hold. -/
def maxName : Nat := 255

/-- The longest path, in bytes, that can be followed. -/
def maxPath : Nat := 4095

def enter (t : FileTree) (p : Place) (name : String) : Except ReadError Place :=
  match t.find? p with
  | some (.file _) => .error .notFolder
  | none => .error .notFound
  | some .folder =>
    if maxName < name.utf8ByteSize then .error .nameTooLong
    else if (t.find? (p.follow name)).isNone then .error .notFound
    else .ok (p.follow name)

def read (t : FileTree) (path : String) : Except ReadError (List UInt8) :=
  if path = "" then .error .notFound
  else if maxPath < path.utf8ByteSize then .error .nameTooLong
  else
    match (Path.names path).foldlM t.enter (.start path) with
    | .error e => .error e
    | .ok p =>
      match t.find? p with
      | some (.file contents) => .ok contents
      | some .folder => .error .isFolder
      | none => .error .notFound

end FileTree

end Brainfuck.Command
