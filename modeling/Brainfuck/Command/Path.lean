/-! # Paths

A path is a sequence of names between slashes. An empty name and a single dot stand for the
place where they occur, and two dots for the folder above it.
-/

namespace Brainfuck.Command.Path

/-- The names between the slashes of a path, empty ones included. -/
def splitSlashes : List Char → List (List Char)
  | [] => [[]]
  | c :: rest =>
    match splitSlashes rest with
    | [] => [[c]]
    | name :: names => if c = '/' then [] :: name :: names else (c :: name) :: names

def names (path : String) : List String :=
  (splitSlashes path.toList).map .ofList

/-- A name that stands for the place where it occurs. -/
def isHere (name : String) : Bool :=
  name = "" || name = "."

/-- The part of a name after its last dot, unless the name begins with that dot. -/
def nameExtension? (name : String) : Option String :=
  let reversed := name.toList.reverse
  match reversed.dropWhile (· ≠ '.') with
  | _ :: _ :: _ => some (.ofList (reversed.takeWhile (· ≠ '.')).reverse)
  | _ => none

/-- The extension of the last name; the folder above has none. -/
def extension? (path : String) : Option String :=
  match ((names path).filter fun name => !isHere name).getLast? with
  | none => none
  | some name => if name = ".." then none else nameExtension? name

end Brainfuck.Command.Path
