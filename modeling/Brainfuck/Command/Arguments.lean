/-! # Command-line arguments

One argument names the file. Flags have a long name, some a letter too, and letters can be
joined behind one dash. Arguments are read from left to right, and the first that cannot be
accepted, or that asks for help, decides.
-/

namespace Brainfuck.Command

inductive Flag where
  | time
  | flush
  | dump
  | noOptimize
  deriving DecidableEq

inductive Switch where
  | help
  | flag (f : Flag)

inductive Stop where
  | help
  | usage
  deriving DecidableEq

def Switch.ofName? : String → Option Switch
  | "time" => some (.flag .time)
  | "flush" => some (.flag .flush)
  | "dump" => some (.flag .dump)
  | "no-optimize" => some (.flag .noOptimize)
  | "help" => some .help
  | _ => none

def Switch.ofLetter? : Char → Option Switch
  | 't' => some (.flag .time)
  | 'f' => some (.flag .flush)
  | 'd' => some (.flag .dump)
  | 'h' => some .help
  | _ => none

structure Arguments where
  file? : Option String := none
  flags : List Flag := []
  /-- Two dashes alone make file names of all arguments after them. -/
  onlyFiles : Bool := false

namespace Arguments

/-- There can be only one file. -/
def addFile (a : Arguments) (name : String) : Except Stop Arguments :=
  if a.file?.isSome then .error .usage else .ok { a with file? := some name }

/-- No flag can be given twice. -/
def addSwitch (a : Arguments) : Option Switch → Except Stop Arguments
  | none => .error .usage
  | some .help => .error .help
  | some (.flag f) => if f ∈ a.flags then .error .usage else .ok { a with flags := f :: a.flags }

/-- Reads one argument; a dash alone is a file name, and so is the empty argument. -/
def add (a : Arguments) (arg : String) : Except Stop Arguments :=
  if a.onlyFiles then a.addFile arg
  else
    match arg.toList with
    | ['-', '-'] => .ok { a with onlyFiles := true }
    | '-' :: '-' :: name => a.addSwitch (Switch.ofName? (.ofList name))
    | '-' :: c :: letters =>
      (c :: letters).foldlM (fun a letter => a.addSwitch (Switch.ofLetter? letter)) a
    | _ => a.addFile arg

end Arguments

structure Options where
  file : String
  flags : List Flag

def Options.has (o : Options) (f : Flag) : Bool :=
  decide (f ∈ o.flags)

def Options.ofArgs (args : List String) : Except Stop Options :=
  match args.foldlM Arguments.add {} with
  | .error stop => .error stop
  | .ok a =>
    match a.file? with
    | none => .error .usage
    | some file => .ok ⟨file, a.flags⟩

end Brainfuck.Command
