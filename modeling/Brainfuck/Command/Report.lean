import Brainfuck.Command.Arguments
import Brainfuck.Command.Files
import Brainfuck.Interpret
import Brainfuck.Listing

/-! # The command

The command reads its arguments, reads and compiles the file that they name, and shows the
program or runs it. Whatever stops it on the way decides what it reports.
-/

namespace Brainfuck.Command

structure Report where
  exitCode : Nat
  stdout : List UInt8 := []
  stderr : String := ""

namespace Report

def ofText (text : String) : Report where
  exitCode := 0
  stdout := text.toUTF8.data.toList

def failure (line : String) (stdout : List UInt8 := []) : Report where
  exitCode := 1
  stdout := stdout
  stderr := line ++ "\n"

end Report

def usageLine : String :=
  "Usage: bfexec [OPTIONS] <FILE>"

def helpText : String :=
  "An optimizing brainfuck interpreter\n\n" ++
  usageLine ++ "\n\n" ++
  "Arguments:\n" ++
  "  <FILE>  Path to the Brainfuck program file to execute (.b or .bf)\n\n" ++
  "Options:\n" ++
  "  -t, --time         Report the execution time after the program finishes\n" ++
  "  -f, --flush        Flush stdout after each . instruction\n" ++
  "  -d, --dump         Print the compiled instructions instead of running them\n" ++
  "      --no-optimize  Skip the loop optimizations\n" ++
  "  -h, --help         Print help\n"

def Stop.report : Stop → Report
  | help => .ofText helpText
  | usage => { exitCode := 2, stderr := usageLine ++ "\n\nFor more information, try '--help'.\n" }

/-- The options, if they name a file that can hold a program. -/
def checkedOptions (args : List String) : Except Report Options :=
  match Options.ofArgs args with
  | .error stop => .error stop.report
  | .ok o =>
    match Path.extension? o.file with
    | some "b" | some "bf" => .ok o
    | _ => .error (.failure "Unrecognized file extension. Only use .b and .bf files.")

def readFailure (file : String) : ReadError → Report
  | .notFound => .failure ("File " ++ file ++ " does not exist.")
  | .other text => .failure (file ++ ": " ++ text)

def programToRun (o : Options) (contents : Except ReadError (List UInt8)) :
    Except Report Program :=
  match contents with
  | .error e => .error (readFailure o.file e)
  | .ok bytes =>
    match String.fromUTF8? ⟨bytes.toArray⟩ with
    | none => .error (readFailure o.file .invalidText)
    | some code =>
      match if o.has .noOptimize then compilePlain code else compile code with
      | .error e => .error (.failure e.message)
      | .ok c => if o.has .dump then .error (.ofText c.program.listing) else .ok c.program

/-- Nanoseconds as milliseconds, with four decimals. -/
def millisText (nanos : Nat) : String :=
  let units := (nanos + 50) / 100
  (units / 10000).repr ++ "." ++
    String.ofList ((units % 10000).repr.toList.leftpad 4 '0')

def timeReport (elapsed : String) : String :=
  "\n\nExecution Time: " ++ elapsed ++ "ms."

def runReport (o : Options) (elapsed : String) (output : List UInt8) :
    Option RunError → Report
  | some e => .failure e.message output
  | none =>
    { exitCode := 0
      stdout :=
        if o.has .time then output ++ (timeReport elapsed).toUTF8.data.toList else output }

def report (bound : Nat) (elapsed : String) (files : FileTree) (args : List String)
    (input : List UInt8) : Option Report :=
  match checkedOptions args with
  | .error r => some r
  | .ok o =>
    match programToRun o (files.read o.file) with
    | .error r => some r
    | .ok program =>
      (program.run (o.has .flush) bound (.start input)).map fun r =>
        runReport o elapsed r.machine.streams.output r.error?

end Brainfuck.Command
