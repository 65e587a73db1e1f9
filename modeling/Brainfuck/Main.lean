import Brainfuck.Command.Report

/-! # The executable

The outer layer of the command: it reads the file, feeds standard input to the machine byte by
byte, carries the recorded calls out on standard output, and measures the time.
-/

namespace Brainfuck.Command

def readErrorOf : IO.Error → ReadError
  | .noFileOrDirectory .. => .notFound
  | .inappropriateType _ code details | .invalidArgument _ code details
  | .permissionDenied _ code details | .resourceExhausted _ code details =>
    .other (details ++ " (os error " ++ code.toNat.repr ++ ")")
  | e => .other e.toString

def readContents (file : String) : IO (Except ReadError (List UInt8)) := do
  try
    let handle ← IO.FS.Handle.mk file .read
    return .ok (← handle.readBinToEnd).data.toList
  catch e =>
    return .error (readErrorOf e)

/-- At most `n` bytes of the input, fewer only at its end. -/
def supply (input : IO.FS.Stream) : Nat → IO (List ReadEvent)
  | 0 => return []
  | n + 1 => do
    match (← input.read 1).data.toList with
    | [] => return []
    | b :: _ => return .byte b :: (← supply input n)

def carryOut (output : IO.FS.Stream) : Call → IO Unit
  | .write byte .accept => output.write ⟨#[byte]⟩
  | .flush .done => output.flush
  | _ => return ()

def demand (i : Instr) : Nat :=
  if i.opcode = .read then repetitions i.value else 0

/-- Runs a program from where the machine stands, on the given streams. -/
partial def drive (input output : IO.FS.Stream) (p : Program) (flushEach : Bool) (m : Machine) :
    IO (Option RunError) := do
  match m.fetch? p with
  | none => return none
  | some i =>
    let events ← supply input (demand i)
    let ⟨m, error?⟩ := { m with streams := { input := events } }.step flushEach i
    m.streams.calls.forM (carryOut output)
    match error? with
    | some e => return some e
    | none => drive input output p flushEach m

def runOnStreams (p : Program) (flushEach : Bool) : IO (Option RunError) := do
  let input ← IO.getStdin
  let output ← IO.getStdout
  try
    let error? ← drive input output p flushEach {}
    output.flush
    return error?
  catch e =>
    return some (.stream ⟨.other, e.toString⟩)

def execute (args : List String) : IO Report := do
  match checkedOptions args with
  | .error r => return r
  | .ok o =>
    match programToRun o (← readContents o.file) with
    | .error r => return r
    | .ok program =>
      let start ← IO.monoNanosNow
      let error? ← runOnStreams program (o.has .flush)
      let stop ← IO.monoNanosNow
      return runReport o (millisText (stop - start)) [] error?

end Brainfuck.Command

def main (args : List String) : IO UInt32 := do
  let r ← Brainfuck.Command.execute args
  let output ← IO.getStdout
  output.write ⟨r.stdout.toArray⟩
  output.flush
  (← IO.getStderr).putStr r.stderr
  return r.exitCode.toUInt32
