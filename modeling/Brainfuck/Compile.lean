import Brainfuck.Event
import Brainfuck.Jumps
import Brainfuck.Loop.Sweep
import Brainfuck.Runs

/-! # Compilation

Compilation takes the operators of a source text, checks their brackets, turns runs into
instructions, folds loops and links the jumps. The plain variant leaves loops as they are.
-/

namespace Brainfuck

def Folding.events (f : Folding) : Array Event :=
  (f.folds.map fun fold => .foldedLoop fold.position fold.length).push (.foldingDone f.sweeps)

structure Compiled where
  program : Program
  events : Array Event := #[]

def compile (code : String) : Except BracketMismatch Compiled :=
  let bytes := operatorBytes code
  match mismatch? bytes with
  | some e => .error e
  | none =>
    let emitted := Program.ofBytes bytes
    let folding := emitted.foldLoops
    let program := folding.program.linkJumps
    .ok {
      program := program
      events := folding.events.push
        (.compiled code.utf8ByteSize bytes.length emitted.size program.size) }

/-- The program of a source with balanced brackets, with no loop folded. -/
def compilePlain (code : String) : Except BracketMismatch Compiled :=
  let bytes := operatorBytes code
  match mismatch? bytes with
  | some e => .error e
  | none => .ok { program := (Program.ofBytes bytes).linkJumps }

end Brainfuck
