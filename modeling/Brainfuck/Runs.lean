import Brainfuck.Instr
import Brainfuck.Source

/-! # Programs from runs of operators

Every maximal run of one operator becomes one instruction that carries the length of the run.
Brackets are the exception: each becomes an instruction of its own, whose target is still
open. A byte that is no operator yields nothing, and ends the run before it.
-/

namespace Brainfuck

/-- The instructions for `n` occurrences of an operator in a row. -/
def Operator.instrs (n : Nat) : Operator → List Instr
  | increment => [{ opcode := .add, value := .ofNat n }]
  | decrement => [{ opcode := .add, value := -.ofNat n }]
  | left => [{ opcode := .move, value := -.ofNat n }]
  | right => [{ opcode := .move, value := .ofNat n }]
  | write => [{ opcode := .write, value := .ofNat n }]
  | read => [{ opcode := .read, value := .ofNat n }]
  | loopStart => List.replicate n { opcode := .jumpIfZero }
  | loopEnd => List.replicate n { opcode := .jumpUnlessZero }

def runInstrs : List UInt8 → List Instr
  | [] => []
  | b :: rest =>
    match Operator.ofByte? b with
    | none => []
    | some op => op.instrs (rest.length + 1)

/-- The program of a byte sequence, with its jumps not yet linked. -/
def Program.ofBytes (bytes : List UInt8) : Program :=
  ((bytes.splitBy (· == ·)).flatMap runInstrs).toArray

end Brainfuck
