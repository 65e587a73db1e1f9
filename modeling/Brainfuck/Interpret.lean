import Brainfuck.Compile
import Brainfuck.Machine.Run

/-! # Interpreting source text

A source text is compiled and run once on given input. Hosts that can only pass bytes and take
a number back use the embedded form.
-/

namespace Brainfuck

structure Interpretation where
  /-- What was written, also if the program failed later. -/
  output : List UInt8 := []
  error? : Option ProgramError := none

def Run.interpretation (r : Run) : Interpretation where
  output := r.machine.streams.output
  error? := r.error?.map .run

def interpret (bound : Nat) (code : String) (input : List UInt8) : Option Interpretation :=
  match compile code with
  | .error e => some { error? := some (.compile e) }
  | .ok c => (c.program.run false bound (.start input)).map Run.interpretation

namespace Embedded

inductive Status where
  | noText
  | mismatch
  | failed
  | finished
  deriving DecidableEq

def Status.toInt : Status → Int
  | noText => -1
  | mismatch => 1
  | failed => 2
  | finished => 0

/-- The text in a buffer, up to its first zero byte, if there is a buffer and this is UTF-8. -/
def text? (buffer? : Option (List UInt8)) : Option String :=
  buffer?.bind fun buffer => String.fromUTF8? ⟨(buffer.takeWhile (· ≠ 0)).toArray⟩

/-- Compiles and runs the text in a buffer; any flag but zero flushes after every byte. -/
def call (bound : Nat) (buffer? : Option (List UInt8)) (flag : UInt8) (input : List UInt8) :
    Option (Status × List UInt8) :=
  match text? buffer? with
  | none => some (.noText, [])
  | some code =>
    match compile code with
    | .error _ => some (.mismatch, [])
    | .ok c =>
      (c.program.run (flag ≠ 0) bound (.start input)).map fun r =>
        (if r.error?.isNone then .finished else .failed, r.machine.streams.output)

end Embedded

end Brainfuck
