import Brainfuck.Machine.State
import Brainfuck.Source

/-! # Errors

A program fails while it is compiled or while it runs. A run fails where an instruction leaves
the tape or a stream does not do its work.
-/

namespace Brainfuck

inductive RunError where
  /-- The instruction at `ip` addressed the cell `target`, which is not on the tape. -/
  | outOfRange (ip : UInt64) (target : Int64)
  | stream (e : StreamError)
  deriving DecidableEq

def RunError.ofFault (ip : UInt64) : Fault → RunError
  | .outOfRange target => outOfRange ip target
  | .stream e => stream e

inductive ProgramError where
  | compile (e : BracketMismatch)
  | run (e : RunError)
  deriving DecidableEq

def RunError.message : RunError → String
  | outOfRange ip target =>
    "index out of range: instruction " ++ ip.toNat.repr ++ " addressed cell " ++
      target.toInt.repr
  | stream e => "stream error: " ++ e.text

def ProgramError.message : ProgramError → String
  | compile e => "compile error: " ++ e.message
  | run e => "runtime error: " ++ e.message

end Brainfuck
