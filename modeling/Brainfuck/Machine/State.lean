import Brainfuck.Instr
import Brainfuck.Machine.Tape
import Brainfuck.Streams

/-! # What instructions do

Apart from jumps, what an instruction does depends only on the tape, the current cell and the
streams. An instruction that fails changes nothing, with two exceptions: a scan stops at the
end of the tape, and a repeated read or write keeps what it had done.
-/

namespace Brainfuck

structure State where
  tape : Tape := .blank
  /-- The current cell. -/
  dp : Cell := .first
  streams : Streams := {}

inductive Fault where
  /-- No cell of the tape has the address `target`. -/
  | outOfRange (target : Int64)
  | stream (e : StreamError)
  deriving DecidableEq

structure Outcome (σ ε : Type) where
  state : σ
  error? : Option ε := none

/-- Adding a word to a byte adds the low byte of the word. -/
def lowByte (n : Int64) : UInt8 :=
  n.toUInt64.toUInt8

/-- How often an instruction with this value is repeated; never, if it is negative. -/
def repetitions (n : Int64) : Nat :=
  n.toInt.toNat

namespace State

def cell (s : State) : UInt8 :=
  s.tape.peek s.dp

/-- Carries out an instruction; a jump changes nothing here. -/
def exec (flushEach : Bool) (i : Instr) : State → Outcome State Fault
  | ⟨tape, dp, streams⟩ =>
    match i.opcode with
    | .add => { state := ⟨tape.poke dp (tape.peek dp + lowByte i.value), dp, streams⟩ }
    | .move =>
      let target := dp.toWord + i.value
      match Cell.ofWord? target with
      | some c => { state := ⟨tape, c, streams⟩ }
      | none => ⟨⟨tape, dp, streams⟩, some (.outOfRange target)⟩
    | .read =>
      let (error?, b, streams) := streams.readMany (repetitions i.value) (tape.peek dp)
      ⟨⟨tape.poke dp b, dp, streams⟩, error?.map .stream⟩
    | .write =>
      let (error?, streams) := streams.putMany flushEach (tape.peek dp) (repetitions i.value)
      ⟨⟨tape, dp, streams⟩, error?.map .stream⟩
    | .jumpIfZero | .jumpUnlessZero => { state := ⟨tape, dp, streams⟩ }
    | .clear => { state := ⟨tape.poke dp 0, dp, streams⟩ }
    | .scanLeft =>
      match tape.zeroLeft? dp with
      | some c => { state := ⟨tape, c, streams⟩ }
      | none => ⟨⟨tape, .first, streams⟩, some (.outOfRange (Cell.first.toWord - 1))⟩
    | .scanRight =>
      match tape.zeroRight? dp with
      | some c => { state := ⟨tape, c, streams⟩ }
      | none => ⟨⟨tape, .last, streams⟩, some (.outOfRange (Cell.last.toWord + 1))⟩
    | .multiply =>
      let count := tape.peek dp
      if count = 0 then { state := ⟨tape, dp, streams⟩ }
      else
        let target := dp.toWord + i.offset
        match Cell.ofWord? target with
        | some c =>
          { state := ⟨tape.poke c (tape.peek c + count * lowByte i.value), dp, streams⟩ }
        | none => ⟨⟨tape, dp, streams⟩, some (.outOfRange target)⟩

end State

end Brainfuck
