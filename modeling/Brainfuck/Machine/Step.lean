import Brainfuck.Error

/-! # The machine

The machine executes a program one instruction at a time. An instruction that fails leaves the
instruction pointer on itself, so that it is executed again when the run goes on.
-/

namespace Brainfuck

structure Machine extends State where
  /-- The index of the next instruction; any word may be jumped to. -/
  ip : UInt64 := 0

/-- The index that the next instruction follows: the target of a jump that is taken, and
otherwise the index of the instruction itself. -/
def Instr.follows (i : Instr) (cell : UInt8) (ip : UInt64) : UInt64 :=
  match i.opcode with
  | .jumpIfZero => if cell = 0 then i.value.toUInt64 else ip
  | .jumpUnlessZero => if cell ≠ 0 then i.value.toUInt64 else ip
  | _ => ip

namespace Machine

def onStreams (streams : Streams) : Machine where
  streams := streams

def start (input : List UInt8) : Machine :=
  .onStreams (.ofBytes input)

def step (flushEach : Bool) (i : Instr) : Machine → Outcome Machine RunError
  | ⟨s, ip⟩ =>
    let next := i.follows s.cell ip + 1
    match s.exec flushEach i with
    | ⟨s, none⟩ => { state := ⟨s, next⟩ }
    | ⟨s, some fault⟩ => ⟨⟨s, ip⟩, some (.ofFault ip fault)⟩

def fetch? (p : Program) (m : Machine) : Option Instr :=
  p[m.ip.toNat]?

end Machine

end Brainfuck
