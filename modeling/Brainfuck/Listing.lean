import Brainfuck.Instr

/-! # Program listings

A listing shows a program with one instruction to the line: its index, right-aligned to the
width of the last index, two blanks, and the text of the instruction.
-/

namespace Brainfuck

def decimal (n : Int64) : String :=
  n.toInt.repr

/-- Decimal text that always has a sign. -/
def signedDecimal (n : Int64) : String :=
  if n < 0 then decimal n else "+" ++ decimal n

/-- The words that an opcode does not use are not shown. -/
def Instr.text (i : Instr) : String :=
  match i.opcode with
  | .add => "add " ++ decimal i.value
  | .move => "move " ++ decimal i.value
  | .read => "read " ++ decimal i.value
  | .write => "write " ++ decimal i.value
  | .jumpIfZero => "jz " ++ decimal i.value
  | .jumpUnlessZero => "jnz " ++ decimal i.value
  | .clear => "clear"
  | .scanLeft => "scan left"
  | .scanRight => "scan right"
  | .multiply => "mul [" ++ signedDecimal i.offset ++ "] " ++ decimal i.value

def rightAligned (width : Nat) (s : String) : String :=
  String.ofList (s.toList.leftpad width ' ')

namespace Program

/-- The width of the index column; an empty program has no line to show it. -/
def indexWidth (p : Program) : Nat :=
  (p.size - 1).repr.length

def listingLine (width : Nat) : Instr × Nat → String
  | (i, idx) => rightAligned width idx.repr ++ "  " ++ i.text ++ "\n"

def listing (p : Program) : String :=
  String.join (p.toList.zipIdx.map (listingLine p.indexWidth))

end Program

end Brainfuck
