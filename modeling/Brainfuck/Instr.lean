import Brainfuck.Bracket

/-! # Instructions

A program is an array of instructions for a machine with one tape of byte cells and one cell
pointer. Every instruction carries two 64-bit words, and its opcode says which of them it
uses; arithmetic on the words wraps.
-/

namespace Brainfuck

inductive Opcode where
  /-- Adds the value to the current cell. -/
  | add
  /-- Moves the cell pointer by the value. -/
  | move
  /-- Reads as many bytes as the value says into the current cell, one after the other. -/
  | read
  /-- Writes the current cell as often as the value says. -/
  | write
  /-- Jumps to the value if the current cell is zero; begins a loop. -/
  | jumpIfZero
  /-- Jumps to the value unless the current cell is zero; ends a loop. -/
  | jumpUnlessZero
  /-- Sets the current cell to zero. -/
  | clear
  /-- Moves left to the nearest zero cell. -/
  | scanLeft
  /-- Moves right to the nearest zero cell. -/
  | scanRight
  /-- Adds the current cell times the value to the cell at the offset. -/
  | multiply
  deriving DecidableEq

namespace Opcode

def bracket? : Opcode → Option Bracket
  | jumpIfZero => some .opening
  | jumpUnlessZero => some .closing
  | _ => none

/-- Adding and moving are all that a foldable loop body may do. -/
def isStraight : Opcode → Bool
  | add | move => true
  | _ => false

end Opcode

/-- An opcode with its words, which it carries whether it uses them or not. -/
structure Instr where
  opcode : Opcode
  value : Int64 := 0
  offset : Int64 := 0
  deriving DecidableEq

namespace Instr

/-- Adds `factor` times the current cell to the cell at `offset` from it. -/
def multiply (offset factor : Int64) : Instr where
  opcode := .multiply
  value := factor
  offset := offset

def clear : Instr where
  opcode := .clear

def bracket? (i : Instr) : Option Bracket :=
  i.opcode.bracket?

def isJump (i : Instr) : Bool :=
  i.bracket?.isSome

def isStraight (i : Instr) : Bool :=
  i.opcode.isStraight

end Instr

abbrev Program := Array Instr

end Brainfuck
