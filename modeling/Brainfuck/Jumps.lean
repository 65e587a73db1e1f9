import Brainfuck.Instr

/-! # Linking jumps

The value of a jump is the index of its partner. Linking matches the brackets of a program and
sets these values; all else, an unmatched bracket too, stays as it is.
-/

namespace Brainfuck

def Instr.withValue (v : Int64) (i : Instr) : Instr :=
  { i with value := v }

namespace Program

def matching (p : Program) : Matching :=
  .ofList (p.toList.map Instr.bracket?)

/-- Points two jumps at each other. -/
def linkPair (p : Program) : Nat × Nat → Program
  | (i, j) => (p.modify i (.withValue (.ofNat j))).modify j (.withValue (.ofNat i))

def linkJumps (p : Program) : Program :=
  p.matching.pairs.foldl linkPair p

end Program

end Brainfuck
