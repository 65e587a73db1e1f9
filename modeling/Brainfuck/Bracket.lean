/-! # Brackets and their matching

Square brackets delimit loops, in source text and in programs alike. One scan from left to
right matches them: a closing bracket takes the innermost opening bracket that still waits,
or is a stray if none does.
-/

namespace Brainfuck

inductive Bracket where
  | opening
  | closing
  deriving DecidableEq

namespace Bracket

def toChar : Bracket → Char
  | opening => '['
  | closing => ']'

end Bracket

structure Matching where
  /-- Positions of the matched pairs, the latest first. -/
  pairs : List (Nat × Nat) := []
  /-- Positions of the opening brackets that wait for a partner, the innermost first. -/
  waiting : List Nat := []
  /-- Positions of the closing brackets without a partner, the latest first. -/
  strays : List Nat := []

namespace Matching

def step (m : Matching) : Option Bracket × Nat → Matching
  | (none, _) => m
  | (some .opening, i) => { m with waiting := i :: m.waiting }
  | (some .closing, i) =>
    match m.waiting with
    | [] => { m with strays := i :: m.strays }
    | o :: rest => { m with pairs := (o, i) :: m.pairs, waiting := rest }

/-- The matching of a sequence of symbols, each given by the bracket that it is, if any. -/
def ofList (symbols : List (Option Bracket)) : Matching :=
  symbols.zipIdx.foldl step {}

end Matching

end Brainfuck
