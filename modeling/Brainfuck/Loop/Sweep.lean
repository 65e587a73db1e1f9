import Brainfuck.Loop.ClosedForm

/-! # Folding loops

A sweep copies a program from left to right and replaces every loop by its closed form as soon
as the loop closes. Folding repeats sweeps until one changes nothing. It ends because every
replacement is shorter than the loop.
-/

namespace Brainfuck

/-- A replaced loop, by the place and the number of the instructions that replace it. -/
structure Fold where
  position : Nat
  length : Nat
  deriving DecidableEq

structure Sweep where
  /-- The program so far. -/
  buffer : Program := #[]
  /-- Where in the buffer the loops begin that are still open, the innermost first. -/
  waiting : List Nat := []
  folds : Array Fold := #[]

namespace Sweep

/-- The closed form of the loop that begins at `start` and ends with the buffer. Its body is taken
out of the buffer only if it is straight, as nothing else has a closed form. -/
def closedFormFrom? (buffer : Program) (start : Nat) : Option (List Instr) :=
  if buffer.all Instr.isStraight (start + 1) then
    closedForm? (buffer.extract (start + 1)).toList
  else none

/-- Copies an instruction, or folds the loop that it closes. -/
def step : Sweep → Instr → Sweep
  | ⟨buffer, waiting, folds⟩, i =>
    match i.bracket? with
    | none => ⟨buffer.push i, waiting, folds⟩
    | some .opening =>
      let start := buffer.size
      ⟨buffer.push i, start :: waiting, folds⟩
    | some .closing =>
      match waiting with
      | [] => ⟨buffer.push i, [], folds⟩
      | start :: rest =>
        match closedFormFrom? buffer start with
        | none => ⟨buffer.push i, rest, folds⟩
        | some form =>
          ⟨buffer.shrink start ++ form.toArray, rest, folds.push ⟨start, form.length⟩⟩

def ofProgram (p : Program) : Sweep :=
  p.foldl step {}

/-- The length of the buffer and one for every fold. A step adds at most one to it, since a closed
form is shorter than its loop. -/
def used (s : Sweep) : Nat :=
  s.buffer.size + s.folds.size

theorem length_lt_of_closedFormFrom? {buffer : Program} {start : Nat} {form : List Instr}
    (h : closedFormFrom? buffer start = some form) : start + form.length < buffer.size := by
  unfold closedFormFrom? at h
  split at h
  · have hlen := length_le_of_closedForm? h
    have hne : buffer.extract (start + 1) ≠ #[] := by
      intro h0
      rw [h0] at h
      simp [closedForm?_nil] at h
    have := Array.size_pos_iff.2 hne
    simp only [Array.length_toList, Array.size_extract] at hlen this
    omega
  · cases h

theorem used_step_le (s : Sweep) (i : Instr) : (s.step i).used ≤ s.used + 1 := by
  fun_cases step s i with
  | case5 =>
    rename_i h _
    have := length_lt_of_closedFormFrom? h
    simp only [used, Array.size_append, Array.size_shrink, List.size_toArray, Array.size_push]
    omega
  | _ => simp [used]; omega

theorem used_foldl_le (is : List Instr) (s : Sweep) :
    (is.foldl step s).used ≤ s.used + is.length := by
  induction is generalizing s with
  | nil => exact Nat.le_refl _
  | cons i is ih =>
    have := used_step_le s i
    have := ih (s.step i)
    simp only [List.foldl_cons, List.length_cons]
    omega

theorem used_ofProgram_le (p : Program) : (ofProgram p).used ≤ p.size := by
  have := used_foldl_le p.toList {}
  rw [Array.foldl_toList] at this
  simpa [ofProgram, used] using this

end Sweep

structure Folding where
  program : Program
  folds : Array Fold
  sweeps : Nat

/-- Sweeps until nothing changes; the last sweep, which folds nothing, counts too. -/
def Program.foldLoops (p : Program) : Folding :=
  match hs : Sweep.ofProgram p with
  | ⟨buffer, _, folds⟩ =>
    if folds.size = 0 then ⟨buffer, #[], 1⟩
    else
      let rest := foldLoops buffer
      ⟨rest.program, folds ++ rest.folds, rest.sweeps + 1⟩
termination_by p.size
decreasing_by
  have := Sweep.used_ofProgram_le p
  simp only [hs, Sweep.used] at this
  omega

end Brainfuck
