import Brainfuck.Machine.State

/-! # Single instructions

What each instruction leaves behind, by its opcode and by where it leads.
-/

namespace Brainfuck

namespace State

variable {i : Instr} {s : State} {c : Cell}

theorem ext_of_peek {s s' : State} (hdp : s.dp = s'.dp) (hs : s.streams = s'.streams)
    (ht : ∀ d : Cell, s.tape.peek d = s'.tape.peek d) : s = s' := by
  obtain ⟨tape, dp, streams⟩ := s
  obtain ⟨tape', dp', streams'⟩ := s'
  cases hdp
  cases hs
  have htape : tape = tape' := Tape.ext_of_peek ht
  rw [htape]

theorem cell_poke (s : State) (c : Cell) (b : UInt8) :
    cell { s with tape := s.tape.poke c b } = if s.dp = c then b else s.cell :=
  Tape.peek_poke ..

theorem exec_add (hi : i.opcode = .add) (flushEach : Bool) (s : State) :
    s.exec flushEach i =
      ⟨{ s with tape := s.tape.poke s.dp (s.tape.peek s.dp + lowByte i.value) }, none⟩ := by
  simp [exec, hi]

theorem exec_move_of_some (hi : i.opcode = .move) (flushEach : Bool)
    (h : Cell.ofWord? (s.dp.toWord + i.value) = some c) :
    s.exec flushEach i = ⟨{ s with dp := c }, none⟩ := by
  simp [exec, hi, h]

theorem exec_move_of_none (hi : i.opcode = .move) (flushEach : Bool)
    (h : Cell.ofWord? (s.dp.toWord + i.value) = none) :
    s.exec flushEach i = ⟨s, some (.outOfRange (s.dp.toWord + i.value))⟩ := by
  simp [exec, hi, h]

theorem exec_clear (flushEach : Bool) (s : State) :
    s.exec flushEach .clear = ⟨{ s with tape := s.tape.poke s.dp 0 }, none⟩ := rfl

variable {o : Int64}

theorem exec_multiply_of_zero (flushEach : Bool) (hc : s.cell = 0) (o f : Int64) :
    s.exec flushEach (.multiply o f) = ⟨s, none⟩ := by
  unfold cell at hc
  simp [exec, Instr.multiply, hc]

theorem exec_multiply_of_some (flushEach : Bool) (hc : s.cell ≠ 0)
    (h : Cell.ofWord? (s.dp.toWord + o) = some c) (f : Int64) :
    s.exec flushEach (.multiply o f) =
      ⟨{ s with tape := s.tape.poke c (s.tape.peek c + s.cell * lowByte f) }, none⟩ := by
  unfold cell at hc
  simp [exec, Instr.multiply, hc, h, cell]

theorem exec_multiply_of_none (flushEach : Bool) (hc : s.cell ≠ 0)
    (h : Cell.ofWord? (s.dp.toWord + o) = none) (f : Int64) :
    s.exec flushEach (.multiply o f) = ⟨s, some (.outOfRange (s.dp.toWord + o))⟩ := by
  unfold cell at hc
  simp [exec, Instr.multiply, hc, h]

/-- An instruction addresses a cell that is not on the tape: how it leaves the state, and the
address. A move and a multiplication leave it as it is. A scan ends on the last cell before the end
of the tape that it runs into, after cells that are not zero. -/
inductive OffTape (i : Instr) (s : State) : State → Int64 → Prop where

  | move : i.opcode = .move → Cell.ofWord? (s.dp.toWord + i.value) = none →
      OffTape i s s (s.dp.toWord + i.value)

  | scanLeft : i.opcode = .scanLeft → (∀ d ≤ s.dp, s.tape.peek d ≠ 0) →
      OffTape i s { s with dp := .first } (-1)

  | scanRight : i.opcode = .scanRight → (∀ d ≥ s.dp, s.tape.peek d ≠ 0) →
      OffTape i s { s with dp := .last } 30000

  | multiply : i.opcode = .multiply → s.cell ≠ 0 → Cell.ofWord? (s.dp.toWord + i.offset) = none →
      OffTape i s s (s.dp.toWord + i.offset)

variable {s' : State} {t : Int64}

theorem exec_outOfRange_iff (flushEach : Bool) :
    s.exec flushEach i = ⟨s', some (.outOfRange t)⟩ ↔ OffTape i s s' t := by
  obtain ⟨tape, dp, streams⟩ := s
  constructor
  · intro h
    cases hi : i.opcode with
    | move =>
      simp only [exec, hi] at h
      split at h
      · cases h
      · rename_i hn
        cases h
        exact .move hi hn
    | scanLeft =>
      simp only [exec, hi] at h
      split at h
      · cases h
      · rename_i hn
        cases h
        exact .scanLeft hi (Tape.zeroLeft?_eq_none_iff.1 hn)
    | scanRight =>
      simp only [exec, hi] at h
      split at h
      · cases h
      · rename_i hn
        cases h
        exact .scanRight hi (Tape.zeroRight?_eq_none_iff.1 hn)
    | multiply =>
      simp only [exec, hi] at h
      split at h
      · cases h
      · rename_i hc
        split at h
        · cases h
        · rename_i hn
          cases h
          exact .multiply hi hc hn
    | _ => simp [exec, hi] at h
  · intro h
    cases h with
    | move hi hn => exact exec_move_of_none hi flushEach hn
    | scanLeft hi hall => simp [exec, hi, Tape.zeroLeft?_eq_none_iff.2 hall]; rfl
    | scanRight hi hall => simp [exec, hi, Tape.zeroRight?_eq_none_iff.2 hall]; rfl
    | multiply hi hc hn =>
      unfold cell at hc
      simp [exec, hi, hc, hn]

end State

end Brainfuck
