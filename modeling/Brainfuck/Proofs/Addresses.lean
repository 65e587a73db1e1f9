import Brainfuck.Proofs.Control
import Brainfuck.Proofs.Instructions
import Brainfuck.Proofs.Reachability
import Brainfuck.Proofs.Words

/-! # Exact addresses

Addresses are computed in words, whose arithmetic wraps, but an instruction goes where exact
integers say: the sum of a cell and a word wraps only far off the tape. An error of a run names the
instruction that it stopped at and an address that is not on the tape.
-/

namespace Brainfuck

/-- An instruction goes to the cell at the integer address `a`: it is completed if and only if there
is such a cell, and then it leaves the machine that `after` says. -/
def Outcome.Addresses (out : Outcome Machine RunError) (a : Int) (after : Cell → Machine) : Prop :=
  (out.error? = none ↔ OnTape a) ∧ ∀ c : Cell, (c.val : Int) = a → out = ⟨after c, none⟩

theorem Outcome.addresses_of_ofWord? {out : Outcome Machine RunError} {after : Cell → Machine}
    {c : Cell} {v : Int64} (hs : ∀ d, Cell.ofWord? (c.toWord + v) = some d → out = ⟨after d, none⟩)
    (hn : Cell.ofWord? (c.toWord + v) = none → out.error? ≠ none) :
    out.Addresses (c.val + v.toInt) after := by
  cases h : Cell.ofWord? (c.toWord + v) with
  | none =>
    have hoff := Cell.ofWord?_add_eq_none_iff.1 h
    refine ⟨iff_of_false (hn h) hoff, fun d hd => ?_⟩
    rw [← hd] at hoff
    exact (hoff d.onTape).elim
  | some d =>
    have hd := Cell.ofWord?_add_eq_some_iff_toInt.1 h
    have hout := hs d h
    constructor
    · rw [hout, hd]
      exact iff_of_true rfl d.onTape
    · intro d' hd'
      obtain rfl : d' = d := Fin.ext (by omega)
      exact hout

namespace Machine

variable {i : Instr} {m m' : Machine} {flushEach : Bool} {ip : UInt64} {t : Int64}

theorem step_move_addresses (hi : i.opcode = .move) (flushEach : Bool) (m : Machine) :
    (m.step flushEach i).Addresses (m.dp.val + i.value.toInt) fun c =>
      { m with dp := c, ip := m.ip + 1 } := by
  obtain ⟨s, ip⟩ := m
  have hj : ¬ i.Jumps s.cell := Instr.not_jumps_of_bracket?_eq_none (by
    simp [Instr.bracket?, hi, Opcode.bracket?]) _
  apply Outcome.addresses_of_ofWord?
  · intro c hc
    exact step_of_exec hj (State.exec_move_of_some hi flushEach hc) ip
  · intro hn
    rw [step_fault (State.exec_move_of_none hi flushEach hn) ip]
    exact Option.some_ne_none _

theorem step_multiply_addresses (hi : i.opcode = .multiply) (flushEach : Bool) {m : Machine}
    (hc : m.cell ≠ 0) :
    (m.step flushEach i).Addresses (m.dp.val + i.offset.toInt) fun c =>
      { m with
        tape := m.tape.poke c (m.tape.peek c + m.cell * lowByte i.value), ip := m.ip + 1 } := by
  obtain ⟨s, ip⟩ := m
  obtain ⟨opcode, v, o⟩ := i
  cases hi
  apply Outcome.addresses_of_ofWord?
  · intro c hw
    have hj : ¬ Instr.Jumps ⟨.multiply, v, o⟩ s.cell :=
      Instr.not_jumps_of_bracket?_eq_none rfl _
    exact step_of_exec hj (State.exec_multiply_of_some flushEach hc hw v) ip
  · intro hn
    have hf := step_fault (State.exec_multiply_of_none flushEach hc hn v) ip
    rw [Instr.multiply] at hf
    rw [hf]
    exact Option.some_ne_none _

theorem offTape_of_step (h : m.step flushEach i = ⟨m', some (.outOfRange ip t)⟩) :
    ∃ s, State.OffTape i m.toState s t ∧ m' = ⟨s, m.ip⟩ ∧ ip = m.ip := by
  obtain ⟨s, ip'⟩ := m
  simp only [step] at h
  split at h
  · cases h
  · rename_i s' fault he
    cases fault with
    | outOfRange target =>
      cases h
      exact ⟨s', (State.exec_outOfRange_iff flushEach).1 he, rfl, rfl⟩
    | stream e => cases h

end Machine

namespace State.OffTape

variable {i : Instr} {s s' : State} {t : Int64}

theorem not_onTape (h : OffTape i s s' t) : ¬ OnTape t.toInt := by
  cases h with
  | move _ hn => exact Cell.ofWord?_eq_none_iff.1 hn
  | scanLeft => exact fun h => absurd h.1 (by decide)
  | scanRight => exact fun h => absurd h.2 (by decide)
  | multiply _ _ hn => exact Cell.ofWord?_eq_none_iff.1 hn

theorem opcode_mem (h : OffTape i s s' t) :
    i.opcode ∈ [Opcode.move, .scanLeft, .scanRight, .multiply] := by
  cases h with
  | move hi => simp [hi]
  | scanLeft hi => simp [hi]
  | scanRight hi => simp [hi]
  | multiply hi => simp [hi]

end State.OffTape

/-- A run that leaves the tape has come to an instruction that does. It ends on that instruction,
and has flushed the writer after it. -/
theorem Program.Ends.exists_offTape {p : Program} {flushEach : Bool} {m : Machine} {r : Run}
    {ip : UInt64} {t : Int64} (h : p.Ends flushEach m r)
    (he : r.error? = some (.outOfRange ip t)) :
    ∃ m₁ i s, p.Steps flushEach m m₁ ∧ m₁.fetch? p = some i ∧ State.OffTape i m₁.toState s t ∧
      r.machine = Machine.flush ⟨s, m₁.ip⟩ ∧ ip = m₁.ip := by
  obtain ⟨m₁, m₂, e?, n, hs, hst, rfl⟩ := h.exists_stops
  cases hst with
  | finished =>
    -- The final flush fails with an error of the stream, if at all.
    rw [Run.finish_error?] at he
    simp at he
  | @failed i _ e hf hstep =>
    cases he
    obtain ⟨s, ho, rfl, rfl⟩ := Machine.offTape_of_step hstep
    exact ⟨m₁, i, s, hs, hf, ho, rfl, rfl⟩

/-- In every state of a machine, and so in all that are reached, moves and multiplications go to the
exact address or fail, and a run from there that leaves the tape says truly which instruction did
so. -/
theorem addresses_are_exact (p : Program) (flushEach : Bool) (m : Machine) :
    m.tape.toList.length = 30000 ∧ m.dp.val < 30000 ∧
      (m.fetch? p = none ↔ p.size ≤ m.ip.toNat) ∧
    (∀ i, m.fetch? p = some i → i.opcode = .move →
      (m.step flushEach i).Addresses (m.dp.val + i.value.toInt) fun c =>
        { m with dp := c, ip := m.ip + 1 }) ∧
    (∀ i, m.fetch? p = some i → i.opcode = .multiply → m.cell ≠ 0 →
      (m.step flushEach i).Addresses (m.dp.val + i.offset.toInt) fun c =>
        { m with
          tape := m.tape.poke c (m.tape.peek c + m.cell * lowByte i.value), ip := m.ip + 1 }) ∧
    ∀ r ip t, p.Ends flushEach m r → r.error? = some (.outOfRange ip t) →
      ¬ OnTape t.toInt ∧ ip = r.machine.ip ∧ ip.toNat < p.size ∧
        ∃ i, p[ip.toNat]? = some i ∧
          i.opcode ∈ [Opcode.move, .scanLeft, .scanRight, .multiply] := by
  refine ⟨Vector.length_toList, m.dp.isLt, Array.getElem?_eq_none_iff, ?_, ?_, ?_⟩
  · intro i _ hi
    exact Machine.step_move_addresses hi flushEach m
  · intro i _ hi hc
    exact Machine.step_multiply_addresses hi flushEach hc
  · intro r ip t hr he
    obtain ⟨m₁, i, s, -, hf, ho, hm, rfl⟩ := hr.exists_offTape he
    refine ⟨ho.not_onTape, ?_, (Array.getElem?_eq_some_iff.1 hf).1, i, hf, ho.opcode_mem⟩
    rw [hm]
    rfl

/-- The last move wraps around to the least word, which is no address either. -/
theorem addresses_are_exact_wrapping :
    let p : Program := #[{ opcode := .move, value := 1 }, { opcode := .add, value := 1 },
      .multiply (-1) 7, { opcode := .move, value := Int64.maxValue }]
    let m : Machine := { tape := Tape.blank.poke 1 1, dp := 1, ip := 2 }
    (Machine.fetch? p {} = some { opcode := .move, value := 1 } ∧
      Outcome.Addresses (Machine.step false { opcode := .move, value := 1 } {}) 1 fun c =>
        { dp := c, ip := 1 }) ∧
    (m.fetch? p = some (.multiply (-1) 7) ∧ m.cell ≠ 0 ∧
      (m.step false (.multiply (-1) 7)).Addresses 0 fun c =>
        { m with
          tape := m.tape.poke c (m.tape.peek c + m.cell * lowByte 7), ip := 3 }) ∧
    ∃ r, p.Ends false {} r ∧ r.error? = some (.outOfRange 3 Int64.minValue) ∧
      ¬ OnTape Int64.minValue.toInt ∧ 3 = r.machine.ip := by
  intro p m
  obtain ⟨-, -, -, hmove, -, -⟩ := addresses_are_exact p false {}
  obtain ⟨-, -, -, -, hmul, -⟩ := addresses_are_exact p false m
  obtain ⟨-, -, -, -, -, hends⟩ := addresses_are_exact p false {}
  have hf : Machine.fetch? p {} = some { opcode := .move, value := 1 } := by decide
  have hf' : m.fetch? p = some (.multiply (-1) 7) := by decide
  have hc : m.cell ≠ 0 := by decide
  have hrun : (p.run false 10 {}).bind Run.error? = some (.outOfRange 3 Int64.minValue) := by
    decide
  obtain ⟨r, hr, he⟩ := Option.bind_eq_some_iff.1 hrun
  obtain ⟨hoff, hip, -⟩ := hends r 3 _ ⟨10, hr⟩ he
  exact ⟨⟨hf, hmove _ hf rfl⟩, ⟨hf', hc, hmul _ hf' rfl hc⟩, r, ⟨10, hr⟩, he, hoff, hip⟩

end Brainfuck
