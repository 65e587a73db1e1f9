import Brainfuck.Proofs.Answers
import Brainfuck.Proofs.Emission
import Brainfuck.Proofs.Instructions
import Brainfuck.Proofs.Reference
import Brainfuck.Proofs.Words

/-! # Batches of operators

The instruction for a run of an operator does what the operator does as often as the run is long.
A move checks only where it ends, and it ends off the tape if and only if some step leaves it. On
the streams, one operator does what one call of the machine does.
-/

namespace Brainfuck

/-- Ends of an instruction or a program and of its operators that are alike. Where the tape is
left, the cell pointers may differ. -/
inductive EndsAlike : State → Option Fault → State → Option Crash → Prop where

  | done (s : State) : EndsAlike s none s none

  | offTape {s s' : State} {target : Int64} : s.tape = s'.tape → s.streams = s'.streams →
      EndsAlike s (some (.outOfRange target)) s' (some .offTape)

  | stream (s : State) (e : StreamError) : EndsAlike s (some (.stream e)) s (some (.stream e))

theorem lowByte_ofNat (n : Nat) : lowByte (.ofNat n) = .ofNat n := by
  simp [lowByte]

theorem lowByte_neg (a : Int64) : lowByte (-a) = -lowByte a := by
  simp [lowByte]

/-! ## The calls of single operators -/

theorem ReadEvent.isInterruption_eq_isRetried : isInterruption = isRetried := by
  funext a
  cases a with
  | fail e =>
    obtain ⟨kind, text⟩ := e
    cases kind <;> rfl
  | _ => rfl

theorem WriteEvent.isInterruption_eq_isRetried : isInterruption = isRetried := by
  funext a
  cases a with
  | fail e =>
    obtain ⟨kind, text⟩ := e
    cases kind <;> rfl
  | _ => rfl

namespace Streams

theorem takeByte_eq_read (s : Streams) : s.takeByte = s.read := by
  obtain ⟨input, writes, flushes, calls⟩ := s
  simp only [takeByte, read, readFrom_eq, ReadEvent.isInterruption_eq_isRetried]
  cases input.dropWhile ReadEvent.isRetried with
  | nil => simp [ReadEvent.result]
  | cons a rest =>
    cases a with
    | fail e =>
      obtain ⟨kind, text⟩ := e
      cases kind <;> simp [ReadEvent.result]
    | _ => simp [ReadEvent.result]

theorem giveByte_eq_write (s : Streams) (b : UInt8) : s.giveByte b = s.write b := by
  obtain ⟨input, writes, flushes, calls⟩ := s
  simp only [giveByte, write, writeTo_eq, WriteEvent.isInterruption_eq_isRetried]
  cases writes.dropWhile WriteEvent.isRetried with
  | nil => simp [WriteEvent.error?]
  | cons a rest => cases a <;> simp [WriteEvent.error?]

theorem deliver_eq_flush (s : Streams) : s.deliver = s.flush := by
  obtain ⟨input, writes, flushes, calls⟩ := s
  cases flushes with
  | nil => rfl
  | cons a rest => cases a <;> rfl

end Streams

theorem Operator.exec_write (flushEach : Bool) (s : State) :
    write.exec flushEach s =
      match s.streams.put flushEach s.cell with
      | (e?, streams) => ⟨{ s with streams := streams }, e?.map .stream⟩ := by
  simp only [exec, Streams.giveByte_eq_write, Streams.deliver_eq_flush, Streams.put]
  cases s.streams.write s.cell with
  | mk e? streams => cases e? <;> rfl

/-! ## Many operators -/

def Operator.execMany (flushEach : Bool) (op : Operator) : Nat → State → Outcome State Crash
  | 0, s => { state := s }
  | n + 1, s =>
    match op.exec flushEach s with
    | ⟨s, none⟩ => op.execMany flushEach n s
    | ⟨s, some crash⟩ => ⟨s, some crash⟩

namespace Operator

variable (flushEach : Bool)

theorem execMany_of_change {op : Operator} {change : UInt8}
    (hop : ∀ s, op.exec flushEach s =
      { state := { s with tape := s.tape.poke s.dp (s.cell + change) } }) (n : Nat) (s : State) :
    op.execMany flushEach n s =
      { state := { s with tape := s.tape.poke s.dp (s.cell + .ofNat n * change) } } := by
  induction n generalizing s with
  | zero => simp [execMany, State.cell]
  | succ n ih =>
    have hn : change + .ofNat n * change = .ofNat (n + 1) * change := by
      rw [UInt8.ofNat_add, UInt8.add_mul, UInt8.add_comm]
      simp
    simp only [execMany, hop, ih, State.cell_poke, reduceIte, Tape.poke_poke, UInt8.add_assoc, hn]

/-- How far an operator moves the cell pointer to the right. -/
def shift : Operator → Int
  | right => 1
  | left => -1
  | _ => 0

variable {op : Operator}

theorem shift_cases (hop : op.shift ≠ 0) : op.shift = 1 ∨ op.shift = -1 := by
  cases op with
  | right => exact .inl rfl
  | left => exact .inr rfl
  | _ => exact (hop rfl).elim

theorem exec_of_shift (hop : op.shift ≠ 0) (s : State) :
    (∃ c : Cell, (c.val : Int) = s.dp.val + op.shift ∧
      op.exec flushEach s = { state := { s with dp := c } }) ∨
    ¬ OnTape (s.dp.val + op.shift) ∧ op.exec flushEach s = ⟨s, some .offTape⟩ := by
  obtain ⟨tape, ⟨k, hk⟩, streams⟩ := s
  cases op with
  | right =>
    by_cases h : k + 1 < tapeLength
    · exact .inl ⟨⟨k + 1, h⟩, rfl, dif_pos h⟩
    · refine .inr ⟨fun hon => ?_, dif_neg h⟩
      have hlt := hon.2
      simp only [shift] at hlt
      omega
  | left =>
    cases k with
    | zero => exact .inr ⟨by simp [OnTape, shift], rfl⟩
    | succ k => exact .inl ⟨⟨k, by omega⟩, by simp [shift], rfl⟩
  | _ => exact (hop rfl).elim

/-- The steps leave the tape if and only if their sum does. -/
theorem execMany_of_shift (hop : op.shift ≠ 0) (n : Nat) (s : State) :
    (∃ c : Cell, (c.val : Int) = s.dp.val + n * op.shift ∧
      op.execMany flushEach n s = { state := { s with dp := c } }) ∨
    ¬ OnTape (s.dp.val + n * op.shift) ∧
      ∃ c : Cell, op.execMany flushEach n s = ⟨{ s with dp := c }, some .offTape⟩ := by
  induction n generalizing s with
  | zero => exact .inl ⟨s.dp, by simp, rfl⟩
  | succ n ih =>
    have hsum : (s.dp.val : Int) + (n + 1 : Nat) * op.shift =
        s.dp.val + op.shift + n * op.shift := by
      rw [Int.natCast_succ, Int.add_mul, Int.one_mul, Int.add_comm (n * op.shift), Int.add_assoc]
    rw [hsum]
    rcases exec_of_shift flushEach hop s with ⟨c, hc, hx⟩ | ⟨hoff, hx⟩
    · simp only [execMany, hx, ← hc]
      exact ih { s with dp := c }
    · simp only [execMany, hx]
      refine .inr ⟨?_, s.dp, rfl⟩
      have hdp := s.dp.isLt
      unfold OnTape at hoff ⊢
      rcases shift_cases hop with h | h
      · rw [h] at hoff ⊢
        omega
      · rw [h] at hoff ⊢
        omega

theorem execMany_write (n : Nat) (tape : Tape) (dp : Cell) (streams : Streams) :
    write.execMany flushEach n ⟨tape, dp, streams⟩ =
      match streams.putMany flushEach (tape.peek dp) n with
      | (e?, streams) => ⟨⟨tape, dp, streams⟩, e?.map .stream⟩ := by
  induction n generalizing streams with
  | zero => rfl
  | succ n ih =>
    simp only [execMany, exec_write, Streams.putMany, State.cell]
    cases streams.put flushEach (tape.peek dp) with
    | mk e? streams =>
      cases e? with
      | none => exact ih streams
      | some e => rfl

theorem execMany_read (n : Nat) (tape : Tape) (dp : Cell) (streams : Streams) :
    read.execMany flushEach n ⟨tape, dp, streams⟩ =
      match streams.readMany n (tape.peek dp) with
      | (e?, b, streams) => ⟨⟨tape.poke dp b, dp, streams⟩, e?.map .stream⟩ := by
  induction n generalizing tape streams with
  | zero => simp [execMany, Streams.readMany]
  | succ n ih =>
    simp only [execMany, exec, Streams.takeByte_eq_read, Streams.readMany]
    cases streams.read with
    | mk result streams =>
      cases result with
      | ok b => simp [ih]
      | error e => simp

end Operator

variable {flushEach : Bool} {n : Nat} {i : Instr} {op : Operator}

theorem endsAlike_of_error? (s : State) (e? : Option StreamError) :
    EndsAlike s (e?.map .stream) s (e?.map .stream) := by
  cases e? with
  | none => exact .done s
  | some e => exact .stream s e

theorem exec_add_alike {change : UInt8}
    (hop : ∀ s, op.exec flushEach s =
      { state := { s with tape := s.tape.poke s.dp (s.cell + change) } })
    (hi : i.opcode = .add) (hv : lowByte i.value = .ofNat n * change) (s : State) :
    EndsAlike (s.exec flushEach i).state (s.exec flushEach i).error?
      (op.execMany flushEach n s).state (op.execMany flushEach n s).error? := by
  rw [Operator.execMany_of_change flushEach hop, State.exec_add hi, hv]
  exact .done _

theorem exec_move_alike (hop : op.shift ≠ 0) (hi : i.opcode = .move)
    (hv : i.value.toInt = n * op.shift) (s : State) :
    EndsAlike (s.exec flushEach i).state (s.exec flushEach i).error?
      (op.execMany flushEach n s).state (op.execMany flushEach n s).error? := by
  rcases Operator.execMany_of_shift flushEach hop n s with ⟨c, hc, hx⟩ | ⟨hoff, c, hx⟩
  · have hm : Cell.ofWord? (s.dp.toWord + i.value) = some c := by
      rw [Cell.ofWord?_add_eq_some_iff_toInt, hv, hc]
    rw [hx, State.exec_move_of_some hi flushEach hm]
    exact .done _
  · have hm : Cell.ofWord? (s.dp.toWord + i.value) = none := by
      rwa [Cell.ofWord?_add_eq_none_iff, hv]
    rw [hx, State.exec_move_of_none hi flushEach hm]
    exact .offTape rfl rfl

/-- The instruction for a run ends like its operators. -/
theorem exec_alike (flushEach : Bool) (hn : n < 2 ^ 63) (hb : op.bracket? = none)
    (hi : i ∈ op.instrs n) (s : State) :
    EndsAlike (s.exec flushEach i).state (s.exec flushEach i).error?
      (op.execMany flushEach n s).state (op.execMany flushEach n s).error? := by
  obtain ⟨tape, dp, streams⟩ := s
  cases op with
  | increment =>
    rw [List.mem_singleton.1 hi]
    refine exec_add_alike (fun _ => rfl) rfl ?_ _
    rw [lowByte_ofNat, UInt8.mul_one]
  | decrement =>
    rw [List.mem_singleton.1 hi]
    have hop : ∀ s, Operator.decrement.exec flushEach s =
        { state := { s with tape := s.tape.poke s.dp (s.cell + -1) } } := by
      intro s
      rw [Operator.exec, UInt8.sub_eq_add_neg]
    refine exec_add_alike hop rfl ?_ _
    rw [lowByte_neg, lowByte_ofNat, UInt8.mul_neg, UInt8.mul_one]
  | right =>
    rw [List.mem_singleton.1 hi]
    refine exec_move_alike (by decide) rfl ?_ _
    rw [Int64.toInt_ofNat_of_lt hn, Operator.shift, Int.mul_one]
  | left =>
    rw [List.mem_singleton.1 hi]
    refine exec_move_alike (by decide) rfl ?_ _
    rw [Int64.toInt_neg_ofNat_of_le (Nat.le_of_lt hn), Operator.shift, Int.mul_neg, Int.mul_one]
  | write =>
    rw [List.mem_singleton.1 hi, Operator.execMany_write]
    simp only [State.exec, repetitions, Int64.toInt_ofNat_of_lt hn, Int.toNat_natCast]
    exact endsAlike_of_error? _ _
  | read =>
    rw [List.mem_singleton.1 hi, Operator.execMany_read]
    simp only [State.exec, repetitions, Int64.toInt_ofNat_of_lt hn, Int.toNat_natCast]
    exact endsAlike_of_error? _ _
  | loopStart => cases hb
  | loopEnd => cases hb

end Brainfuck
