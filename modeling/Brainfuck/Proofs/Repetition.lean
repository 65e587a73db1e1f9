import Mathlib.Algebra.Group.Nat.Defs
import Brainfuck.Jumps
import Brainfuck.Proofs.Answers
import Brainfuck.Proofs.Instructions
import Brainfuck.Proofs.Reachability

/-! # Repeated reads and writes

A read or a write makes one call after the other, as often as its value says, and a failure can
strike at any of them. What is left after some of its calls is what the same instruction with a
smaller value leaves, and the rest of it is an instruction with a smaller value too. What every call
keeps is kept by all instructions, and so by executions.
-/

namespace Brainfuck

structure Streams.Kept (flushEach : Bool) (J : Streams → Prop) : Prop where
  read : ∀ s : Streams, J s → J s.read.2
  put : ∀ (s : Streams) (b : UInt8), J s → J (s.put flushEach b).2

namespace Streams

variable {flushEach : Bool} {J : Streams → Prop} {s t : Streams} {b c : UInt8} {n k : Nat}

theorem putMany_add (h : s.putMany flushEach b k = (none, t)) (n : Nat) :
    s.putMany flushEach b (k + n) = t.putMany flushEach b n := by
  induction k generalizing s with
  | zero =>
    cases h
    rw [Nat.zero_add]
  | succ k ih =>
    rw [Nat.add_right_comm, putMany]
    rw [putMany] at h
    split at h
    · cases h
    · exact ih h

theorem readMany_add (h : s.readMany k b = (none, c, t)) (n : Nat) :
    s.readMany (k + n) b = t.readMany n c := by
  induction k generalizing s b with
  | zero =>
    cases h
    rw [Nat.zero_add]
  | succ k ih =>
    rw [Nat.add_right_comm, readMany]
    rw [readMany] at h
    split at h
    · cases h
    · exact ih h

theorem Kept.putMany (hJ : Kept flushEach J) (b : UInt8) (n : Nat) (h : J s) :
    J (s.putMany flushEach b n).2 := by
  induction n generalizing s with
  | zero => exact h
  | succ n ih =>
    have hput := hJ.put s b h
    unfold Streams.putMany
    split
    · rename_i hp
      rwa [hp] at hput
    · rename_i hp
      rw [hp] at hput
      exact ih hput

theorem Kept.readMany (hJ : Kept flushEach J) (n : Nat) (b : UInt8) (h : J s) :
    J (s.readMany n b).2.2 := by
  induction n generalizing s b with
  | zero => exact h
  | succ n ih =>
    have hread := hJ.read s h
    unfold Streams.readMany
    split
    · rename_i hr
      rwa [hr] at hread
    · rename_i hr
      rw [hr] at hread
      exact ih _ hread

end Streams

theorem repetitions_lt (v : Int64) : repetitions v < 2 ^ 63 := by
  have h := Int64.toInt_lt v
  unfold repetitions
  omega

theorem repetitions_le_one {v : Int64} (h : v ≤ 1) : repetitions v ≤ 1 := by
  have h₁ := Int64.le_iff_toInt_le.1 h
  have h₂ : (1 : Int64).toInt = 1 := rfl
  unfold repetitions
  omega

theorem repetitions_ofNat {n : Nat} (h : n < 2 ^ 63) : repetitions (.ofNat n) = n := by
  rw [repetitions, Int64.toInt_ofNat_of_lt h, Int.toNat_natCast]

namespace State

variable {flushEach : Bool} {i : Instr} {s t : State} {u : Streams} {e : StreamError}
  {J : Streams → Prop}

theorem exec_read (hi : i.opcode = .read) (flushEach : Bool) (s : State) :
    s.exec flushEach i =
      match s.streams.readMany (repetitions i.value) s.cell with
      | (e?, b, u) => ⟨{ s with tape := s.tape.poke s.dp b, streams := u }, e?.map .stream⟩ := by
  simp [exec, hi, cell]

theorem exec_write (hi : i.opcode = .write) (flushEach : Bool) (s : State) :
    s.exec flushEach i =
      match s.streams.putMany flushEach s.cell (repetitions i.value) with
      | (e?, u) => ⟨{ s with streams := u }, e?.map .stream⟩ := by
  simp [exec, hi, cell]

/-- All other instructions make no call. They do the same on all streams, and fail on the tape
only. -/
theorem exec_of_no_call (hr : i.opcode ≠ .read) (hw : i.opcode ≠ .write) (tape : Tape) (dp : Cell) :
    ∃ (tape' : Tape) (dp' : Cell) (target? : Option Int64), ∀ flushEach streams,
      exec flushEach i ⟨tape, dp, streams⟩ =
        ⟨⟨tape', dp', streams⟩, target?.map .outOfRange⟩ := by
  cases hi : i.opcode with
  | read => exact (hr hi).elim
  | write => exact (hw hi).elim
  | move =>
    cases h : Cell.ofWord? (dp.toWord + i.value) with
    | some c => exact ⟨tape, c, none, fun _ _ => by simp [exec, hi, h]⟩
    | none => exact ⟨tape, dp, some (dp.toWord + i.value), fun _ _ => by simp [exec, hi, h]⟩
  | scanLeft =>
    cases h : tape.zeroLeft? dp with
    | some c => exact ⟨tape, c, none, fun _ _ => by simp [exec, hi, h]⟩
    | none => exact ⟨tape, .first, some (Cell.first.toWord - 1), fun _ _ => by simp [exec, hi, h]⟩
  | scanRight =>
    cases h : tape.zeroRight? dp with
    | some c => exact ⟨tape, c, none, fun _ _ => by simp [exec, hi, h]⟩
    | none => exact ⟨tape, .last, some (Cell.last.toWord + 1), fun _ _ => by simp [exec, hi, h]⟩
  | multiply =>
    by_cases hc : tape.peek dp = 0
    · exact ⟨tape, dp, none, fun _ _ => by simp [exec, hi, hc]⟩
    · cases h : Cell.ofWord? (dp.toWord + i.offset) with
      | some c => exact ⟨tape.poke c (tape.peek c + tape.peek dp * lowByte i.value), dp, none,
          fun _ _ => by simp [exec, hi, hc, h]⟩
      | none => exact ⟨tape, dp, some (dp.toWord + i.offset), fun _ _ => by simp [exec, hi, hc, h]⟩
  | add | clear => exact ⟨_, dp, none, fun _ _ => by simp only [exec, hi]; rfl⟩
  | jumpIfZero | jumpUnlessZero => exact ⟨tape, dp, none, fun _ _ => by simp [exec, hi]⟩

theorem exec_withStreams (hr : i.opcode ≠ .read) (hw : i.opcode ≠ .write)
    (flushEach flushEach' : Bool) (s : State) (u : Streams) :
    exec flushEach' i { s with streams := u } =
      ⟨{ (s.exec flushEach i).state with streams := u }, (s.exec flushEach i).error?⟩ := by
  obtain ⟨tape', dp', target?, h⟩ := exec_of_no_call hr hw s.tape s.dp
  rw [h, h flushEach s.streams]

theorem streams_exec (hr : i.opcode ≠ .read) (hw : i.opcode ≠ .write) :
    (s.exec flushEach i).state.streams = s.streams := by
  have h := exec_withStreams hr hw flushEach flushEach s s.streams
  exact congrArg (fun o => o.state.streams) h

end State

theorem Streams.Kept.exec {flushEach : Bool} {J : Streams → Prop} {s : State}
    (hJ : Streams.Kept flushEach J) (i : Instr) (h : J s.streams) :
    J (s.exec flushEach i).state.streams := by
  by_cases hr : i.opcode = .read
  · have hk := hJ.readMany (repetitions i.value) s.cell h
    rw [State.exec_read hr]
    exact hk
  · by_cases hw : i.opcode = .write
    · have hk := hJ.putMany s.cell (repetitions i.value) h
      rw [State.exec_write hw]
      exact hk
    · rwa [State.streams_exec hr hw]

namespace State

variable {flushEach : Bool} {i : Instr} {s t : State} {u : Streams} {e : StreamError}
  {J : Streams → Prop}

/-! ## The first of several calls -/

def afterCall (flushEach : Bool) (op : Opcode) (s : State) : Streams :=
  match op with
  | .read => s.streams.read.2
  | .write => (s.streams.put flushEach s.cell).2
  | _ => s.streams

theorem exec_of_fault (hv : 0 < repetitions i.value)
    (he : s.streams.Fault flushEach e i.opcode) :
    s.exec flushEach i =
      ⟨{ s with streams := s.afterCall flushEach i.opcode }, some (.stream e)⟩ := by
  obtain ⟨n, hn⟩ := Nat.exists_eq_add_of_lt hv
  rw [Nat.zero_add] at hn
  cases hi : i.opcode with
  | read =>
    rw [hi] at he
    have hr : s.streams.read = (.error e, s.streams.read.2) := Prod.ext he.fst_read rfl
    rw [exec_read hi, hn, Streams.readMany, hr]
    simp [cell, afterCall]
  | write =>
    rw [hi] at he
    have hp : s.streams.put flushEach s.cell = (some e, (s.streams.put flushEach s.cell).2) :=
      Prod.ext (he.fst_put s.cell) rfl
    rw [exec_write hi, hn, Streams.putMany, hp]
    rfl
  | _ =>
    rw [hi] at he
    cases he

theorem kept_exec (hJ : Streams.Kept flushEach J) (hi : i.opcode = .read ∨ i.opcode = .write)
    (hv : 0 < repetitions i.value) (h : J (s.afterCall flushEach i.opcode)) :
    J (s.exec flushEach i).state.streams := by
  obtain ⟨n, hn⟩ := Nat.exists_eq_add_of_lt hv
  rw [Nat.zero_add] at hn
  rcases hi with hi | hi
  · rw [hi] at h
    rw [exec_read hi, hn, Streams.readMany]
    cases hr : s.streams.read with
    | mk result u =>
      rw [afterCall, hr] at h
      cases result with
      | error e => exact h
      | ok b => exact hJ.readMany n b h
  · rw [hi] at h
    rw [exec_write hi, hn, Streams.putMany]
    cases hp : s.streams.put flushEach s.cell with
    | mk e? u =>
      rw [afterCall, hp] at h
      cases e? with
      | some e => exact h
      | none => exact hJ.putMany s.cell n h

/-! ## In the midst of an instruction -/

/-- The instruction has come to `t`, with at least one of its calls to come. -/
def Partway (flushEach : Bool) (i : Instr) (s t : State) : Prop :=
  ∃ k < repetitions i.value, s.exec flushEach (i.withValue (.ofNat k)) = ⟨t, none⟩

/-- What is left of an instruction is an instruction too. -/
theorem Partway.exists_rest (h : Partway flushEach i s t)
    (hi : i.opcode = .read ∨ i.opcode = .write) :
    ∃ v, 0 < repetitions v ∧ s.exec flushEach i = t.exec flushEach (i.withValue v) := by
  obtain ⟨k, hk, hx⟩ := h
  obtain ⟨n, hn⟩ := Nat.exists_eq_add_of_lt hk
  have hlt := repetitions_lt i.value
  have hkk : repetitions (.ofNat k) = k := repetitions_ofNat (by omega)
  have hnn : repetitions (.ofNat (n + 1)) = n + 1 := repetitions_ofNat (by omega)
  refine ⟨.ofNat (n + 1), by omega, ?_⟩
  rcases hi with hi | hi
  · have hi' : (i.withValue (.ofNat k)).opcode = .read := hi
    rw [exec_read hi', Instr.withValue, hkk] at hx
    cases hr : s.streams.readMany k s.cell with
    | mk e? r =>
      obtain ⟨b, u⟩ := r
      rw [hr] at hx
      cases e? with
      | some e => cases hx
      | none =>
        cases hx
        have hadd := Streams.readMany_add hr (n + 1)
        have hi₁ : (i.withValue (.ofNat (n + 1))).opcode = .read := hi
        rw [exec_read hi, hn, Nat.add_assoc, hadd, exec_read hi₁]
        simp only [Instr.withValue, hnn, cell, Tape.peek_poke_self, Tape.poke_poke]
  · have hi' : (i.withValue (.ofNat k)).opcode = .write := hi
    rw [exec_write hi', Instr.withValue, hkk] at hx
    cases hp : s.streams.putMany flushEach s.cell k with
    | mk e? u =>
      rw [hp] at hx
      cases e? with
      | some e => cases hx
      | none =>
        cases hx
        have hadd := Streams.putMany_add hp (n + 1)
        have hi₁ : (i.withValue (.ofNat (n + 1))).opcode = .write := hi
        rw [exec_write hi, hn, Nat.add_assoc, hadd, exec_write hi₁]
        simp only [Instr.withValue, hnn, cell]

theorem Partway.exec_of_fault (h : Partway flushEach i s t)
    (hi : i.opcode = .read ∨ i.opcode = .write) (he : t.streams.Fault flushEach e i.opcode) :
    s.exec flushEach i =
      ⟨{ t with streams := t.afterCall flushEach i.opcode }, some (.stream e)⟩ := by
  obtain ⟨v, hv, hx⟩ := h.exists_rest hi
  rw [hx]
  exact State.exec_of_fault hv he

theorem Partway.kept_exec (h : Partway flushEach i s t) (hJ : Streams.Kept flushEach J)
    (hi : i.opcode = .read ∨ i.opcode = .write) (ht : J (t.afterCall flushEach i.opcode)) :
    J (s.exec flushEach i).state.streams := by
  obtain ⟨v, hv, hx⟩ := h.exists_rest hi
  rw [hx]
  exact State.kept_exec hJ hi hv ht

/-- What is kept by every call holds in the midst of an instruction if it held before it. -/
theorem Partway.kept (h : Partway flushEach i s t) (hJ : Streams.Kept flushEach J)
    (hs : J s.streams) : J t.streams := by
  obtain ⟨k, -, hx⟩ := h
  have hk := hJ.exec (i.withValue (.ofNat k)) hs
  rwa [hx] at hk

/-- An instruction with one call at most has made none before it. -/
theorem Partway.eq_start (h : Partway flushEach i s t) (hi : i.opcode = .read ∨ i.opcode = .write)
    (hv : repetitions i.value ≤ 1) : t = s := by
  obtain ⟨k, hk, hx⟩ := h
  obtain rfl : k = 0 := by omega
  rcases hi with hi | hi
  · have hi' : (i.withValue (.ofNat 0)).opcode = .read := hi
    rw [exec_read hi'] at hx
    cases hx
    simp [cell]
  · have hi' : (i.withValue (.ofNat 0)).opcode = .write := hi
    rw [exec_write hi'] at hx
    cases hx
    rfl

end State

/-! ## Executions -/

theorem Machine.streams_step (flushEach : Bool) (i : Instr) (m : Machine) :
    (m.step flushEach i).state.streams = (m.exec flushEach i).state.streams := by
  obtain ⟨s, ip⟩ := m
  simp only [step]
  split
  · rename_i h
    rw [h]
  · rename_i h
    rw [h]

namespace Streams.Kept

variable {flushEach : Bool} {J : Streams → Prop} {p : Program} {m m₁ m' : Machine} {i : Instr}
  {e? : Option RunError} {s t : State}

theorem step (hJ : Kept flushEach J) (i : Instr) (h : J m.streams) :
    J (m.step flushEach i).state.streams := by
  rw [Machine.streams_step]
  exact hJ.exec i h

theorem steps (hJ : Kept flushEach J) (hs : p.Steps flushEach m m') (h : J m.streams) :
    J m'.streams :=
  hs.invariant (I := fun m => J m.streams) h fun h _ => hJ.step _ h

theorem halts (hJ : Kept flushEach J) (hh : p.Halts flushEach m m' e?) (h : J m.streams) :
    J m'.streams := by
  obtain ⟨m₁, hs, hst⟩ := Program.halts_iff_exists_stops.1 hh
  have h₁ := hJ.steps hs h
  cases hst with
  | finished => exact h₁
  | @failed i _ _ _ hx =>
    have h₂ := hJ.step i h₁
    rwa [hx] at h₂

theorem reaches (hJ : Kept flushEach J) (hfl : ∀ s, J s → J s.flush.2)
    (h : p.Reaches flushEach m m') (hm : J m.streams) : J m'.streams :=
  h.invariant (I := fun m => J m.streams) hm (fun h _ => hJ.step _ h) (hfl _)

end Streams.Kept

namespace Program

/-- Execution on the first machine comes to the second, which is about to make a call of a read or a
write. -/
def Calls (p : Program) (flushEach : Bool) (op : Opcode) (m mid : Machine) : Prop :=
  (op = .read ∨ op = .write) ∧ ∃ before i, p.Steps flushEach m before ∧
    before.fetch? p = some i ∧ i.opcode = op ∧
      before.toState.Partway flushEach i mid.toState ∧ mid.ip = before.ip

variable {p : Program} {flushEach : Bool} {op : Opcode} {m m' mid : Machine} {e : StreamError}
  {e? : Option RunError} {J : Streams → Prop}

theorem Calls.head (hn : p.Next flushEach m m') (h : p.Calls flushEach op m' mid) :
    p.Calls flushEach op m mid := by
  obtain ⟨hi, before, i, hs, h⟩ := h
  exact ⟨hi, before, i, .head hn hs, h⟩

/-- A call that fails ends the run in the midst of its instruction. -/
theorem Calls.ends (h : p.Calls flushEach op m mid) (he : mid.streams.Fault flushEach e op) :
    ∃ n, p.Ends flushEach m
      (.finish ⟨mid.withStreams (mid.toState.afterCall flushEach op), some (.stream e), n⟩) := by
  obtain ⟨hi, before, i, hs, hf, rfl, hx, hip⟩ := h
  have hstep : before.step flushEach i =
      ⟨mid.withStreams (mid.toState.afterCall flushEach i.opcode), some (.stream e)⟩ := by
    simp only [Machine.step, hx.exec_of_fault hi he, Machine.withStreams, hip]
    rfl
  exact (hs.halts_iff.2 (halts_of_error hf hstep)).ends

/-- Where every instruction makes one call at most, calls are made between two instructions. -/
theorem Calls.steps (h : p.Calls flushEach op m mid)
    (hp : ∀ i ∈ p, i.opcode = .read ∨ i.opcode = .write → repetitions i.value ≤ 1) :
    p.Steps flushEach m mid := by
  obtain ⟨hi, ⟨s, ip⟩, i, hs, hf, rfl, hx, hip⟩ := h
  obtain ⟨t, ip'⟩ := mid
  obtain rfl : ip' = ip := hip
  obtain rfl : t = s := hx.eq_start hi (hp i (Array.mem_of_getElem? hf) hi)
  exact hs

theorem Calls.kept_halts (h : p.Calls flushEach op m mid) (hJ : Streams.Kept flushEach J)
    (hmid : J (mid.toState.afterCall flushEach op)) (hh : p.Halts flushEach m m' e?) :
    J m'.streams := by
  obtain ⟨hi, before, i, hs, hf, rfl, hx, -⟩ := h
  have hexec := hx.kept_exec hJ hi hmid
  rw [← Machine.streams_step] at hexec
  rw [hs.halts_iff] at hh
  cases hstep : before.step flushEach i with
  | mk m₂ e? =>
    rw [hstep] at hexec
    cases e? with
    | none => exact hJ.halts ((halts_step_iff hf hstep).1 hh) hexec
    | some e =>
      obtain ⟨rfl, -⟩ := hh.unique (halts_of_error hf hstep)
      exact hexec

end Program

end Brainfuck
