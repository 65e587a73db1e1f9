import Brainfuck.Proofs.Repetition

/-! # What makes a run fail

An instruction stops at the first of its calls that fails for good, and the run stops with it. So
the record of calls holds the error of every run that fails on a stream, and a run whose calls all
succeed can fail on the tape only.
-/

namespace Brainfuck

def Fault.stream? : Fault → Option StreamError
  | outOfRange _ => none
  | stream e => some e

def RunError.stream? : RunError → Option StreamError
  | outOfRange .. => none
  | stream e => some e

@[simp] theorem RunError.stream?_ofFault (ip : UInt64) (fault : Fault) :
    (ofFault ip fault).stream? = fault.stream? := by
  cases fault <;> rfl

namespace Streams

variable (flushEach : Bool) (b : UInt8) (n : Nat) (s : Streams)

theorem hardErrors_readMany :
    (s.readMany n b).2.2.hardErrors = s.hardErrors ++ (s.readMany n b).1.toList := by
  induction n generalizing s b with
  | zero => exact (List.append_nil _).symm
  | succ n ih =>
    have hr := s.hardErrors_read
    have ha := s.fst_read
    unfold readMany
    split
    · rename_i h
      rw [h] at hr ha
      rw [hr, ReadEvent.hardError?_of_result_error s.isRetried_readAnswer ha.symm]
    · rename_i h
      rw [h] at hr ha
      rw [ih, hr, ReadEvent.hardError?_of_result_ok ha.symm, Option.toList_none, List.append_nil]

theorem hardErrors_putMany :
    (s.putMany flushEach b n).2.hardErrors =
      s.hardErrors ++ (s.putMany flushEach b n).1.toList := by
  induction n generalizing s with
  | zero => exact (List.append_nil _).symm
  | succ n ih =>
    have hp := s.hardErrors_put b flushEach
    unfold putMany
    split
    · rename_i h
      rwa [h] at hp
    · rename_i h
      rw [h] at hp
      rw [ih, hp, Option.toList_none, List.append_nil]

/-- Calls are recorded and never taken back. -/
theorem kept_prefix_calls (calls : List Call) :
    Kept flushEach fun s => calls <+: s.calls.toList where
  read s h := by
    rw [calls_read]
    exact h.trans (List.prefix_append ..)
  put s b h := by
    have hw : calls <+: (s.write b).2.calls.toList := by
      rw [calls_write]
      exact h.trans (List.prefix_append ..)
    rw [snd_put]
    split
    · rw [flush_eq, Array.toList_push]
      exact hw.trans (List.prefix_append ..)
    · exact hw

end Streams

namespace State

variable {i : Instr}

theorem stream?_exec (hr : i.opcode ≠ .read) (hw : i.opcode ≠ .write) (flushEach : Bool)
    (s : State) : (s.exec flushEach i).error?.bind Fault.stream? = none := by
  obtain ⟨tape', dp', target?, h⟩ := exec_of_no_call hr hw s.tape s.dp
  rw [h flushEach s.streams]
  cases target? <;> rfl

theorem hardErrors_exec (flushEach : Bool) (i : Instr) (s : State) :
    (s.exec flushEach i).state.streams.hardErrors =
      s.streams.hardErrors ++ ((s.exec flushEach i).error?.bind Fault.stream?).toList := by
  by_cases hr : i.opcode = .read
  · have h := s.streams.hardErrors_readMany s.cell (repetitions i.value)
    rw [exec_read hr]
    simpa [Option.bind_map, Function.comp_def, Fault.stream?] using h
  · by_cases hw : i.opcode = .write
    · have h := s.streams.hardErrors_putMany flushEach s.cell (repetitions i.value)
      rw [exec_write hw]
      simpa [Option.bind_map, Function.comp_def, Fault.stream?] using h
    · rw [streams_exec hr hw, stream?_exec hr hw, Option.toList_none, List.append_nil]

end State

theorem Machine.hardErrors_step (flushEach : Bool) (i : Instr) (m : Machine) :
    (m.step flushEach i).state.streams.hardErrors =
      m.streams.hardErrors ++ ((m.step flushEach i).error?.bind RunError.stream?).toList := by
  rw [streams_step, State.hardErrors_exec]
  obtain ⟨s, ip⟩ := m
  simp only [step]
  split
  · rename_i h
    rw [h]
    rfl
  · rename_i h
    rw [h]
    simp

namespace Program

variable {p : Program} {flushEach : Bool} {m m' : Machine} {e? : Option RunError} {r : Run}
  {e : StreamError}

theorem Next.hardErrors (h : p.Next flushEach m m') :
    m'.streams.hardErrors = m.streams.hardErrors := by
  obtain ⟨i, -, hs⟩ := h
  have hi := m.hardErrors_step flushEach i
  rw [hs] at hi
  exact hi.trans (List.append_nil _)

theorem Steps.hardErrors (h : p.Steps flushEach m m') :
    m'.streams.hardErrors = m.streams.hardErrors := by
  induction h with
  | refl => rfl
  | tail _ hn ih => rw [hn.hardErrors, ih]

/-- An execution adds the error for which it stops, if that is an error of a stream. -/
theorem Halts.hardErrors (h : p.Halts flushEach m m' e?) :
    m'.streams.hardErrors = m.streams.hardErrors ++ (e?.bind RunError.stream?).toList := by
  obtain ⟨m₁, hs, hst⟩ := halts_iff_exists_stops.1 h
  cases hst with
  | finished => rw [hs.hardErrors, Option.bind_none, Option.toList_none, List.append_nil]
  | @failed i _ e _ hx =>
    have hi := m₁.hardErrors_step flushEach i
    rw [hx] at hi
    rw [hi, hs.hardErrors]

theorem Ends.prefix_calls (h : p.Ends flushEach m r) :
    m.streams.calls.toList <+: r.machine.streams.calls.toList := by
  obtain ⟨m', e?, n, hh, rfl⟩ := h.halts
  have hc := (Streams.kept_prefix_calls flushEach _).halts hh List.prefix_rfl
  rw [Run.finish_streams, Streams.flush_eq, Array.toList_push]
  exact hc.trans (List.prefix_append ..)

/-- If a run fails for a stream, its error is the first hard error that it adds. -/
theorem Ends.exists_hardErrors (h : p.Ends flushEach m r) (he : r.error? = some (.stream e)) :
    ∃ more, r.machine.streams.hardErrors = m.streams.hardErrors ++ e :: more := by
  obtain ⟨m', e?, n, hh, rfl⟩ := h.halts
  rw [Run.finish_error?] at he
  rw [Run.finish_streams, Streams.hardErrors_flush, hh.hardErrors, List.append_assoc,
    ← Streams.fst_flush]
  cases e? with
  | some e₁ =>
    obtain rfl : e₁ = .stream e := Option.some.inj he
    exact ⟨_, rfl⟩
  | none =>
    obtain ⟨e₁, h₁, heq⟩ := Option.map_eq_some_iff.1 he
    cases heq
    exact ⟨[], by rw [h₁]; rfl⟩

/-- A run that fails for a stream has made a call that failed with its error. -/
theorem Ends.exists_call (h : p.Ends flushEach m r) (he : r.error? = some (.stream e)) :
    ∃ calls, r.machine.streams.calls.toList = m.streams.calls.toList ++ calls ∧
      ∃ c ∈ calls, c.hardError? = some e := by
  obtain ⟨calls, hc⟩ := h.prefix_calls
  obtain ⟨more, hm⟩ := h.exists_hardErrors he
  refine ⟨calls, hc.symm, ?_⟩
  have hmem : e ∈ calls.filterMap Call.hardError? := by
    rw [Streams.hardErrors, Streams.hardErrors, ← hc, List.filterMap_append,
      List.append_cancel_left_eq] at hm
    simp [hm]
  exact List.mem_filterMap.1 hmem

end Program

end Brainfuck
