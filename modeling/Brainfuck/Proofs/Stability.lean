import Brainfuck.Proofs.Addresses

/-! # Faults and ends are final

An instruction that leaves the tape changes nothing, except that a scan has moved to the end of the
tape. So the next run comes upon the same fault at once, and so does every later one. A program that
has run to its end has nothing left to do either.
-/

namespace Brainfuck

/-- A run on `m` that completed no instruction and made no call but its final flush. -/
structure Run.IsIdle (r : Run) (m : Machine) : Prop where
  dispatched : r.dispatched = 0
  tape : r.machine.tape = m.tape
  dp : r.machine.dp = m.dp
  ip : r.machine.ip = m.ip
  input : r.machine.streams.input = m.streams.input
  consumed : r.machine.streams.consumed = m.streams.consumed
  writeCount : r.machine.streams.writeCount = m.streams.writeCount
  output : r.machine.streams.output = m.streams.output
  calls : ∃ answer, r.machine.streams.calls = m.streams.calls.push (.flush answer)

theorem Run.isIdle_finish (m : Machine) (e? : Option RunError) :
    (Run.finish ⟨m, e?, 0⟩).IsIdle m where
  dispatched := rfl
  tape := rfl
  dp := rfl
  ip := rfl
  input := m.streams.input_flush
  consumed := m.streams.consumed_flush
  writeCount := m.streams.writeCount_flush
  output := m.streams.output_flush
  calls := m.streams.exists_calls_flush

namespace Program

/-- However often a program is run again on `m`, every run ends and is idle, and tape and pointers
stay. Of each run `Q` tells how it ends, given the error of its final flush. -/
def StaysAt (p : Program) (flushEach : Bool) (m : Machine)
    (Q : Option StreamError → Run → Prop) : Prop :=
  ∀ m', p.Reaches flushEach m m' →
    m'.tape = m.tape ∧ m'.dp = m.dp ∧ m'.ip = m.ip ∧ (∃ r, p.Ends flushEach m' r) ∧
      ∀ r, p.Ends flushEach m' r → r.IsIdle m' ∧ Q m'.streams.flush.1 r

def IsStuck (p : Program) (flushEach : Bool) (m : Machine) (e? : Option RunError) : Prop :=
  ∀ streams, p.Stops flushEach (m.withStreams streams) (m.withStreams streams) e?

variable {p : Program} {flushEach : Bool} {m m' : Machine} {e? : Option RunError} {r : Run}

theorem IsStuck.exists_streams (h : p.IsStuck flushEach m e?) (hr : p.Reaches flushEach m m') :
    ∃ streams, m' = m.withStreams streams := by
  induction hr with
  | start => exact ⟨m.streams, rfl⟩
  | next _ hn ih =>
    obtain ⟨streams, rfl⟩ := ih
    exact ((h streams).not_next hn).elim
  | run _ hr ih =>
    obtain ⟨streams, rfl⟩ := ih
    obtain rfl := hr.unique (h streams).ends
    exact ⟨streams.flush.2, rfl⟩

theorem IsStuck.staysAt {Q : Option StreamError → Run → Prop} (h : p.IsStuck flushEach m e?)
    (hQ : ∀ m', Q m'.streams.flush.1 (.finish ⟨m', e?, 0⟩)) : p.StaysAt flushEach m Q := by
  intro m' hr
  obtain ⟨streams, rfl⟩ := h.exists_streams hr
  have hends := (h streams).ends
  refine ⟨rfl, rfl, rfl, ⟨_, hends⟩, ?_⟩
  intro r hr
  obtain rfl := hr.unique hends
  exact ⟨Run.isIdle_finish _ _, hQ _⟩

theorem isStuck_of_fetch?_eq_none (h : m.fetch? p = none) : p.IsStuck flushEach m none :=
  fun _ => .finished h

end Program

/-- What has left the tape does so again. -/
theorem State.OffTape.again {i : Instr} {s s' : State} {t : Int64} (h : OffTape i s s' t)
    (streams : Streams) :
    OffTape i { s' with streams := streams } { s' with streams := streams } t := by
  cases h with
  | move hi hn => exact .move hi hn
  | scanLeft hi hall =>
    exact .scanLeft hi fun d hd => hall d (Nat.le_trans hd (Nat.zero_le _))
  | scanRight hi hall =>
    exact .scanRight hi fun d hd => hall d (Nat.le_trans (Nat.le_of_lt_succ s.dp.isLt) hd)
  | multiply hi hc hn => exact .multiply hi hc hn

namespace Program

variable {p : Program} {flushEach : Bool} {m m' : Machine} {r : Run} {i : Instr} {s s' : State}
  {ip : UInt64} {t : Int64}

theorem isStuck_of_offTape (hf : Machine.fetch? p ⟨s', ip⟩ = some i)
    (h : State.OffTape i s s' t) :
    p.IsStuck flushEach ⟨s', ip⟩ (some (.outOfRange ip t)) := by
  intro streams
  have he := (State.exec_outOfRange_iff flushEach).2 (h.again streams)
  exact .failed hf (Machine.step_fault he ip)

theorem Halts.fetch?_eq_none (h : p.Halts flushEach m m' none) : m'.fetch? p = none := by
  obtain ⟨m₁, -, hst⟩ := halts_iff_exists_stops.1 h
  cases hst with
  | finished hf => exact hf

theorem Ends.exists_halts (h : p.Ends flushEach m r) (he : r.error? = none) :
    ∃ m', p.Halts flushEach m m' none := by
  obtain ⟨m', e?, n, hh, rfl⟩ := h.halts
  cases e? with
  | none => exact ⟨m', hh⟩
  | some e => simp at he

end Program

/-- A run that leaves the tape ends on the instruction that does so, in the state of
`State.OffTape`, and all later runs end there again. A program that has been executed to its end, as
it has been by every run without an error, stays there, and later runs can fail only in the final
flush. -/
theorem faults_and_ends_are_final (p : Program) (flushEach : Bool) (m : Machine) (r : Run)
    (hr : p.Ends flushEach m r) :
    (∀ ip t, r.error? = some (.outOfRange ip t) →
      (∃ before i s, p.Steps flushEach m before ∧ before.fetch? p = some i ∧
        State.OffTape i before.toState s t ∧ r.machine = Machine.flush ⟨s, before.ip⟩ ∧
          ip = before.ip) ∧
      p.StaysAt flushEach r.machine fun _ r' =>
        r'.error? = some (.outOfRange ip t) ∧ r'.events = #[]) ∧
    (r.error? = none → ∃ m', p.Halts flushEach m m' none) ∧
    ∀ m', p.Halts flushEach m m' none →
      p.StaysAt flushEach r.machine fun e? r' => r'.error? = e?.map .stream := by
  refine ⟨?_, hr.exists_halts, ?_⟩
  · intro ip t he
    obtain ⟨before, i, s, hs, hf, ho, hm, rfl⟩ := hr.exists_offTape he
    refine ⟨⟨before, i, s, hs, hf, ho, hm, rfl⟩, ?_⟩
    -- The flush of the first run has left other streams, before which the fault is the same.
    have hstuck : p.IsStuck flushEach r.machine (some (.outOfRange before.ip t)) := by
      rw [hm]
      exact Program.isStuck_of_offTape hf (ho.again s.streams.flush.2)
    exact hstuck.staysAt fun m' => ⟨rfl, rfl⟩
  · intro m' hh
    obtain ⟨n, hr'⟩ := hh.ends
    obtain rfl := hr.unique hr'
    have hstuck : p.IsStuck flushEach m'.flush none :=
      Program.isStuck_of_fetch?_eq_none hh.fetch?_eq_none
    exact hstuck.staysAt fun m' => rfl

/-- The scan crosses two cells that are not zero. The other program writes nothing, so that only its
final flush can fail. -/
theorem faults_and_ends_are_final_scan :
    let p : Program := #[{ opcode := .scanLeft }]
    let q : Program := #[{ opcode := .add, value := 1 }]
    let e : StreamError := ⟨.other, "broken pipe"⟩
    let m : Machine :=
      { tape := (Tape.blank.poke 0 1).poke 1 1, dp := 1, streams := { flushes := [.fail e] } }
    (∃ r, p.Ends false m r ∧ r.error? = some (.outOfRange 0 (-1)) ∧
      p.StaysAt false r.machine fun _ r' =>
        r'.error? = some (.outOfRange 0 (-1)) ∧ r'.events = #[]) ∧
    (∃ r, q.Ends false {} r ∧ r.error? = none ∧ ∃ m', q.Halts false {} m' none) ∧
    ∃ r m', q.Ends false m r ∧ r.error? = some (.stream e) ∧ q.Halts false m m' none ∧
      q.StaysAt false r.machine fun e? r' => r'.error? = e?.map .stream := by
  intro p q e m
  have hq : (q.run false 10 {}).map Run.error? = some none := by decide
  have hqe : (q.run false 10 m).bind Run.error? = some (.stream e) := by decide
  have hh : (q.execute false 10 0 m).map Run.error? = some none := by decide
  refine ⟨?_, ?_, ?_⟩
  · have ho : State.OffTape { opcode := .scanLeft } m.toState { m.toState with dp := 0 } (-1) := by
      refine .scanLeft rfl fun d hd => ?_
      have hle : d.val ≤ 1 := hd
      rcases Nat.le_one_iff_eq_zero_or_eq_one.1 hle with h | h
      · obtain rfl : d = 0 := Fin.ext h
        decide
      · obtain rfl : d = 1 := Fin.ext h
        decide
    have hf := Machine.step_fault ((State.exec_outOfRange_iff false).2 ho) 0
    have hr := (Program.Stops.failed (p := p) (m := m) rfl hf).ends
    obtain ⟨hfault, -, -⟩ := faults_and_ends_are_final p false m _ hr
    exact ⟨_, hr, rfl, (hfault 0 (-1) rfl).2⟩
  · obtain ⟨r, hr, he⟩ := Option.map_eq_some_iff.1 hq
    obtain ⟨-, hend, -⟩ := faults_and_ends_are_final q false {} r ⟨10, hr⟩
    exact ⟨r, ⟨10, hr⟩, he, hend he⟩
  · obtain ⟨r, hr, he⟩ := Option.bind_eq_some_iff.1 hqe
    obtain ⟨⟨m', e?, n⟩, hx, he'⟩ := Option.map_eq_some_iff.1 hh
    cases he'
    have hhalts : q.Halts false m m' none := ⟨10, n, hx⟩
    obtain ⟨-, -, hstays⟩ := faults_and_ends_are_final q false m r ⟨10, hr⟩
    exact ⟨r, m', ⟨10, hr⟩, he, hhalts, hstays m' hhalts⟩

end Brainfuck
