import Brainfuck.Proofs.Lockstep
import Brainfuck.Proofs.Resumption

/-! # Flushing after every byte

Where flushes never fail, a machine that flushes after every byte does what one does that only
flushes at the end of its runs. Its record of calls is the other one with a flush behind every byte
that was accepted, and every count of calls follows from this.
-/

namespace Brainfuck

namespace Call

def withFlush (c : Call) : List Call :=
  if c.accepted?.isSome then [c, .flush .done] else [c]

theorem withFlush_of_none {c : Call} (h : c.accepted? = none) : c.withFlush = [c] := by
  simp [withFlush, h]

theorem filterMap_accepted?_withFlush (calls : List Call) :
    (calls.flatMap withFlush).filterMap accepted? = calls.filterMap accepted? := by
  induction calls with
  | nil => rfl
  | cons c calls ih =>
    rw [List.flatMap_cons, List.filterMap_append, ih, withFlush, List.filterMap_cons]
    cases hc : c.accepted? with
    | none => simp [hc]
    | some b =>
      have hf : (flush .done).accepted? = none := rfl
      simp [hc, hf]

theorem countP_withFlush (calls : List Call) (p : Call → Bool) :
    (calls.flatMap withFlush).countP p =
      calls.countP p + if p (.flush .done) then (calls.filterMap accepted?).length else 0 := by
  induction calls with
  | nil => simp
  | cons c calls ih =>
    rw [List.flatMap_cons, List.countP_append, ih, withFlush, List.filterMap_cons,
      List.countP_cons]
    cases hc : c.accepted? <;> cases hp : p (.flush .done) <;>
      simp [hp, List.countP_cons] <;> omega

end Call

namespace Streams

variable {s u : Streams}

/-- The same streams with flushes that never fail, but the second ones have been flushed after every
byte. -/
structure FlushedEach (s u : Streams) : Prop where
  input : u.input = s.input
  writes : u.writes = s.writes
  done : ∀ a ∈ s.flushes ++ u.flushes, a = .done
  calls : u.calls.toList = s.calls.toList.flatMap Call.withFlush

namespace FlushedEach

variable (h : FlushedEach s u)

include h

theorem output : u.output = s.output := by
  rw [Streams.output, h.calls, Call.filterMap_accepted?_withFlush, Streams.output]

theorem consumed : u.consumed = s.consumed := by
  rw [Streams.consumed, ← Array.countP_toList, h.calls, Call.countP_withFlush,
    Array.countP_toList, Streams.consumed]
  rfl

theorem writeCount : u.writeCount = s.writeCount := by
  rw [Streams.writeCount, ← Array.countP_toList, h.calls, Call.countP_withFlush,
    Array.countP_toList, Streams.writeCount]
  rfl

/-- As many more flushes as bytes have been accepted. -/
theorem flushCount : u.flushCount = s.flushCount + s.output.length := by
  rw [Streams.flushCount, ← Array.countP_toList, h.calls, Call.countP_withFlush,
    Array.countP_toList, Streams.flushCount, Streams.output]
  rfl

theorem flushAnswer : s.flushAnswer = .done ∧ u.flushAnswer = .done :=
  ⟨flushAnswer_of_done fun a ha => h.done a (List.mem_append_left _ ha),
    flushAnswer_of_done fun a ha => h.done a (List.mem_append_right _ ha)⟩

theorem readAnswer : u.readAnswer = s.readAnswer := by
  rw [Streams.readAnswer, Streams.readAnswer, h.input]

theorem writeAnswer : u.writeAnswer = s.writeAnswer := by
  rw [Streams.writeAnswer, Streams.writeAnswer, h.writes]

theorem read : FlushedEach s.read.2 u.read.2 where
  input := by rw [input_read, input_read, h.input]
  writes := h.writes
  done := h.done
  calls := by
    have hr : ∀ a, (Call.read a).withFlush = [Call.read a] := fun _ => rfl
    rw [calls_read, calls_read, h.calls, h.input, h.readAnswer, List.flatMap_append,
      List.flatMap_map]
    simp only [hr, ← List.map_eq_flatMap]

theorem flush : u.flush.1 = s.flush.1 ∧ FlushedEach s.flush.2 u.flush.2 := by
  obtain ⟨hs, hu⟩ := h.flushAnswer
  refine ⟨by rw [fst_flush, fst_flush, hs, hu], ⟨?_, ?_, ?_, ?_⟩⟩
  · rw [input_flush, input_flush, h.input]
  · rw [writes_flush, writes_flush, h.writes]
  · intro a ha
    rw [flushes_flush, flushes_flush] at ha
    exact h.done a (((List.tail_sublist _).append (List.tail_sublist _)).subset ha)
  · rw [flush_eq, flush_eq, Array.toList_push, Array.toList_push, h.calls, hs, hu,
      List.flatMap_append]
    rfl

theorem calls_write (b : UInt8) :
    (s.write b).2.calls.toList.flatMap Call.withFlush =
      (u.write b).2.calls.toList ++
        if s.writeAnswer.error? = none then [.flush .done] else [] := by
  have hr : ∀ a ∈ (s.writes.takeWhile WriteEvent.isRetried).map (Call.write b),
      Call.withFlush a = [a] := by
    intro c hc
    obtain ⟨a, ha, rfl⟩ := List.mem_map.1 hc
    have ha := List.mem_takeWhile_imp ha
    refine Call.withFlush_of_none ?_
    cases a <;> simp_all [WriteEvent.isRetried, Call.accepted?]
  have ha : (Call.write b s.writeAnswer).withFlush = Call.write b s.writeAnswer ::
      if s.writeAnswer.error? = none then [.flush .done] else [] := by
    cases s.writeAnswer <;> rfl
  rw [Streams.calls_write, Streams.calls_write, h.calls, h.writes, h.writeAnswer, List.map_append,
    List.flatMap_append, List.flatMap_append, List.flatMap_congr hr, List.flatMap_singleton',
    List.map_singleton, List.flatMap_singleton, ha]
  simp

/-- The flush behind a byte is all that a machine does more that flushes after every byte. -/
theorem put (b : UInt8) :
    (u.put true b).1 = (s.put false b).1 ∧
      FlushedEach (s.put false b).2 (u.put true b).2 := by
  obtain ⟨hs, hu⟩ := h.flushAnswer
  refine ⟨?_, ⟨?_, ?_, ?_, ?_⟩⟩
  · rw [fst_put, fst_put, h.writeAnswer, hu]
    simp [FlushEvent.error?]
  · rw [input_put, input_put, h.input]
  · rw [writes_put, writes_put, h.writes]
  · intro a ha
    rw [flushes_put, flushes_put] at ha
    refine h.done a ((List.Sublist.append ?_ ?_).subset ha)
    · simp
    · split
      · exact List.tail_sublist _
      · exact .refl _
  · have hs' : (s.put false b).2 = (s.write b).2 := by simp [snd_put]
    rw [hs', h.calls_write, snd_put, h.writeAnswer]
    by_cases ha : s.writeAnswer.error? = none
    · have hf : (u.write b).2.flushAnswer = .done := hu
      rw [if_pos ⟨rfl, ha⟩, if_pos ha, flush_eq, Array.toList_push, hf]
    · rw [if_neg fun hc => ha hc.2, if_neg ha, List.append_nil]

end FlushedEach

theorem lockstep_flushedEach : Lockstep false true FlushedEach fun _ _ _ => False where
  read s u h := .inr ⟨by rw [fst_read, fst_read, h.readAnswer], h.read⟩
  put s u b h := .inr (h.put b)

theorem flushedEach_self (hf : ∀ a ∈ s.flushes, a = .done) (hc : s.calls = #[]) :
    FlushedEach s s where
  input := rfl
  writes := rfl
  done a ha := hf a (by simpa using ha)
  calls := by rw [hc]; rfl

end Streams

/-- The second run ends like the first, after the same calls with a flush behind every byte that was
accepted. -/
structure Run.FlushedEach (r r' : Run) : Prop where
  error? : r'.error? = r.error?
  events : r'.events = r.events
  tape : r'.machine.tape = r.machine.tape
  dp : r'.machine.dp = r.machine.dp
  ip : r'.machine.ip = r.machine.ip
  calls : r'.machine.streams.calls.toList =
    r.machine.streams.calls.toList.flatMap Call.withFlush
  output : r'.machine.streams.output = r.machine.streams.output
  consumed : r'.machine.streams.consumed = r.machine.streams.consumed
  writeCount : r'.machine.streams.writeCount = r.machine.streams.writeCount
  flushCount : r'.machine.streams.flushCount =
    r.machine.streams.flushCount + r.machine.streams.output.length

theorem Streams.FlushedEach.run {r : Run} {u : Streams} (h : FlushedEach r.machine.streams u) :
    r.FlushedEach (r.withStreams u) where
  error? := rfl
  events := rfl
  tape := rfl
  dp := rfl
  ip := rfl
  calls := h.calls
  output := h.output
  consumed := h.consumed
  writeCount := h.writeCount
  flushCount := h.flushCount

/-- If no flush fails, then the flag that asks for a flush behind every byte changes the flushes
only. -/
theorem flushing_each_byte_is_invisible (p : Program) (input : List ReadEvent)
    (writes : List WriteEvent) (flushes : List FlushEvent) (hf : ∀ a ∈ flushes, a = .done) :
    (∀ rs, p.Session false (.onStreams { input, writes, flushes }) rs →
      ∃ rs', p.Session true (.onStreams { input, writes, flushes }) rs' ∧
        List.Forall₂ Run.FlushedEach rs rs') ∧
    ∀ rs', p.Session true (.onStreams { input, writes, flushes }) rs' →
      ∃ rs, p.Session false (.onStreams { input, writes, flushes }) rs ∧
        List.Forall₂ Run.FlushedEach rs rs' := by
  have hstart : Streams.FlushedEach { input, writes, flushes } { input, writes, flushes } :=
    Streams.flushedEach_self hf rfl
  exact Streams.lockstep_flushedEach.sessions (m := .onStreams { input, writes, flushes })
    (fun _ _ h => h.flush) (fun _ _ h => h.run) hstart

/-- A write that fails at its second byte, and the run after it. -/
theorem flushing_each_byte_is_invisible_partway :
    let p : Program := #[{ opcode := .write, value := 2 }]
    let e : StreamError := ⟨.other, "broken pipe"⟩
    let writes : List WriteEvent := [.accept, .fail e]
    (∀ a ∈ ([.done] : List FlushEvent), a = .done) ∧
      ∃ r₁ r₂ r₁' r₂', p.Session false (.onStreams { writes, flushes := [.done] }) [r₁, r₂] ∧
        p.Session true (.onStreams { writes, flushes := [.done] }) [r₁', r₂'] ∧
        r₁.error? = some (.stream e) ∧ r₂.error? = none ∧
        r₂.machine.streams.output = [0, 0, 0] ∧ r₂.machine.streams.flushCount = 2 ∧
        r₂'.machine.streams.flushCount = 5 ∧ r₁.FlushedEach r₁' ∧ r₂.FlushedEach r₂' := by
  intro p e writes
  have hf : ∀ a ∈ ([.done] : List FlushEvent), a = .done := by simp
  have hruns : (p.run false 10 (.onStreams { writes, flushes := [.done] })).bind (fun r₁ =>
      (p.run false 10 r₁.machine).map fun r₂ =>
        (r₁.error?, r₂.error?, r₂.machine.streams.output, r₂.machine.streams.flushCount)) =
      some (some (.stream e), none, [0, 0, 0], 2) := by decide
  obtain ⟨r₁, hr₁, hruns⟩ := Option.bind_eq_some_iff.1 hruns
  obtain ⟨r₂, hr₂, heq⟩ := Option.map_eq_some_iff.1 hruns
  simp only [Prod.mk.injEq] at heq
  obtain ⟨he₁, he₂, hout, hcount⟩ := heq
  have hs : p.Session false (.onStreams { writes, flushes := [.done] }) [r₁, r₂] :=
    ⟨⟨10, hr₁⟩, ⟨10, hr₂⟩, trivial⟩
  obtain ⟨rs', hrs', hall⟩ := (flushing_each_byte_is_invisible p [] writes [.done] hf).1 _ hs
  obtain ⟨r₁', _, h₁, htail, rfl⟩ := List.forall₂_cons_left_iff.1 hall
  obtain ⟨r₂', _, h₂, hnil, rfl⟩ := List.forall₂_cons_left_iff.1 htail
  obtain rfl := List.forall₂_nil_left_iff.1 hnil
  refine ⟨hf, r₁, r₂, r₁', r₂', hs, hrs', he₁, he₂, hout, hcount, ?_, h₁, h₂⟩
  rw [h₂.flushCount, hcount, hout]
  rfl

end Brainfuck
