import Mathlib.Data.List.Forall2
import Brainfuck.Proofs.Lockstep

/-! # Interruptions

An interrupted call is made again and comes to the same answer as if it had not been interrupted.
So a program cannot tell whether there are interruptions in its queues, and all that they leave
behind is the count of the write calls.
-/

namespace Brainfuck

/-- The second list is the first with elements put in anywhere, all of which are skipped. -/
inductive Padded {α : Type} (skip : α → Bool) : List α → List α → Prop where

  | nil : Padded skip [] []

  | keep {q q' : List α} (a : α) : Padded skip q q' → Padded skip (a :: q) (a :: q')

  | insert {q q' : List α} {a : α} : skip a → Padded skip q q' → Padded skip q (a :: q')

namespace Padded

variable {α : Type} {skip : α → Bool} {q q' r r' : List α}

theorem append (h : Padded skip q q') (hr : Padded skip r r') :
    Padded skip (q ++ r) (q' ++ r') := by
  induction h with
  | nil => exact hr
  | keep a _ ih => exact .keep a ih
  | insert ha _ ih => exact .insert ha ih

theorem takeWhile (h : Padded skip q q') : Padded skip (q.takeWhile skip) (q'.takeWhile skip) := by
  induction h with
  | nil => exact .nil
  | keep a _ ih =>
    by_cases ha : skip a
    · simp only [List.takeWhile_cons, ha, if_true]
      exact .keep a ih
    · simp only [List.takeWhile_cons, ha]
      exact .nil
  | insert ha _ ih =>
    simp only [List.takeWhile_cons, ha, if_true]
    exact .insert ha ih

/-- The first elements that are not skipped are the same. -/
theorem dropWhile_cases (h : Padded skip q q') :
    (q.dropWhile skip = [] ∧ q'.dropWhile skip = []) ∨
    ∃ a r r', q.dropWhile skip = a :: r ∧ q'.dropWhile skip = a :: r' ∧ Padded skip r r' := by
  induction h with
  | nil => exact .inl ⟨rfl, rfl⟩
  | @keep q q' a h ih =>
    by_cases ha : skip a
    · simpa only [List.dropWhile_cons, ha, if_true] using ih
    · simp only [List.dropWhile_cons, ha]
      exact .inr ⟨a, q, q', rfl, rfl, h⟩
  | insert ha _ ih => simpa only [List.dropWhile_cons, ha, if_true] using ih

theorem tail_dropWhile (h : Padded skip q q') :
    Padded skip (q.dropWhile skip).tail (q'.dropWhile skip).tail := by
  rcases h.dropWhile_cases with ⟨hq, hq'⟩ | ⟨a, r, r', hq, hq', hr⟩
  · rw [hq, hq']
    exact .nil
  · rwa [hq, hq']

/-- The elements up to and with the first that is not skipped. -/
theorem exists_used (h : Padded skip q q') :
    ∃ used used', q = used ++ (q.dropWhile skip).tail ∧ q' = used' ++ (q'.dropWhile skip).tail ∧
      Padded skip used used' ∧
        (q'.takeWhile skip).length + used.length = (q.takeWhile skip).length + used'.length := by
  have hs := List.takeWhile_append_dropWhile (p := skip) (l := q)
  have hs' := List.takeWhile_append_dropWhile (p := skip) (l := q')
  rcases h.dropWhile_cases with ⟨hq, hq'⟩ | ⟨a, r, r', hq, hq', -⟩
  · rw [hq, List.append_nil] at hs
    rw [hq', List.append_nil] at hs'
    refine ⟨q, q', by simp [hq], by simp [hq'], h, ?_⟩
    rw [hs, hs', Nat.add_comm]
  · rw [hq] at hs
    rw [hq'] at hs'
    refine ⟨q.takeWhile skip ++ [a], q'.takeWhile skip ++ [a], ?_, ?_,
      h.takeWhile.append (.keep a .nil), ?_⟩
    · rw [hq, List.append_assoc]
      exact hs.symm
    · rw [hq', List.append_assoc]
      exact hs'.symm
    · simp only [List.length_append, List.length_singleton]
      omega

end Padded

namespace Streams

variable {flushEach : Bool} {s u : Streams} {writes writes' : List WriteEvent}

/-- The same streams, but for interruptions that were put into the queues of the second. The write
queues were `writes` and `writes'` at first, and of these some part has been used. -/
structure Interrupted (writes writes' : List WriteEvent) (s u : Streams) : Prop where
  input : Padded ReadEvent.isRetried s.input u.input
  rest : Padded WriteEvent.isRetried s.writes u.writes
  used : ∃ used used', writes = used ++ s.writes ∧ writes' = used' ++ u.writes ∧
    Padded WriteEvent.isRetried used used' ∧
      u.writeCount + used.length = s.writeCount + used'.length
  flushes : u.flushes = s.flushes
  output : u.output = s.output
  consumed : u.consumed = s.consumed
  flushCount : u.flushCount = s.flushCount

namespace Interrupted

theorem readAnswer (h : Interrupted writes writes' s u) : u.readAnswer = s.readAnswer := by
  rcases h.input.dropWhile_cases with ⟨hs, hu⟩ | ⟨a, r, r', hs, hu, -⟩ <;>
    simp [Streams.readAnswer, hs, hu]

theorem writeAnswer (h : Interrupted writes writes' s u) : u.writeAnswer = s.writeAnswer := by
  rcases h.rest.dropWhile_cases with ⟨hs, hu⟩ | ⟨a, r, r', hs, hu, -⟩ <;>
    simp [Streams.writeAnswer, hs, hu]

theorem flushAnswer (h : Interrupted writes writes' s u) : u.flushAnswer = s.flushAnswer := by
  rw [Streams.flushAnswer, Streams.flushAnswer, h.flushes]

theorem read (h : Interrupted writes writes' s u) :
    Interrupted writes writes' s.read.2 u.read.2 where
  input := by
    rw [input_read, input_read]
    exact h.input.tail_dropWhile
  rest := h.rest
  used := by
    simp only [writes_read, writeCount_read]
    exact h.used
  flushes := h.flushes
  output := by rw [output_read, output_read, h.output]
  consumed := by rw [consumed_read, consumed_read, h.consumed, h.readAnswer]
  flushCount := by rw [flushCount_read, flushCount_read, h.flushCount]

theorem put (h : Interrupted writes writes' s u) (b : UInt8) :
    Interrupted writes writes' (s.put flushEach b).2 (u.put flushEach b).2 where
  input := by
    rw [input_put, input_put]
    exact h.input
  rest := by
    rw [writes_put, writes_put]
    exact h.rest.tail_dropWhile
  used := by
    obtain ⟨used, used', hw, hw', hp, hn⟩ := h.used
    obtain ⟨more, more', hs, hu, hp', hn'⟩ := h.rest.exists_used
    rw [writes_put, writes_put, writeCount_put, writeCount_put]
    refine ⟨used ++ more, used' ++ more', ?_, ?_, hp.append hp', ?_⟩
    · rw [List.append_assoc, ← hs, hw]
    · rw [List.append_assoc, ← hu, hw']
    · simp only [List.length_append]
      omega
  flushes := by rw [flushes_put, flushes_put, h.writeAnswer, h.flushes]
  output := by rw [output_put, output_put, h.writeAnswer, h.output]
  consumed := by rw [consumed_put, consumed_put, h.consumed]
  flushCount := by rw [flushCount_put, flushCount_put, h.writeAnswer, h.flushCount]

theorem flush (h : Interrupted writes writes' s u) :
    Interrupted writes writes' s.flush.2 u.flush.2 where
  input := by
    rw [input_flush, input_flush]
    exact h.input
  rest := by
    rw [writes_flush, writes_flush]
    exact h.rest
  used := by
    simp only [writes_flush, writeCount_flush]
    exact h.used
  flushes := by rw [flushes_flush, flushes_flush, h.flushes]
  output := by rw [output_flush, output_flush, h.output]
  consumed := by rw [consumed_flush, consumed_flush, h.consumed]
  flushCount := by rw [flushCount_flush, flushCount_flush, h.flushCount]

theorem fst_flush_eq (h : Interrupted writes writes' s u) : u.flush.1 = s.flush.1 := by
  rw [fst_flush, fst_flush, h.flushAnswer]

end Interrupted

theorem lockstep_interrupted (flushEach : Bool) (writes writes' : List WriteEvent) :
    Lockstep flushEach flushEach (Interrupted writes writes') fun _ _ _ => False where
  read s u h := .inr ⟨by rw [fst_read, fst_read, h.readAnswer], h.read⟩
  put s u b h :=
    .inr ⟨by rw [fst_put, fst_put, h.writeAnswer, h.flushAnswer], h.put b⟩

theorem interrupted_start {input input' : List ReadEvent} (flushes : List FlushEvent)
    (hi : Padded ReadEvent.isRetried input input')
    (hw : Padded WriteEvent.isRetried writes writes') :
    Interrupted writes writes' { input, writes, flushes }
      { input := input', writes := writes', flushes } where
  input := hi
  rest := hw
  used := ⟨[], [], rfl, rfl, .nil, rfl⟩
  flushes := rfl
  output := rfl
  consumed := rfl
  flushCount := rfl

end Streams

/-- The second run ends like the first, but with interruptions in its queues: its write queue was
`writes'` at first, that of the other was `writes`. It has made one more write call for every event
that was put into the part of the queue that has been used. -/
structure Run.IsInterrupted (writes writes' : List WriteEvent) (r r' : Run) : Prop where
  error? : r'.error? = r.error?
  events : r'.events = r.events
  tape : r'.machine.tape = r.machine.tape
  dp : r'.machine.dp = r.machine.dp
  ip : r'.machine.ip = r.machine.ip
  output : r'.machine.streams.output = r.machine.streams.output
  consumed : r'.machine.streams.consumed = r.machine.streams.consumed
  flushCount : r'.machine.streams.flushCount = r.machine.streams.flushCount
  rest : Padded WriteEvent.isRetried r.machine.streams.writes r'.machine.streams.writes
  writeCount : ∃ used used', writes = used ++ r.machine.streams.writes ∧
    writes' = used' ++ r'.machine.streams.writes ∧ Padded WriteEvent.isRetried used used' ∧
      r'.machine.streams.writeCount + used.length = r.machine.streams.writeCount + used'.length

theorem Streams.Interrupted.isInterrupted {writes writes' : List WriteEvent} {r : Run}
    {u : Streams} (h : Interrupted writes writes' r.machine.streams u) :
    r.IsInterrupted writes writes' (r.withStreams u) where
  error? := rfl
  events := rfl
  tape := rfl
  dp := rfl
  ip := rfl
  output := h.output
  consumed := h.consumed
  flushCount := h.flushCount
  rest := h.rest
  writeCount := h.used

/-- Whatever interruptions are put into the queues of reads and writes, the same sessions are
possible. -/
theorem interruptions_are_invisible (p : Program) (flushEach : Bool)
    {input input' : List ReadEvent} {writes writes' : List WriteEvent}
    (flushes : List FlushEvent) (hi : Padded ReadEvent.isRetried input input')
    (hw : Padded WriteEvent.isRetried writes writes') :
    (∀ rs, p.Session flushEach (.onStreams { input, writes, flushes }) rs →
      ∃ rs', p.Session flushEach (.onStreams { input := input', writes := writes', flushes }) rs' ∧
        List.Forall₂ (Run.IsInterrupted writes writes') rs rs') ∧
    ∀ rs', p.Session flushEach (.onStreams { input := input', writes := writes', flushes }) rs' →
      ∃ rs, p.Session flushEach (.onStreams { input, writes, flushes }) rs ∧
        List.Forall₂ (Run.IsInterrupted writes writes') rs rs' := by
  have hstart := Streams.interrupted_start flushes hi hw
  exact (Streams.lockstep_interrupted flushEach writes writes').sessions
    (m := .onStreams { input, writes, flushes }) (fun _ _ h => ⟨h.fst_flush_eq, h.flush⟩)
    (fun _ _ h => h.isInterrupted) hstart

/-- Interruptions before and between the calls of a read and of a write, and one that is not
used. -/
theorem interruptions_are_invisible_between :
    let p : Program := #[{ opcode := .read, value := 2 }, { opcode := .write, value := 2 }]
    let i : StreamError := ⟨.interrupted, "interrupted"⟩
    let e : StreamError := ⟨.other, "timed out"⟩
    let input : List ReadEvent := [.byte 7, .fail e]
    let input' : List ReadEvent := [.fail i, .byte 7, .fail i, .fail i, .fail e]
    let writes : List WriteEvent := [.accept, .refuse]
    let writes' : List WriteEvent := [.accept, .fail i, .refuse, .fail i]
    Padded ReadEvent.isRetried input input' ∧ Padded WriteEvent.isRetried writes writes' ∧
      ∃ rs rs', p.Session true (.onStreams { input, writes }) rs ∧
        p.Session true (.onStreams { input := input', writes := writes' }) rs' ∧
        rs.map Run.error? = [some (.stream e),
          some (.stream ⟨.other, "failed to write whole buffer"⟩)] ∧
        List.Forall₂ (Run.IsInterrupted writes writes') rs rs' := by
  intro p i e input input' writes writes'
  have hi : Padded ReadEvent.isRetried input input' :=
    .insert rfl (.keep _ (.insert rfl (.insert rfl (.keep _ .nil))))
  have hw : Padded WriteEvent.isRetried writes writes' :=
    .keep _ (.insert rfl (.keep _ (.insert rfl .nil)))
  have hruns : (p.run true 10 (.onStreams { input, writes })).bind (fun r₁ =>
      (p.run true 10 r₁.machine).map fun r₂ => (r₁.error?, r₂.error?)) =
        some (some (.stream e), some (.stream ⟨.other, "failed to write whole buffer"⟩)) := by
    decide
  obtain ⟨r₁, hr₁, hruns⟩ := Option.bind_eq_some_iff.1 hruns
  obtain ⟨r₂, hr₂, heq⟩ := Option.map_eq_some_iff.1 hruns
  simp only [Prod.mk.injEq] at heq
  obtain ⟨he₁, he₂⟩ := heq
  have hs : p.Session true (.onStreams { input, writes }) [r₁, r₂] :=
    ⟨⟨10, hr₁⟩, ⟨10, hr₂⟩, trivial⟩
  obtain ⟨rs', hrs', hall⟩ := (interruptions_are_invisible p true [] hi hw).1 _ hs
  exact ⟨hi, hw, [r₁, r₂], rs', hs, hrs', by simp [he₁, he₂], hall⟩

end Brainfuck
