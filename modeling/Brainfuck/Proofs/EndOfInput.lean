import Brainfuck.Proofs.Causes
import Brainfuck.Proofs.Truncation

/-! # The end of input

A read that comes to the end of input gives zero and succeeds, so a program cannot tell it from a
zero byte. All that differs is how many bytes count as read. The end of input is one answer of the
script like any other: the next read goes on behind it.
-/

namespace Brainfuck

namespace ReadEvent

/-- The two ways in which a reader reports the end of input. -/
def isEnd : ReadEvent → Bool
  | byte _ => false
  | endOfInput => true
  | fail e => e.kind = .unexpectedEof

def IsZero (a : ReadEvent) : Prop :=
  a = byte 0 ∨ a.isEnd

/-- The two answers are the same, or each of them is a zero byte or the end of input. -/
inductive Alike : ReadEvent → ReadEvent → Prop where

  | same (a : ReadEvent) : Alike a a

  | zero {a a' : ReadEvent} : a.IsZero → a'.IsZero → Alike a a'

variable {a a' : ReadEvent} {e : StreamError}

theorem IsZero.isRetried (h : a.IsZero) : a.isRetried = false := by
  rcases h with rfl | h
  · rfl
  · cases a with
    | fail e => simp_all [isEnd, ReadEvent.isRetried, StreamError.isInterrupted]
    | _ => rfl

theorem IsZero.result (h : a.IsZero) : a.result = .ok 0 := by
  rcases h with rfl | h
  · rfl
  · cases a with
    | byte b => cases h
    | endOfInput => rfl
    | fail e => simp_all [isEnd, ReadEvent.result]

theorem not_isEnd_of_hardError? (h : a.hardError? = some e) : ¬ a.isEnd := by
  intro ha
  have hz : a.IsZero := .inr ha
  have hr := result_of_hardError? h
  rw [hz.result] at hr
  cases hr

theorem Alike.isRetried_eq (h : Alike a a') : a'.isRetried = a.isRetried := by
  cases h with
  | same => rfl
  | zero ha ha' => rw [ha.isRetried, ha'.isRetried]

theorem Alike.result_eq (h : Alike a a') : a'.result = a.result := by
  cases h with
  | same => rfl
  | zero ha ha' => rw [ha.result, ha'.result]

end ReadEvent

namespace Streams

variable {flushEach : Bool} {s u : Streams} {input input' : List ReadEvent}

/-! ## Writes and flushes -/

def outputCalls (s : Streams) : List Call :=
  s.calls.toList.filter fun c => c.isWrite || c.isFlush

@[simp] theorem outputCalls_read (s : Streams) : s.read.2.outputCalls = s.outputCalls := by
  rw [outputCalls, calls_read, List.filter_append, List.filter_map]
  simp [outputCalls, Function.comp_def, Call.isWrite, Call.isFlush]

theorem outputCalls_flush (s : Streams) :
    s.flush.2.outputCalls = s.outputCalls ++ [.flush s.flushAnswer] := by
  rw [flush_eq]
  simp [outputCalls, Call.isFlush]

theorem outputCalls_put (s : Streams) (flushEach : Bool) (b : UInt8) :
    (s.put flushEach b).2.outputCalls =
      s.outputCalls ++
        ((s.writes.takeWhile WriteEvent.isRetried ++ [s.writeAnswer]).map (Call.write b) ++
          if flushEach ∧ s.writeAnswer.error? = none then [.flush s.flushAnswer] else []) := by
  have hw : (s.write b).2.outputCalls = s.outputCalls ++
      (s.writes.takeWhile WriteEvent.isRetried ++ [s.writeAnswer]).map (Call.write b) := by
    rw [outputCalls, calls_write, List.filter_append, List.filter_map]
    simp [outputCalls, Function.comp_def, Call.isWrite]
  rw [snd_put]
  split
  · rw [outputCalls_flush, hw, List.append_assoc]
    rfl
  · rw [hw, List.append_nil]

theorem output_eq_filterMap (s : Streams) : s.output = s.outputCalls.filterMap Call.accepted? := by
  rw [output, outputCalls, List.filterMap_filter]
  refine List.filterMap_congr fun c _ => ?_
  cases c <;> rfl

theorem writeCount_eq_countP (s : Streams) : s.writeCount = s.outputCalls.countP Call.isWrite := by
  rw [writeCount, outputCalls, List.countP_filter, ← Array.countP_toList]
  refine List.countP_congr fun c _ => ?_
  cases c <;> simp [Call.isWrite]

theorem flushCount_eq_countP (s : Streams) : s.flushCount = s.outputCalls.countP Call.isFlush := by
  rw [flushCount, outputCalls, List.countP_filter, ← Array.countP_toList]
  refine List.countP_congr fun c _ => ?_
  cases c <;> simp [Call.isFlush]

/-! ## Inputs that read as the same bytes -/

/-- All reads come to the same bytes and errors on both, and the writers are the same. -/
structure SameInput (s u : Streams) : Prop where
  reads : ∀ j, (u.nthRead j).result = (s.nthRead j).result
  writes : u.writes = s.writes
  flushes : u.flushes = s.flushes
  outputCalls : u.outputCalls = s.outputCalls

namespace SameInput

theorem fst_read (h : SameInput s u) : u.read.1 = s.read.1 := by
  rw [Streams.fst_read, Streams.fst_read, readAnswer_eq_nthRead, readAnswer_eq_nthRead, h.reads]

theorem read (h : SameInput s u) : SameInput s.read.2 u.read.2 where
  reads j := by rw [nthRead_read, nthRead_read, h.reads]
  writes := h.writes
  flushes := h.flushes
  outputCalls := by rw [outputCalls_read, outputCalls_read, h.outputCalls]

theorem writeAnswer (h : SameInput s u) : u.writeAnswer = s.writeAnswer := by
  rw [Streams.writeAnswer, Streams.writeAnswer, h.writes]

theorem flushAnswer (h : SameInput s u) : u.flushAnswer = s.flushAnswer := by
  rw [Streams.flushAnswer, Streams.flushAnswer, h.flushes]

theorem put (h : SameInput s u) (flushEach : Bool) (b : UInt8) :
    SameInput (s.put flushEach b).2 (u.put flushEach b).2 where
  reads j := by rw [nthRead_put, nthRead_put, h.reads]
  writes := by rw [writes_put, writes_put, h.writes]
  flushes := by rw [flushes_put, flushes_put, h.writeAnswer, h.flushes]
  outputCalls := by
    rw [outputCalls_put, outputCalls_put, h.outputCalls, h.writes, h.writeAnswer, h.flushAnswer]

theorem flush (h : SameInput s u) :
    u.flush.1 = s.flush.1 ∧ SameInput s.flush.2 u.flush.2 := by
  refine ⟨by rw [fst_flush, fst_flush, h.flushAnswer], ⟨fun j => ?_, ?_, ?_, ?_⟩⟩
  · simpa [nthRead] using h.reads j
  · rw [writes_flush, writes_flush, h.writes]
  · rw [flushes_flush, flushes_flush, h.flushes]
  · rw [outputCalls_flush, outputCalls_flush, h.outputCalls, h.flushAnswer]

end SameInput

theorem lockstep_sameInput (flushEach : Bool) :
    Lockstep flushEach flushEach SameInput fun _ _ _ => False where
  read s u h := .inr ⟨h.fst_read, h.read⟩
  put s u b h :=
    .inr ⟨by rw [fst_put, fst_put, h.writeAnswer, h.flushAnswer], h.put flushEach b⟩

/-- Behind the end of a script there are ends of input only, so zero bytes may follow it. -/
theorem sameInput_start (h : List.Forall₂ ReadEvent.Alike input input') (n : Nat)
    (writes : List WriteEvent) (flushes : List FlushEvent) :
    SameInput { input, writes, flushes }
      { input := input' ++ List.replicate n (.byte 0), writes, flushes } where
  reads j := by
    simp only [nthRead, readAnswers]
    induction h generalizing j with
    | nil =>
      have hf : (List.replicate n (ReadEvent.byte 0)).filter (!·.isRetried) =
          List.replicate n (.byte 0) := List.filter_replicate_of_pos rfl
      rw [List.nil_append, hf, List.filter_nil, List.getD_nil, List.getD_eq_getElem?_getD,
        List.getElem?_replicate]
      split <;> rfl
    | @cons a a' q q' ha _ ih =>
      rw [List.cons_append, List.filter_cons, List.filter_cons, ha.isRetried_eq]
      split
      · cases j with
        | zero => exact ha.result_eq
        | succ j => exact ih j
      · exact ih j
  writes := rfl
  flushes := rfl
  outputCalls := rfl

/-! ## The order of reads -/

def reads (s : Streams) : List ReadEvent :=
  s.calls.toList.filterMap fun
    | .read a => some a
    | _ => none

/-- Reads have got the first answers of the script, and the others are still to come; behind the
script there is the end of input over and over again. -/
def ReadsInOrder (script : List ReadEvent) (s : Streams) : Prop :=
  s.reads ++ s.input = script ∨
    s.input = [] ∧ ∃ n, s.reads = script ++ List.replicate n .endOfInput

theorem reads_read (s : Streams) :
    s.read.2.reads = s.reads ++ (s.input.takeWhile ReadEvent.isRetried ++ [s.readAnswer]) := by
  rw [reads, calls_read, List.filterMap_append, List.filterMap_map]
  simp [reads]

@[simp] theorem reads_flush (s : Streams) : s.flush.2.reads = s.reads := by
  rw [flush_eq]
  simp [reads]

@[simp] theorem reads_put (s : Streams) (flushEach : Bool) (b : UInt8) :
    (s.put flushEach b).2.reads = s.reads := by
  have hw : (s.write b).2.reads = s.reads := by
    rw [reads, calls_write, List.filterMap_append, List.filterMap_map]
    simp [reads]
  rw [snd_put]
  split <;> simp [hw]

theorem kept_readsInOrder (flushEach : Bool) (script : List ReadEvent) :
    Kept flushEach (ReadsInOrder script) where
  read s h := by
    rw [ReadsInOrder, reads_read, input_read, readAnswer]
    have hs := List.takeWhile_append_dropWhile (p := ReadEvent.isRetried) (l := s.input)
    cases hd : s.input.dropWhile ReadEvent.isRetried with
    | nil =>
      -- The queue is used up, and the answer is one more end of input behind the script.
      rw [hd, List.append_nil] at hs
      rw [hs]
      rcases h with h | ⟨hi, n, h⟩
      · refine .inr ⟨rfl, 1, ?_⟩
        rw [← List.append_assoc, h]
        rfl
      · refine .inr ⟨rfl, n + 1, ?_⟩
        rw [hi, h, List.replicate_succ', List.append_assoc]
        rfl
    | cons a rest =>
      rcases h with h | ⟨hi, -⟩
      · refine .inl ?_
        rw [hd] at hs
        rw [← h]
        simpa using hs
      · simp [hi] at hd
  put s b h := by rwa [ReadsInOrder, reads_put, input_put]

/-- After as many ends of input as there are, a read gets the byte behind them. -/
theorem readMany_of_isEnd {ends rest : List ReadEvent} {b : UInt8}
    (hi : s.input = ends ++ .byte b :: rest) (he : ∀ a ∈ ends, a.isEnd) (last : UInt8) :
    ∃ u, s.readMany (ends.length + 1) last = (none, b, u) ∧ u.input = rest := by
  induction ends generalizing s last with
  | nil =>
    have hr : s.read = (.ok b, s.read.2) := by
      refine Prod.ext ?_ rfl
      rw [fst_read, readAnswer, hi]
      rfl
    refine ⟨s.read.2, ?_, ?_⟩
    · rw [List.length_nil, Nat.zero_add, readMany, hr]
      rfl
    · rw [input_read, hi]
      rfl
  | cons a ends ih =>
    obtain ⟨ha, he⟩ := List.forall_mem_cons.1 he
    have hz : a.IsZero := .inr ha
    have hd : s.input.dropWhile ReadEvent.isRetried = a :: (ends ++ .byte b :: rest) := by
      rw [hi, List.cons_append, List.dropWhile_cons_of_neg]
      simp [hz.isRetried]
    have hr : s.read = (.ok 0, s.read.2) := by
      refine Prod.ext ?_ rfl
      rw [fst_read, readAnswer, hd]
      exact hz.result
    have hi' : s.read.2.input = ends ++ .byte b :: rest := by rw [input_read, hd, List.tail_cons]
    obtain ⟨u, hu, hrest⟩ := ih hi' he 0
    refine ⟨u, ?_, hrest⟩
    rw [List.length_cons, readMany, hr]
    exact hu

end Streams

/-- The runs end alike. The count of the bytes that were read may differ. -/
structure Run.SameButConsumed (r r' : Run) : Prop where
  error? : r'.error? = r.error?
  events : r'.events = r.events
  tape : r'.machine.tape = r.machine.tape
  dp : r'.machine.dp = r.machine.dp
  ip : r'.machine.ip = r.machine.ip
  outputCalls : r'.machine.streams.outputCalls = r.machine.streams.outputCalls
  output : r'.machine.streams.output = r.machine.streams.output
  writeCount : r'.machine.streams.writeCount = r.machine.streams.writeCount
  flushCount : r'.machine.streams.flushCount = r.machine.streams.flushCount

theorem Streams.SameInput.sameButConsumed {r : Run} {u : Streams}
    (h : SameInput r.machine.streams u) : r.SameButConsumed (r.withStreams u) where
  error? := rfl
  events := rfl
  tape := rfl
  dp := rfl
  ip := rfl
  outputCalls := h.outputCalls
  output := by
    rw [output_eq_filterMap, output_eq_filterMap, ← h.outputCalls]
    rfl
  writeCount := by
    rw [writeCount_eq_countP, writeCount_eq_countP, ← h.outputCalls]
    rfl
  flushCount := by
    rw [flushCount_eq_countP, flushCount_eq_countP, ← h.outputCalls]
    rfl

/-- End of input and zero bytes are the same to every session. In the third part a run fails for a
stream only if it has made a call that failed, and no end of input is such a call. -/
theorem end_of_input_reads_as_zero (p : Program) (flushEach : Bool)
    {input input' : List ReadEvent} (h : List.Forall₂ ReadEvent.Alike input input') (n : Nat)
    (writes : List WriteEvent) (flushes : List FlushEvent) :
    let script := input' ++ List.replicate n (.byte 0)
    (∀ rs, p.Session flushEach (.onStreams { input, writes, flushes }) rs →
      ∃ rs', p.Session flushEach (.onStreams { input := script, writes, flushes }) rs' ∧
        List.Forall₂ Run.SameButConsumed rs rs') ∧
    (∀ rs', p.Session flushEach (.onStreams { input := script, writes, flushes }) rs' →
      ∃ rs, p.Session flushEach (.onStreams { input, writes, flushes }) rs ∧
        List.Forall₂ Run.SameButConsumed rs rs') ∧
    ∀ m, p.Reaches flushEach (.onStreams { input, writes, flushes }) m →
      (∀ r e, p.Ends flushEach m r → r.error? = some (.stream e) →
        ∃ calls, r.machine.streams.calls.toList = m.streams.calls.toList ++ calls ∧
          ∃ c ∈ calls, c.hardError? = some e ∧ ∀ a, c = .read a → ¬ a.isEnd) ∧
      m.streams.ReadsInOrder input ∧
      ∀ ends b rest last, m.streams.input = ends ++ .byte b :: rest → (∀ a ∈ ends, a.isEnd) →
        ∃ u, m.streams.readMany (ends.length + 1) last = (none, b, u) ∧ u.input = rest := by
  intro script
  have hstart := Streams.sameInput_start h n writes flushes
  obtain ⟨hthere, hback⟩ := (Streams.lockstep_sameInput flushEach).sessions
    (p := p) (m := .onStreams { input, writes, flushes }) (fun _ _ h => h.flush)
    (fun _ _ h => h.sameButConsumed) hstart
  refine ⟨hthere, hback, ?_⟩
  intro m hm
  refine ⟨?_, ?_, ?_⟩
  · intro r e hr he
    obtain ⟨calls, hcalls, c, hc, hce⟩ := hr.exists_call he
    refine ⟨calls, hcalls, c, hc, hce, ?_⟩
    rintro a rfl
    exact ReadEvent.not_isEnd_of_hardError? hce
  · refine (Streams.kept_readsInOrder flushEach input).reaches (fun s hs => ?_) hm ?_
    · rwa [Streams.ReadsInOrder, Streams.reads_flush, Streams.input_flush]
    · exact .inl rfl
  · intro ends b rest last hi he
    exact Streams.readMany_of_isEnd hi he last

/-- Two ends of input, one of either kind, before a byte, and zero bytes in their place. The byte is
read and written in both sessions. -/
theorem end_of_input_reads_as_zero_between :
    let p : Program := #[{ opcode := .read, value := 2 }, { opcode := .write, value := 1 },
      { opcode := .read, value := 1 }, { opcode := .write, value := 1 }]
    let input : List ReadEvent := [.endOfInput, .fail ⟨.unexpectedEof, "end"⟩, .byte 65]
    let input' : List ReadEvent := [.byte 0, .byte 0, .byte 65]
    List.Forall₂ ReadEvent.Alike input input' ∧
      ∃ r r', p.Session true (.onStreams { input }) [r] ∧
        p.Session true (.onStreams { input := input' ++ List.replicate 2 (.byte 0) }) [r'] ∧
        r.error? = none ∧ r.machine.streams.output = [0, 65] ∧ r.SameButConsumed r' := by
  intro p input input'
  have h : List.Forall₂ ReadEvent.Alike input input' :=
    .cons (.zero (.inr rfl) (.inl rfl)) (.cons (.zero (.inr rfl) (.inl rfl))
      (.cons (.same _) .nil))
  have hrun : (p.run true 10 (.onStreams { input })).map (fun r =>
      (r.error?, r.machine.streams.output)) = some (none, [0, 65]) := by decide
  obtain ⟨r, hr, heq⟩ := Option.map_eq_some_iff.1 hrun
  simp only [Prod.mk.injEq] at heq
  obtain ⟨he, hout⟩ := heq
  have hs : p.Session true (.onStreams { input }) [r] := ⟨⟨10, hr⟩, trivial⟩
  obtain ⟨rs', hrs', hall⟩ := (end_of_input_reads_as_zero p true h 2 [] []).1 _ hs
  obtain ⟨r', rs', hrr', hnil, rfl⟩ := List.forall₂_cons_left_iff.1 hall
  obtain rfl := List.forall₂_nil_left_iff.1 hnil
  exact ⟨h, r, r', hs, hrs', he, hout, hrr'⟩

end Brainfuck
