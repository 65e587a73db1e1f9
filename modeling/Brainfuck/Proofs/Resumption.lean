import Brainfuck.Proofs.Lockstep

/-! # Runs that are resumed

An instruction that makes one call at most changes nothing before that call succeeds. If the call
fails, the next run makes it again and comes to the next answer. So a session goes through all hard
answers, one a run, and ends as if they had not been there.
-/

namespace Brainfuck

section Queues

variable {α : Type} {hard : α → Bool} {q : List α} {d : α}

theorem filter_of_not_hard (h : hard (q.headD d) = false) :
    (q.filter (!hard ·)).headD d = q.headD d ∧
      q.tail.filter (!hard ·) = (q.filter (!hard ·)).tail ∧
        q.tail.countP hard = q.countP hard := by
  cases q with
  | nil => exact ⟨rfl, rfl, rfl⟩
  | cons a q => simp_all

theorem filter_of_hard (h : hard (q.headD d)) (hd : hard d = false) :
    q.tail.filter (!hard ·) = q.filter (!hard ·) ∧
      q.countP hard = q.tail.countP hard + 1 := by
  cases q with
  | nil => simp_all
  | cons a q => simp_all

end Queues

/-- The second streams have hard answers in their queues, and a session on them has stopped for
`errors` so far, out of `total` in the end. Apart from that they stand where the first do. -/
structure Streams.Resumed (total : Nat) (errors : List StreamError) (s u : Streams) : Prop where
  reads : s.readAnswers = u.readAnswers.filter (!·.isHard)
  writes : s.writeAnswers = u.writeAnswers.filter (!·.isHard)
  flushes : ∀ a ∈ s.flushes ++ u.flushes, a = .done
  output : u.output = s.output
  consumed : u.consumed = s.consumed
  hardErrors : u.hardErrors = errors
  left : errors.length + u.readAnswers.countP ReadEvent.isHard +
    u.writeAnswers.countP WriteEvent.isHard = total

namespace Streams

variable {s u : Streams} {total : Nat} {errors : List StreamError} {e : StreamError}
  {op : Opcode}

theorem flushAnswer_of_done (h : ∀ a ∈ s.flushes, a = .done) : s.flushAnswer = .done := by
  cases hf : s.flushes with
  | nil => rw [flushAnswer, hf, List.headD_nil]
  | cons a rest =>
    rw [flushAnswer, hf, List.headD_cons]
    exact h a (by simp [hf])

theorem hardErrors_put_false (b : UInt8) :
    (s.put false b).2.hardErrors = s.hardErrors ++ s.writeAnswer.error?.toList := by
  simp [hardErrors_put, fst_put]

namespace Resumed

theorem read (h : Resumed total errors s u) (hn : ∀ e, ¬ u.Fault false e .read) :
    u.readAnswer = s.readAnswer ∧ Resumed total errors s.read.2 u.read.2 := by
  have he : u.readAnswer.hardError? = none :=
    Option.eq_none_iff_forall_ne_some.2 fun e he => hn e (.read he)
  have ha : ReadEvent.isHard (u.readAnswers.headD .endOfInput) = false := by
    rw [← readAnswer_eq, ReadEvent.isHard, he, Option.isSome_none]
  obtain ⟨hhead, htail, hcount⟩ := filter_of_not_hard ha
  have heq : u.readAnswer = s.readAnswer := by rw [readAnswer_eq, readAnswer_eq, h.reads, hhead]
  refine ⟨heq, ?_, h.writes, h.flushes, ?_, ?_, ?_, ?_⟩
  · rw [readAnswers_read, readAnswers_read, htail, h.reads]
  · rw [output_read, output_read, h.output]
  · rw [consumed_read, consumed_read, h.consumed, heq]
  · rw [hardErrors_read, h.hardErrors, he]
    exact List.append_nil _
  · rw [readAnswers_read, writeAnswers_read, hcount]
    exact h.left

theorem put (h : Resumed total errors s u) (hn : ∀ e, ¬ u.Fault false e .write) (b : UInt8) :
    u.writeAnswer = s.writeAnswer ∧
      Resumed total errors (s.put false b).2 (u.put false b).2 := by
  have he := error?_writeAnswer_of_not_fault hn
  have ha : WriteEvent.isHard (u.writeAnswers.headD .accept) = false := by
    rw [← writeAnswer_eq, WriteEvent.isHard,
      WriteEvent.hardError?_eq_error? u.isRetried_writeAnswer, he, Option.isSome_none]
  obtain ⟨hhead, htail, hcount⟩ := filter_of_not_hard ha
  have heq : u.writeAnswer = s.writeAnswer := by
    rw [writeAnswer_eq, writeAnswer_eq, h.writes, hhead]
  refine ⟨heq, ?_, ?_, ?_, ?_, ?_, ?_, ?_⟩
  · rw [readAnswers_put, readAnswers_put, h.reads]
  · rw [writeAnswers_put, writeAnswers_put, htail, h.writes]
  · simpa [flushes_put] using h.flushes
  · rw [output_put, output_put, h.output, heq]
  · rw [consumed_put, consumed_put, h.consumed]
  · rw [hardErrors_put_false, h.hardErrors, he]
    exact List.append_nil _
  · rw [readAnswers_put, writeAnswers_put, hcount]
    exact h.left

/-- A read that fails takes nothing from the input but the answer that makes it fail. -/
theorem read_of_hard (h : Resumed total errors s u) (he : u.readAnswer.hardError? = some e) :
    Resumed total (errors ++ [e]) s u.read.2 := by
  have ha : ReadEvent.isHard (u.readAnswers.headD .endOfInput) := by
    rw [← readAnswer_eq, ReadEvent.isHard, he, Option.isSome_some]
  obtain ⟨htail, hcount⟩ := filter_of_hard ha rfl
  refine ⟨?_, h.writes, h.flushes, ?_, ?_, ?_, ?_⟩
  · rw [readAnswers_read, htail, h.reads]
  · rw [output_read, h.output]
  · rw [consumed_read_of_hardError? he, h.consumed]
  · rw [hardErrors_read, h.hardErrors, he]
    rfl
  · have hleft := h.left
    rw [readAnswers_read, writeAnswers_read, List.length_append, List.length_singleton]
    omega

theorem put_of_error (h : Resumed total errors s u) (he : u.writeAnswer.error? = some e)
    (b : UInt8) : Resumed total (errors ++ [e]) s (u.put false b).2 := by
  have ha : WriteEvent.isHard (u.writeAnswers.headD .accept) := by
    rw [← writeAnswer_eq, WriteEvent.isHard,
      WriteEvent.hardError?_eq_error? u.isRetried_writeAnswer, he, Option.isSome_some]
  obtain ⟨htail, hcount⟩ := filter_of_hard ha rfl
  refine ⟨?_, ?_, ?_, ?_, ?_, ?_, ?_⟩
  · rw [readAnswers_put, h.reads]
  · rw [writeAnswers_put, htail, h.writes]
  · simpa [flushes_put] using h.flushes
  · rw [output_put, he, h.output]
    simp
  · rw [consumed_put, h.consumed]
  · rw [hardErrors_put_false, h.hardErrors, he]
    rfl
  · have hleft := h.left
    rw [readAnswers_put, writeAnswers_put, List.length_append, List.length_singleton]
    omega

theorem afterCall {t : State} (h : Resumed total errors s t.streams)
    (he : t.streams.Fault false e op) :
    Resumed total (errors ++ [e]) s (t.afterCall false op) := by
  cases he with
  | read he => exact h.read_of_hard he
  | write he => exact h.put_of_error he t.cell
  | flush hf => cases hf

theorem flush (h : Resumed total errors s u) :
    u.flush.1 = none ∧ Resumed total errors s u.flush.2 := by
  have hd : u.flushAnswer = .done :=
    flushAnswer_of_done fun a ha => h.flushes a (List.mem_append_right _ ha)
  refine ⟨?_, ?_, ?_, ?_, ?_, ?_, ?_, ?_⟩
  · rw [fst_flush, hd]
    rfl
  · rw [readAnswers_flush, h.reads]
  · rw [writeAnswers_flush, h.writes]
  · intro a ha
    rw [flushes_flush] at ha
    exact h.flushes a (((List.Sublist.refl _).append (List.tail_sublist _)).subset ha)
  · rw [output_flush, h.output]
  · rw [consumed_flush, h.consumed]
  · rw [hardErrors_flush, hd, h.hardErrors]
    exact List.append_nil _
  · rw [readAnswers_flush, writeAnswers_flush]
    exact h.left

end Resumed

theorem lockstep_resumed (total : Nat) (errors : List StreamError) :
    Lockstep false false (Resumed total errors) fun op _ u => ∃ e, u.Fault false e op where
  read s u h := by
    by_cases hn : ∃ e, u.Fault false e .read
    · exact .inl hn
    · obtain ⟨heq, h'⟩ := h.read (not_exists.1 hn)
      exact .inr ⟨by rw [fst_read, fst_read, heq], h'⟩
  put s u b h := by
    by_cases hn : ∃ e, u.Fault false e .write
    · exact .inl hn
    · obtain ⟨heq, h'⟩ := h.put (not_exists.1 hn) b
      exact .inr ⟨by simp [fst_put, heq], h'⟩

end Streams

/-- A session on the second machine comes to where the run on the first one ends. The induction is
on the number of hard answers that are left: at each of them a run ends, and the next one goes
on. -/
theorem Program.exists_session {p : Program} {m halt : Machine} {e? : Option RunError}
    {u : Streams} {total : Nat} {errors : List StreamError}
    (hp : ∀ i ∈ p, i.opcode = .read ∨ i.opcode = .write → i.value ≤ 1)
    (hh : p.Halts false m halt e?) (hR : Streams.Resumed total errors m.streams u) :
    ∃ rs r hard u₁, p.Session false (m.withStreams u) (rs ++ [r]) ∧
      rs.map Run.error? = hard.map (fun e => some (.stream e)) ∧ r.error? = e? ∧
        r.machine = halt.withStreams u₁ ∧
          Streams.Resumed total (errors ++ hard) halt.streams u₁ := by
  induction hn : total - errors.length using Nat.strong_induction_on generalizing m u errors with
  | h n ih =>
    obtain ⟨bound, k, hx⟩ := hh
    rcases (Streams.lockstep_resumed total errors).execute hx hR with
      ⟨op, mid, u₁, hc, hc', hR₁, e, he⟩ | ⟨u₁, hx', hR₁⟩
    · obtain ⟨k', hr⟩ := hc'.ends he
      have hs := hc.steps fun i hi hop => repetitions_le_one (hp i hi hop)
      have hR₂ := (Streams.Resumed.afterCall (t := (mid.withStreams u₁).toState) hR₁ he).flush.2
      have hleft := hR₂.left
      rw [List.length_append, List.length_singleton] at hleft
      obtain ⟨rs, r, hard, u₂, hsession, hrs, he', hm, hR₃⟩ := ih
        (total - (errors ++ [e]).length)
        (by rw [List.length_append, List.length_singleton]; omega)
        (hs.halts_iff.1 ⟨bound, k, hx⟩) hR₂ rfl
      rw [List.append_assoc] at hR₃
      exact ⟨_ :: rs, r, e :: hard, u₂, ⟨hr, hsession⟩, by simp [hrs], he', hm, hR₃⟩
    · obtain ⟨hflush, hR₂⟩ := hR₁.flush
      refine ⟨[], .finish ⟨halt.withStreams u₁, e?, k⟩, [], u₁.flush.2,
        ⟨⟨bound, Option.map_eq_some_iff.2 ⟨_, hx', rfl⟩⟩, trivial⟩, rfl, ?_, rfl, ?_⟩
      · rw [Run.finish_error?]
        simp [Machine.withStreams, hflush]
      · rwa [List.append_nil]

/-- If every read and every write makes one call at most, then runs that are made until the hard
answers are used up end as one run does on queues without hard answers. -/
theorem failures_are_resumed (p : Program)
    (hp : ∀ i ∈ p, i.opcode = .read ∨ i.opcode = .write → i.value ≤ 1)
    (input : List ReadEvent) (writes : List WriteEvent) (flushes : List FlushEvent)
    (hf : ∀ a ∈ flushes, a = .done) (r : Run)
    (hr : p.Ends false (.onStreams
      { input := input.filter (!·.isHard), writes := writes.filter (!·.isHard), flushes }) r) :
    ∃ rs r', p.Session false (.onStreams { input, writes, flushes }) (rs ++ [r']) ∧
      rs.map Run.error? = r'.machine.streams.hardErrors.map (fun e => some (.stream e)) ∧
      r'.error? = r.error? ∧ r'.machine.ip = r.machine.ip ∧ r'.machine.dp = r.machine.dp ∧
      r'.machine.tape = r.machine.tape ∧
      r'.machine.streams.output = r.machine.streams.output ∧
      r'.machine.streams.consumed = r.machine.streams.consumed := by
  obtain ⟨halt, e?, n, hh, rfl⟩ := hr.halts
  obtain ⟨total, hstart⟩ : ∃ total, Streams.Resumed total []
      { input := input.filter (!·.isHard), writes := writes.filter (!·.isHard), flushes }
      { input, writes, flushes } := by
    refine ⟨_, ?_, ?_, ?_, rfl, rfl, rfl, rfl⟩
    · simp only [Streams.readAnswers, List.filter_filter, Bool.and_comm]
    · simp only [Streams.writeAnswers, List.filter_filter, Bool.and_comm]
    · intro a ha
      exact hf a (by simpa using ha)
  obtain ⟨rs, r', hard, u, hs, hrs, he, hm, hR⟩ := Program.exists_session hp hh hstart
  have hd : halt.streams.flushAnswer = .done :=
    Streams.flushAnswer_of_done fun a ha => hR.flushes a (List.mem_append_left _ ha)
  have hflush : halt.streams.flush.1 = none := by rw [Streams.fst_flush, hd]; rfl
  refine ⟨rs, r', hs, ?_, ?_, ?_, ?_, ?_, ?_, ?_⟩
  · rw [hrs, hm]
    exact congrArg _ hR.hardErrors.symm
  · rw [he, Run.finish_error?]
    simp [hflush]
  all_goals rw [hm]
  · rfl
  · rfl
  · rfl
  · rw [Run.finish_streams, Streams.output_flush]
    exact hR.output
  · rw [Run.finish_streams, Streams.consumed_flush]
    exact hR.consumed

/-- A byte that is refused, a read that times out between two bytes, and a pipe that breaks. -/
theorem failures_are_resumed_echo :
    let p : Program := #[{ opcode := .read, value := 1 }, { opcode := .write, value := 1 },
      { opcode := .read, value := 1 }, { opcode := .write, value := 1 }]
    let input : List ReadEvent := [.byte 65, .fail ⟨.other, "timed out"⟩, .byte 66]
    let writes : List WriteEvent := [.refuse, .accept, .fail ⟨.other, "broken pipe"⟩]
    ∃ rs r, p.Session false (.onStreams { input, writes }) (rs ++ [r]) ∧
      rs.map Run.error? = r.machine.streams.hardErrors.map (fun e => some (.stream e)) ∧
      r.error? = none ∧ r.machine.ip = 4 ∧ r.machine.streams.output = [65, 66] ∧
      r.machine.streams.consumed = 2 := by
  intro p input writes
  have hrun : (p.run false 10 (.onStreams
      { input := input.filter (!·.isHard), writes := writes.filter (!·.isHard) })).map (fun r =>
        (r.error?, r.machine.ip, r.machine.streams.output, r.machine.streams.consumed)) =
      some (none, 4, [65, 66], 2) := by decide
  obtain ⟨r₀, hr₀, heq⟩ := Option.map_eq_some_iff.1 hrun
  simp only [Prod.mk.injEq] at heq
  obtain ⟨he₀, hip₀, hout₀, hin₀⟩ := heq
  have hp : ∀ i ∈ p, i.opcode = .read ∨ i.opcode = .write → i.value ≤ 1 := by decide
  obtain ⟨rs, r, hs, hrs, he, hip, -, -, hout, hin⟩ :=
    failures_are_resumed p hp input writes [] (by simp) r₀ ⟨10, hr₀⟩
  exact ⟨rs, r, hs, hrs, he.trans he₀, hip.trans hip₀, hout.trans hout₀, hin.trans hin₀⟩

end Brainfuck
