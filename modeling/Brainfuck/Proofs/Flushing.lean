import Brainfuck.Proofs.Lockstep

/-! # Flushes

Apart from the flushes that follow single bytes, the writer is flushed once for every run, at its
end and however the run ends. That flush comes too late to change anything but the result of a run
that did not fail.
-/

namespace Brainfuck

namespace Streams

variable {flushEach : Bool} {s u : Streams} {F F' : List FlushEvent} {c limit : Nat}

/-- The flushes that do not follow a byte, if every byte is to be flushed; otherwise all. -/
def extraFlushes (flushEach : Bool) (s : Streams) : Int :=
  s.flushCount - if flushEach then (s.output.length : Int) else 0

@[simp] theorem extraFlushes_read : s.read.2.extraFlushes flushEach = s.extraFlushes flushEach := by
  simp [extraFlushes]

/-- A byte that is accepted is flushed, and a byte that is not is not. -/
@[simp] theorem extraFlushes_put (b : UInt8) :
    (s.put flushEach b).2.extraFlushes flushEach = s.extraFlushes flushEach := by
  rw [extraFlushes, extraFlushes, flushCount_put, output_put]
  cases flushEach with
  | false => simp
  | true =>
    by_cases h : s.writeAnswer.error? = none
    · simp only [h, and_self, if_true, List.length_append, List.length_singleton]
      omega
    · simp [h]

@[simp] theorem extraFlushes_flush :
    s.flush.2.extraFlushes flushEach = s.extraFlushes flushEach + 1 := by
  simp only [extraFlushes, flushCount_flush, output_flush]
  omega

theorem kept_extraFlushes (flushEach : Bool) (n : Int) :
    Kept flushEach fun s => s.extraFlushes flushEach = n where
  read s h := by rwa [extraFlushes_read]
  put s b h := by rwa [extraFlushes_put]

theorem kept_lt_flushCount (flushEach : Bool) (n : Nat) :
    Kept flushEach fun s => n < s.flushCount where
  read s h := by rwa [flushCount_read]
  put s b h := by
    rw [flushCount_put]
    omega

/-- The queue of flushes is what is left of `F` after all flushes but the first `c`. -/
def FlushesFrom (F : List FlushEvent) (c : Nat) (s : Streams) : Prop :=
  c ≤ s.flushCount ∧ s.flushes = F.drop (s.flushCount - c)

theorem kept_flushesFrom (flushEach : Bool) (F : List FlushEvent) (c : Nat) :
    Kept flushEach (FlushesFrom F c) where
  read s h := by rwa [FlushesFrom, flushCount_read, flushes_read]
  put s b h := by
    obtain ⟨hc, hF⟩ := h
    rw [FlushesFrom, flushCount_put, flushes_put]
    split
    · rw [hF, List.tail_drop, Nat.sub_add_comm hc]
      exact ⟨Nat.le_succ_of_le hc, rfl⟩
    · exact ⟨hc, hF⟩

theorem FlushesFrom.flushAnswer (h : FlushesFrom F c s) :
    s.flushAnswer = F.getD (s.flushCount - c) .done := by
  rw [Streams.flushAnswer, h.2, List.headD_eq_head?_getD, List.head?_drop,
    List.getD_eq_getElem?_getD]

structure FlushedFrom (F F' : List FlushEvent) (c : Nat) (s u : Streams) : Prop where
  same : u = { s with flushes := u.flushes }
  left : FlushesFrom F c s
  right : FlushesFrom F' c u

theorem FlushedFrom.flushCount_eq (h : FlushedFrom F F' c s u) : u.flushCount = s.flushCount := by
  rw [h.same]
  rfl

theorem FlushedFrom.writeAnswer_eq (h : FlushedFrom F F' c s u) :
    u.writeAnswer = s.writeAnswer := by
  rw [h.same]
  rfl

/-- Two queues that answer alike up to a number of flushes tell machines apart only in a write
whose flush is beyond that number. -/
theorem lockstep_flushedFrom (flushEach : Bool)
    (hF : ∀ j, c + j < limit → F'.getD j .done = F.getD j .done) :
    Lockstep flushEach flushEach (FlushedFrom F F' c) fun op s _ =>
      op = .write ∧ ∀ b, limit < (s.put flushEach b).2.flushCount where
  read s u h := by
    have hl := (kept_flushesFrom flushEach F c).read s h.left
    have hr := (kept_flushesFrom flushEach F' c).read u h.right
    have hs : u.read = (s.read.1, { s.read.2 with flushes := u.flushes }) := by
      rw [h.same]
      rfl
    exact .inr ⟨by rw [hs], by rw [hs], hl, hr⟩
  put s u b h := by
    have hl := (kept_flushesFrom flushEach F c).put s b h.left
    have hr := (kept_flushesFrom flushEach F' c).put u b h.right
    have hs : u.write b = ((s.write b).1, { (s.write b).2 with flushes := u.flushes }) := by
      rw [h.same]
      rfl
    by_cases hc : flushEach ∧ s.writeAnswer.error? = none
    · by_cases hlt : s.flushCount < limit
      · have ha : u.flushAnswer = s.flushAnswer := by
          have hle := h.left.1
          rw [h.left.flushAnswer, h.right.flushAnswer, h.flushCount_eq]
          exact hF _ (by omega)
        have ha' : (u.write b).2.flushAnswer = (s.write b).2.flushAnswer := ha
        refine .inr ⟨?_, ?_, hl, hr⟩
        · rw [fst_put, fst_put, h.writeAnswer_eq, ha]
        · rw [snd_put, snd_put, h.writeAnswer_eq, if_pos hc, if_pos hc, flush_eq, flush_eq, ha',
            hs]
      · refine .inl ⟨rfl, fun b => ?_⟩
        rw [flushCount_put, if_pos hc]
        omega
    · refine .inr ⟨?_, ?_, hl, hr⟩
      · rw [fst_put, fst_put, h.writeAnswer_eq]
        cases hw : s.writeAnswer.error? with
        | some e => rfl
        | none =>
          have hfl : flushEach = false := by simpa [hw] using hc
          simp [hfl]
      · rw [snd_put, snd_put, h.writeAnswer_eq, if_neg hc, if_neg hc, hs]

end Streams

/-- The run is an execution that ended on `halt` with the failure `e?`, if any, and one flush with
the given answer after it. -/
structure Run.Closes (r : Run) (halt : Machine) (e? : Option RunError) (answer : FlushEvent) :
    Prop where
  failed : ∀ e, e? = some e → r.error? = some e
  completed : e? = none → r.error? = answer.error?.map .stream
  tape : r.machine.tape = halt.tape
  dp : r.machine.dp = halt.dp
  ip : r.machine.ip = halt.ip
  output : r.machine.streams.output = halt.streams.output
  consumed : r.machine.streams.consumed = halt.streams.consumed
  calls : r.machine.streams.calls = halt.streams.calls.push (.flush answer)
  reported : r.error? = none → r.events = #[.runFinished r.dispatched]
  silent : r.error? ≠ none → r.events = #[]

theorem Run.closes_finish (halt : Machine) (e? : Option RunError) (n : Nat) :
    (Run.finish ⟨halt, e?, n⟩).Closes halt e? halt.streams.flushAnswer where
  failed e he := by
    rw [finish_error?, he]
    rfl
  completed he := by
    rw [finish_error?, he, ← Streams.fst_flush]
    rfl
  tape := rfl
  dp := rfl
  ip := rfl
  output := halt.streams.output_flush
  consumed := halt.streams.consumed_flush
  calls := by rw [finish_streams, Streams.flush_eq]
  reported he := by simp only [events, he, Option.isNone_none, if_true]
  silent he := by
    simp only [events, Option.isNone_iff_eq_none, he, if_false]

/-- Of the streams of the execution, only the calls count. -/
theorem Run.Closes.of_calls {r : Run} {halt : Machine} {u : Streams} {e? : Option RunError}
    {answer : FlushEvent} (h : r.Closes (halt.withStreams u) e? answer)
    (hu : u.calls = halt.streams.calls) : r.Closes halt e? answer where
  failed := h.failed
  completed := h.completed
  tape := h.tape
  dp := h.dp
  ip := h.ip
  output := h.output.trans (by simp only [Machine.withStreams, Streams.output, hu])
  consumed := h.consumed.trans (by simp only [Machine.withStreams, Streams.consumed, hu])
  calls := by rw [h.calls, Machine.withStreams, hu]
  reported := h.reported
  silent := h.silent

namespace Program

variable {p : Program} {flushEach : Bool} {m halt : Machine} {r : Run} {rs : List Run}
  {e? : Option RunError} {F F' : List FlushEvent} {c n bound : Nat}

theorem Ends.extraFlushes (h : p.Ends flushEach m r) :
    r.machine.streams.extraFlushes flushEach = m.streams.extraFlushes flushEach + 1 := by
  obtain ⟨halt, e?, n, hh, rfl⟩ := h.halts
  rw [Run.finish_streams, Streams.extraFlushes_flush,
    (Streams.kept_extraFlushes flushEach _).halts hh rfl]

theorem Session.extraFlushes (h : p.Session flushEach m rs) {k : Nat} (hk : rs[k]? = some r) :
    r.machine.streams.extraFlushes flushEach = m.streams.extraFlushes flushEach + (k + 1) := by
  induction rs generalizing m k with
  | nil => cases hk
  | cons r₀ rs ih =>
    obtain ⟨hr₀, hrs⟩ := h
    have h₀ := hr₀.extraFlushes
    cases k with
    | zero =>
      obtain rfl : r₀ = r := Option.some.inj hk
      rw [h₀]
      rfl
    | succ k =>
      rw [ih hrs hk, h₀]
      push_cast
      omega

/-- An execution that ends does so on every queue that answers its flushes alike, and what it leaves
there is the rest of that queue. -/
theorem execute_flushedFrom (h : p.execute flushEach bound 0 m = some ⟨halt, e?, n⟩)
    (hF : ∀ j, m.streams.flushCount + j < halt.streams.flushCount →
      F'.getD j .done = m.streams.flushes.getD j .done) :
    ∃ u, p.execute flushEach bound 0 (m.withStreams { m.streams with flushes := F' }) =
        some ⟨halt.withStreams u, e?, n⟩ ∧
      Streams.FlushedFrom m.streams.flushes F' m.streams.flushCount halt.streams u := by
  have hstart : Streams.FlushedFrom m.streams.flushes F' m.streams.flushCount m.streams
      { m.streams with flushes := F' } := by
    refine ⟨rfl, ⟨le_rfl, by simp⟩, le_rfl, ?_⟩
    rw [show Streams.flushCount { m.streams with flushes := F' } = m.streams.flushCount from rfl]
    simp
  rcases (Streams.lockstep_flushedFrom flushEach hF).execute h hstart with hp | hu
  · -- Where the machines part, the first one flushes once more than it has done at its end.
    obtain ⟨op, mid, u₁, hc, -, -, rfl, hlt⟩ := hp
    have hk := Streams.kept_lt_flushCount flushEach halt.streams.flushCount
    have hmore := hc.kept_halts hk (hlt _) ⟨bound, n, h⟩
    exact (lt_irrefl _ hmore).elim
  · exact hu

end Program

/-- The first part counts the flushes of all runs so far on one machine. The second part tells what
a run makes of the execution before its final flush: of the answers to flushes, the execution
depends on those to its own flushes only, and the next one is that to the final flush. -/
theorem flushes_are_accounted (p : Program) (flushEach : Bool) :
    (∀ (input : List ReadEvent) (writes : List WriteEvent) (flushes : List FlushEvent)
        (rs : List Run),
      p.Session flushEach (.onStreams { input, writes, flushes }) rs →
      ∀ k r, rs[k]? = some r →
        r.machine.streams.flushCount =
          (k + 1) + if flushEach then r.machine.streams.output.length else 0) ∧
    ∀ m r, p.Ends flushEach m r →
      ∃ halt e?, p.Halts flushEach m halt e? ∧ r.Closes halt e? halt.streams.flushAnswer ∧
        ∀ flushes : List FlushEvent,
          (∀ j, m.streams.flushCount + j < halt.streams.flushCount →
            flushes.getD j .done = m.streams.flushes.getD j .done) →
          ∃ r', p.Ends flushEach (m.withStreams { m.streams with flushes }) r' ∧
            r'.dispatched = r.dispatched ∧
            r'.Closes halt e?
              (flushes.getD (halt.streams.flushCount - m.streams.flushCount) .done) := by
  constructor
  · intro input writes flushes rs hrs k r hk
    have h := hrs.extraFlushes hk
    have h₀ :
        (Machine.onStreams { input, writes, flushes }).streams.extraFlushes flushEach = 0 := by
      cases flushEach <;> rfl
    rw [h₀, Streams.extraFlushes] at h
    cases flushEach with
    | false =>
      simp only [Bool.false_eq_true, if_false] at h ⊢
      omega
    | true =>
      simp only [if_true] at h ⊢
      omega
  · rintro m r ⟨bound, hb⟩
    obtain ⟨⟨halt, e?, n⟩, hx, rfl⟩ := Option.map_eq_some_iff.1 hb
    refine ⟨halt, e?, ⟨bound, n, hx⟩, Run.closes_finish halt e? n, ?_⟩
    intro flushes hF
    obtain ⟨u, hx', hu⟩ := Program.execute_flushedFrom hx hF
    refine ⟨_, ⟨bound, Option.map_eq_some_iff.2 ⟨_, hx', rfl⟩⟩, rfl, ?_⟩
    have hc := Run.closes_finish (halt.withStreams u) e? n
    have ha : (halt.withStreams u).streams.flushAnswer =
        flushes.getD (halt.streams.flushCount - m.streams.flushCount) .done := by
      rw [← hu.flushCount_eq]
      exact hu.right.flushAnswer
    rw [ha] at hc
    exact hc.of_calls (by rw [hu.same])

/-- The flush of the second byte fails, and the next run writes both bytes again. If the final flush
of the first run fails too, nothing changes. -/
theorem flushes_are_accounted_again :
    let p : Program := #[{ opcode := .add, value := 1 }, { opcode := .write, value := 2 }]
    let e : StreamError := ⟨.other, "broken pipe"⟩
    let m : Machine := .onStreams { flushes := [.done, .fail e] }
    let late : Machine := .onStreams { flushes := [.done, .fail e, .fail ⟨.other, "late"⟩] }
    ∃ r₁ r₂, p.Session true m [r₁, r₂] ∧ r₁.error? = some (.stream e) ∧ r₂.error? = none ∧
      r₂.machine.streams.output = [1, 1, 1, 1] ∧ r₂.machine.streams.flushCount = 6 ∧
      ∃ r', p.Ends true late r' ∧ r'.error? = some (.stream e) ∧
        r'.machine.tape = r₁.machine.tape ∧ r'.events = #[] := by
  intro p e m late
  have hruns : (p.run true 10 m).bind (fun r₁ => (p.run true 10 r₁.machine).map fun r₂ =>
      (r₁.error?, r₂.error?, r₂.machine.streams.output)) =
        some (some (.stream e), none, [1, 1, 1, 1]) := by decide
  obtain ⟨r₁, hr₁, hruns⟩ := Option.bind_eq_some_iff.1 hruns
  obtain ⟨r₂, hr₂, heq⟩ := Option.map_eq_some_iff.1 hruns
  simp only [Prod.mk.injEq] at heq
  obtain ⟨he₁, he₂, hout⟩ := heq
  have hhalt : (p.execute true 10 0 m).map (fun r => (r.error?, r.machine.streams.flushCount)) =
      some (some (.stream e), 2) := by decide
  obtain ⟨r₀, hx, heq⟩ := Option.map_eq_some_iff.1 hhalt
  simp only [Prod.mk.injEq] at heq
  obtain ⟨he₀, hn⟩ := heq
  have hh : p.Halts true m r₀.machine r₀.error? := ⟨10, r₀.dispatched, hx⟩
  obtain ⟨hcount, hcloses⟩ := flushes_are_accounted p true
  have hs : p.Session true m [r₁, r₂] := ⟨⟨10, hr₁⟩, ⟨10, hr₂⟩, trivial⟩
  have h₂ := hcount [] [] _ _ hs 1 r₂ rfl
  rw [hout] at h₂
  obtain ⟨halt, e?, hh', hc, hlate⟩ := hcloses m r₁ ⟨10, hr₁⟩
  obtain ⟨rfl, rfl⟩ := hh.unique hh'
  obtain ⟨r', hr', -, hc'⟩ := hlate [.done, .fail e, .fail ⟨.other, "late"⟩] (by
    intro j hj
    rw [hn] at hj
    have hj : j < 2 := by simpa [m, Machine.onStreams, Streams.flushCount] using hj
    rcases Nat.lt_succ_iff_lt_or_eq.1 hj with hj | rfl
    · obtain rfl : j = 0 := by omega
      rfl
    · rfl)
  have he' := hc'.failed _ he₀
  refine ⟨r₁, r₂, hs, he₁, he₂, hout, h₂, r', hr', he', hc'.tape.trans hc.tape.symm, ?_⟩
  exact hc'.silent (by rw [he']; exact Option.some_ne_none _)

end Brainfuck
