import Brainfuck.Proofs.Lockstep

/-! # Runs that a failure cuts short

A run on streams that fail does what the run on faultless streams does, up to the first call that
fails. There it stops, in the midst of an instruction, and what that instruction had done before
stays done.
-/

namespace Brainfuck

/-- A read that is not made again. -/
def Call.isRead : Call → Bool
  | read answer => !answer.isRetried
  | _ => false

namespace Streams

def readCount (s : Streams) : Nat :=
  s.calls.countP Call.isRead

/-- The answer that a read comes to after `j` others. -/
def nthRead (s : Streams) (j : Nat) : ReadEvent :=
  s.readAnswers.getD j .endOfInput

def nthWrite (s : Streams) (j : Nat) : WriteEvent :=
  s.writeAnswers.getD j .accept

def nthFlush (s : Streams) (j : Nat) : FlushEvent :=
  s.flushes.getD j .done

structure Faultless (s : Streams) : Prop where
  read : ∀ j, (s.nthRead j).hardError? = none
  write : ∀ j, (s.nthWrite j).error? = none
  flush : ∀ j, (s.nthFlush j).error? = none

section Counts

variable (s : Streams) (flushEach : Bool) (b : UInt8) (j : Nat)

@[simp] theorem readCount_read : s.read.2.readCount = s.readCount + 1 := by
  have hr : (s.input.takeWhile ReadEvent.isRetried).countP (Call.isRead ∘ Call.read) = 0 := by
    rw [List.countP_eq_zero]
    intro a ha
    simp [Call.isRead, List.mem_takeWhile_imp ha]
  rw [readCount, ← Array.countP_toList, calls_read, List.countP_append, List.countP_map,
    List.countP_append, hr, Array.countP_toList]
  simp [Call.isRead, s.isRetried_readAnswer, readCount]

@[simp] theorem readCount_put : (s.put flushEach b).2.readCount = s.readCount := by
  have hw : (s.write b).2.readCount = s.readCount := by
    rw [readCount, ← Array.countP_toList, calls_write, List.countP_append, List.countP_map]
    simp [readCount, Function.comp_def, Call.isRead]
  rw [snd_put]
  split
  · rw [flush_eq, ← hw]
    simp [readCount, Call.isRead]
  · exact hw

@[simp] theorem readCount_flush : s.flush.2.readCount = s.readCount := by
  rw [flush_eq]
  simp [readCount, Call.isRead]

theorem readAnswer_eq_nthRead : s.readAnswer = s.nthRead 0 := by
  rw [readAnswer_eq, headD_eq_getD, nthRead]

theorem writeAnswer_eq_nthWrite : s.writeAnswer = s.nthWrite 0 := by
  rw [writeAnswer_eq, headD_eq_getD, nthWrite]

theorem flushAnswer_eq_nthFlush : s.flushAnswer = s.nthFlush 0 := by
  rw [flushAnswer, headD_eq_getD, nthFlush]

@[simp] theorem nthRead_read : s.read.2.nthRead j = s.nthRead (j + 1) := by
  simp [nthRead]

@[simp] theorem nthRead_put : (s.put flushEach b).2.nthRead j = s.nthRead j := by
  simp [nthRead]

@[simp] theorem nthWrite_read : s.read.2.nthWrite j = s.nthWrite j := by
  simp [nthWrite]

@[simp] theorem nthWrite_put : (s.put flushEach b).2.nthWrite j = s.nthWrite (j + 1) := by
  simp [nthWrite]

@[simp] theorem nthFlush_read : s.read.2.nthFlush j = s.nthFlush j := by
  simp [nthFlush]

theorem nthFlush_put :
    (s.put flushEach b).2.nthFlush j =
      s.nthFlush (j + if flushEach ∧ s.writeAnswer.error? = none then 1 else 0) := by
  rw [nthFlush, flushes_put]
  split <;> simp [nthFlush]

end Counts

theorem kept_lt_readCount (flushEach : Bool) (n : Nat) :
    Kept flushEach fun s => n < s.readCount where
  read s h := by
    rw [readCount_read]
    exact Nat.lt_succ_of_lt h
  put s b h := by rwa [readCount_put]

/-- What has been put out is never taken back. -/
theorem kept_prefix_output (flushEach : Bool) (bytes : List UInt8) :
    Kept flushEach fun s => bytes <+: s.output where
  read s h := by rwa [output_read]
  put s b h := by
    rw [output_put]
    exact h.trans (List.prefix_append _ _)

variable {flushEach : Bool} {s u s₀ u₀ : Streams} {e e' : StreamError} {op : Opcode} {n : Nat}

theorem Faultless.not_fault (h : s.Faultless) (e : StreamError) (op : Opcode) :
    ¬ s.Fault flushEach e op := by
  rintro (he | he | ⟨-, -, he⟩)
  · rw [readAnswer_eq_nthRead, h.read] at he
    cases he
  · rw [writeAnswer_eq_nthWrite, h.write] at he
    cases he
  · rw [flushAnswer_eq_nthFlush, h.flush] at he
    cases he

theorem kept_faultless (flushEach : Bool) : Kept flushEach Faultless where
  read s h := by
    refine ⟨fun j => ?_, fun j => ?_, fun j => ?_⟩
    · rw [nthRead_read]
      exact h.read _
    · rw [nthWrite_read]
      exact h.write j
    · rw [nthFlush_read]
      exact h.flush j
  put s b h := by
    refine ⟨fun j => ?_, fun j => ?_, fun j => ?_⟩
    · rw [nthRead_put]
      exact h.read j
    · rw [nthWrite_put]
      exact h.write _
    · rw [nthFlush_put]
      exact h.flush _

theorem Faultless.output_put (h : s.Faultless) (flushEach : Bool) (b : UInt8) :
    (s.put flushEach b).2.output = s.output ++ [b] := by
  rw [Streams.output_put, writeAnswer_eq_nthWrite, if_pos (h.write 0)]

theorem Faultless.prefix_put (h : s.Faultless) (flushEach : Bool) (b : UInt8) :
    s.output ++ [b] <+: (s.put flushEach b).2.output :=
  ⟨[], (List.append_nil _).trans (h.output_put flushEach b).symm⟩

/-- The first streams have come from `s₀`, which is faultless, and the second ones from `u₀`. So far
no call has failed, and as many have been made of one as of the other. -/
structure Follows (flushEach : Bool) (s₀ u₀ s u : Streams) : Prop where
  faultless : s.Faultless
  reads : ∀ j, s.nthRead j = s₀.nthRead (s.readCount + j)
  reads' : ∀ j, u.nthRead j = u₀.nthRead (s.readCount + j)
  read_ok : ∀ j < s.readCount, (u₀.nthRead j).hardError? = none
  writes : ∀ j, u.nthWrite j = u₀.nthWrite (s.output.length + j)
  write_ok : ∀ j < s.output.length, (u₀.nthWrite j).error? = none
  flushes : ∀ j, u.nthFlush j = u₀.nthFlush ((if flushEach then s.output.length else 0) + j)
  flush_ok : flushEach → ∀ j < s.output.length, (u₀.nthFlush j).error? = none
  output : u.output = s.output
  consumed : u.consumed = s.consumed

/-- The first index at which there is an error is the only one. -/
theorem first_error_unique {f : Nat → Option StreamError} {k : Nat}
    (hk : ∀ j < k, f j = none) (hek : f k = some e') (hn : ∀ j < n, f j = none)
    (hen : f n = some e) : k = n ∧ e' = e := by
  rcases lt_trichotomy k n with hlt | rfl | hgt
  · cases (hn k hlt).symm.trans hek
  · exact ⟨rfl, Option.some.inj (hek.symm.trans hen)⟩
  · cases (hk n hgt).symm.trans hen

/-- Until a read fails on the second streams, reads come to the same answers on both. -/
def ReadAlike (s₀ u₀ : Streams) : Prop :=
  ∀ j, (∀ i ≤ j, (u₀.nthRead i).hardError? = none) → u₀.nthRead j = s₀.nthRead j

namespace Follows

theorem readAnswer (h : Follows flushEach s₀ u₀ s u) (hr : ReadAlike s₀ u₀)
    (hn : u.readAnswer.hardError? = none) : u.readAnswer = s.readAnswer := by
  rw [readAnswer_eq_nthRead, h.reads', Nat.add_zero] at hn
  rw [readAnswer_eq_nthRead, readAnswer_eq_nthRead, h.reads, h.reads']
  refine hr _ fun i hi => ?_
  rcases Nat.lt_or_eq_of_le hi with hlt | rfl
  · exact h.read_ok i hlt
  · exact hn

theorem read (h : Follows flushEach s₀ u₀ s u) (hr : ReadAlike s₀ u₀)
    (hn : u.readAnswer.hardError? = none) : Follows flushEach s₀ u₀ s.read.2 u.read.2 where
  faultless := (kept_faultless flushEach).read s h.faultless
  reads j := by
    rw [nthRead_read, h.reads, readCount_read, Nat.add_assoc, Nat.add_comm 1 j]
  reads' j := by
    rw [nthRead_read, h.reads', readCount_read, Nat.add_assoc, Nat.add_comm 1 j]
  read_ok j hj := by
    rw [readCount_read] at hj
    rcases Nat.lt_succ_iff_lt_or_eq.1 hj with hlt | rfl
    · exact h.read_ok j hlt
    · rwa [readAnswer_eq_nthRead, h.reads'] at hn
  writes j := by rw [nthWrite_read, h.writes, output_read]
  write_ok := by
    rw [output_read]
    exact h.write_ok
  flushes j := by rw [nthFlush_read, h.flushes, output_read]
  flush_ok := by
    rw [output_read]
    exact h.flush_ok
  output := by rw [output_read, output_read, h.output]
  consumed := by rw [consumed_read, consumed_read, h.consumed, h.readAnswer hr hn]

theorem put (h : Follows flushEach s₀ u₀ s u) (hn : ∀ e, ¬ u.Fault flushEach e .write)
    (b : UInt8) : Follows flushEach s₀ u₀ (s.put flushEach b).2 (u.put flushEach b).2 := by
  have hw := error?_writeAnswer_of_not_fault hn
  have hout := h.faultless.output_put flushEach b
  have hlen : (s.put flushEach b).2.output.length = s.output.length + 1 := by
    rw [hout, List.length_append, List.length_singleton]
  refine ⟨(kept_faultless flushEach).put s b h.faultless, ?_, ?_, ?_, ?_, ?_, ?_, ?_, ?_, ?_⟩
  · simpa using h.reads
  · simpa using h.reads'
  · simpa using h.read_ok
  · intro j
    rw [nthWrite_put, h.writes, hlen, Nat.add_assoc, Nat.add_comm 1 j]
  · intro j hj
    rw [hlen] at hj
    rcases Nat.lt_succ_iff_lt_or_eq.1 hj with hlt | rfl
    · exact h.write_ok j hlt
    · rwa [writeAnswer_eq_nthWrite, h.writes] at hw
  · intro j
    rw [nthFlush_put, h.flushes, hlen]
    cases flushEach with
    | false => simp
    | true =>
      simp only [hw, and_self, if_true]
      rw [Nat.add_assoc, Nat.add_comm 1 j]
  · intro hf j hj
    rw [hlen] at hj
    rcases Nat.lt_succ_iff_lt_or_eq.1 hj with hlt | rfl
    · exact h.flush_ok hf j hlt
    · refine Option.eq_none_iff_forall_ne_some.2 fun e he => hn e (.flush hf hw ?_)
      rw [flushAnswer_eq_nthFlush, h.flushes, if_pos hf, Nat.add_zero, he]
  · rw [Streams.output_put, if_pos hw, hout, h.output]
  · rw [consumed_put, consumed_put, h.consumed]

/-- Which call it is that fails. -/
theorem fault_cases (h : Follows flushEach s₀ u₀ s u) (he : u.Fault flushEach e op) :
    (op = .read ∧ (u₀.nthRead s.readCount).hardError? = some e) ∨
    (op = .write ∧ (u₀.nthWrite s.output.length).error? = some e) ∨
    (op = .write ∧ (u₀.nthWrite s.output.length).error? = none ∧ flushEach ∧
      (u₀.nthFlush s.output.length).error? = some e) := by
  cases he with
  | read he =>
    rw [readAnswer_eq_nthRead, h.reads'] at he
    exact .inl ⟨rfl, he⟩
  | write he =>
    rw [writeAnswer_eq_nthWrite, h.writes] at he
    exact .inr (.inl ⟨rfl, he⟩)
  | flush hf hw he =>
    rw [writeAnswer_eq_nthWrite, h.writes] at hw
    rw [flushAnswer_eq_nthFlush, h.flushes, if_pos hf] at he
    exact .inr (.inr ⟨rfl, hw, hf, he⟩)

theorem fault_of_write (h : Follows flushEach s₀ u₀ s u) (hu : u.Fault flushEach e' op)
    (hr : ∀ j, (u₀.nthRead j).hardError? = none) (hf : ∀ j, (u₀.nthFlush j).error? = none)
    (hw : ∀ j < n, (u₀.nthWrite j).error? = none) (he : (u₀.nthWrite n).error? = some e) :
    op = .write ∧ s.output.length = n ∧ e' = e := by
  rcases h.fault_cases hu with ⟨-, he'⟩ | ⟨hop, he'⟩ | ⟨-, -, -, he'⟩
  · cases (hr _).symm.trans he'
  · exact ⟨hop, first_error_unique h.write_ok he' hw he⟩
  · cases (hf _).symm.trans he'

theorem fault_of_flush (h : Follows flushEach s₀ u₀ s u) (hu : u.Fault flushEach e' op)
    (hr : ∀ j, (u₀.nthRead j).hardError? = none) (hw : ∀ j, (u₀.nthWrite j).error? = none)
    (hf : ∀ j < n, (u₀.nthFlush j).error? = none) (he : (u₀.nthFlush n).error? = some e) :
    op = .write ∧ s.output.length = n ∧ e' = e := by
  rcases h.fault_cases hu with ⟨-, he'⟩ | ⟨-, he'⟩ | ⟨hop, -, hfl, he'⟩
  · cases (hr _).symm.trans he'
  · cases (hw _).symm.trans he'
  · exact ⟨hop, first_error_unique (h.flush_ok hfl) he' hf he⟩

theorem fault_of_read (h : Follows flushEach s₀ u₀ s u) (hu : u.Fault flushEach e' op)
    (hw : ∀ j, (u₀.nthWrite j).error? = none) (hf : ∀ j, (u₀.nthFlush j).error? = none)
    (hr : ∀ j < n, (u₀.nthRead j).hardError? = none)
    (he : (u₀.nthRead n).hardError? = some e) :
    op = .read ∧ s.readCount = n ∧ e' = e := by
  rcases h.fault_cases hu with ⟨hop, he'⟩ | ⟨-, he'⟩ | ⟨-, -, -, he'⟩
  · exact ⟨hop, first_error_unique h.read_ok he' hr he⟩
  · cases (hw _).symm.trans he'
  · cases (hf _).symm.trans he'

end Follows

theorem lockstep_follows (flushEach : Bool) (hr : ReadAlike s₀ u₀) :
    Lockstep flushEach flushEach (Follows flushEach s₀ u₀) fun op _ u =>
      ∃ e, u.Fault flushEach e op where
  read s u h := by
    by_cases hn : ∃ e, u.Fault flushEach e .read
    · exact .inl hn
    · have ha : u.readAnswer.hardError? = none :=
        Option.eq_none_iff_forall_ne_some.2 fun e he => hn ⟨e, .read he⟩
      exact .inr ⟨by rw [fst_read, fst_read, h.readAnswer hr ha], h.read hr ha⟩
  put s u b h := by
    by_cases hn : ∃ e, u.Fault flushEach e .write
    · exact .inl hn
    · have hn := not_exists.1 hn
      refine .inr ⟨?_, h.put hn b⟩
      rw [fst_put_of_not_fault hn, fst_put_of_not_fault fun e => h.faultless.not_fault e _]

def SameBytes (s u : Streams) : Prop :=
  u.output = s.output ∧ u.consumed = s.consumed

theorem Follows.flush (h : Follows flushEach s₀ u₀ s u)
    (hf : ∀ j, (u₀.nthFlush j).error? = none) :
    u.flush.1 = s.flush.1 ∧ SameBytes s.flush.2 u.flush.2 := by
  refine ⟨?_, ?_, ?_⟩
  · rw [fst_flush, fst_flush, flushAnswer_eq_nthFlush, flushAnswer_eq_nthFlush, h.flushes, hf,
      h.faultless.flush]
  · rw [output_flush, output_flush, h.output]
  · rw [consumed_flush, consumed_flush, h.consumed]

theorem Faultless.follows (h : s₀.Faultless) (flushEach : Bool) (hs : s₀.calls = #[])
    (hu : u₀.calls = #[]) :
    Follows flushEach s₀ u₀ s₀ u₀ := by
  have hr : s₀.readCount = 0 := by rw [readCount, hs]; rfl
  have hso : s₀.output = [] := by rw [Streams.output, hs]; rfl
  have huo : u₀.output = [] := by rw [Streams.output, hu]; rfl
  have hsc : s₀.consumed = 0 := by rw [Streams.consumed, hs]; rfl
  have huc : u₀.consumed = 0 := by rw [Streams.consumed, hu]; rfl
  refine ⟨h, ?_, ?_, ?_, ?_, ?_, ?_, ?_, huo.trans hso.symm, huc.trans hsc.symm⟩
  all_goals simp [hr, hso]

end Streams

/-- The run has stopped with an error, as if `mid` had not been able to make its next call. -/
structure Run.StopsAt (r : Run) (mid : Machine) (e : StreamError) : Prop where
  error? : r.error? = some (.stream e)
  tape : r.machine.tape = mid.tape
  dp : r.machine.dp = mid.dp
  ip : r.machine.ip = mid.ip
  consumed : r.machine.streams.consumed = mid.streams.consumed

namespace Program

/-- Execution on the first machine comes to the second, which has completed its last instruction or
cannot go on. -/
def Visits (p : Program) (flushEach : Bool) (m m' : Machine) : Prop :=
  p.Steps flushEach m m' ∨ ∃ e?, p.Halts flushEach m m' e?

variable {p : Program} {flushEach : Bool} {op : Opcode} {m m' mid : Machine} {r : Run}
  {s₀ u₀ u : Streams} {e : StreamError}

/-- A machine that is visited comes after the next call, or it comes before. -/
theorem Calls.visits_cases (h : p.Calls flushEach op m mid) (hv : p.Visits flushEach m m') :
    (∀ J, Streams.Kept flushEach J → J (mid.toState.afterCall flushEach op) → J m'.streams) ∨
    ∀ J, Streams.Kept flushEach J → J m'.streams → J mid.streams := by
  rcases hv with hs' | ⟨e?, hh⟩
  · obtain ⟨hi, before, i, hs, hf, rfl, hx, -⟩ := h
    have hbefore : p.Steps flushEach m' before →
        ∀ J, Streams.Kept flushEach J → J m'.streams → J mid.streams :=
      fun hb J hJ hm' => hx.kept hJ (hJ.steps hb hm')
    rcases hs.total hs' with hb | hb
    · rcases hb.cases_head with rfl | ⟨m₁, ⟨i', hf', hstep⟩, hm₁⟩
      · exact .inr (hbefore .refl)
      · left
        intro J hJ hmid
        cases hf.symm.trans hf'
        have hexec := hx.kept_exec hJ hi hmid
        rw [← Machine.streams_step, hstep] at hexec
        exact hJ.steps hm₁ hexec
    · exact .inr (hbefore hb)
  · exact .inl fun J hJ hmid => h.kept_halts hJ hmid hh

/-- What has been put out before a write, and what it puts out, comes first in all output that is
longer. -/
theorem Calls.output_eq_take (h : p.Calls flushEach .write m mid) (hmid : mid.streams.Faultless)
    (hv : p.Visits flushEach m m')
    (hlt : mid.streams.output.length < m'.streams.output.length) :
    mid.streams.output = m'.streams.output.take mid.streams.output.length ∧
      mid.streams.output ++ [mid.cell] =
        m'.streams.output.take (mid.streams.output.length + 1) := by
  have hpre : mid.streams.output ++ [mid.cell] <+: m'.streams.output := by
    rcases h.visits_cases hv with hafter | hbefore
    · refine hafter _ (Streams.kept_prefix_output flushEach _) ?_
      exact hmid.prefix_put flushEach mid.cell
    · have hle := (hbefore _ (Streams.kept_prefix_output flushEach _) List.prefix_rfl).length_le
      omega
  have htake := List.prefix_iff_eq_take.1 hpre
  rw [List.length_append, List.length_singleton] at htake
  exact ⟨List.prefix_iff_eq_take.1 ((List.prefix_append _ _).trans hpre), htake⟩

theorem Calls.length_output_lt (h : p.Calls flushEach .write m mid)
    (hmid : mid.streams.Faultless) (hr : p.Ends flushEach m r) :
    mid.streams.output.length < r.machine.streams.output.length := by
  obtain ⟨halt, e?, n, hh, rfl⟩ := hr.halts
  have hle := (h.kept_halts (Streams.kept_prefix_output flushEach _)
    (hmid.prefix_put flushEach mid.cell) hh).length_le
  rw [List.length_append, List.length_singleton] at hle
  rw [Run.finish_streams, Streams.output_flush]
  exact hle

theorem Calls.readCount_lt (h : p.Calls flushEach .read m mid) (hr : p.Ends flushEach m r) :
    mid.streams.readCount < r.machine.streams.readCount := by
  obtain ⟨halt, e?, n, hh, rfl⟩ := hr.halts
  rw [Run.finish_streams, Streams.readCount_flush]
  refine h.kept_halts (Streams.kept_lt_readCount flushEach _) ?_ hh
  exact (Nat.lt_succ_self _).trans_eq mid.streams.readCount_read.symm

/-- A machine that is visited is followed, or the machines part. -/
theorem follows_of_visits (hr : Streams.ReadAlike s₀ u₀) (hv : p.Visits flushEach m m')
    (hF : Streams.Follows flushEach s₀ u₀ m.streams u) :
    p.Parts flushEach flushEach (Streams.Follows flushEach s₀ u₀)
      (fun op _ u => ∃ e, u.Fault flushEach e op) m u ∨
    ∃ u', Streams.Follows flushEach s₀ u₀ m'.streams u' := by
  have h := Streams.lockstep_follows flushEach hr
  rcases hv with hs | ⟨e?, bound, n, hx⟩
  · exact (h.steps hs hF).imp_right fun ⟨u', _, hF'⟩ => ⟨u', hF'⟩
  · exact (h.execute hx hF).imp_right fun ⟨u', _, hF'⟩ => ⟨u', hF'⟩

/-- If a machine that is visited cannot be followed, the run on the second streams stops before. -/
theorem exists_stopsAt (hr : Streams.ReadAlike s₀ u₀) (hv : p.Visits flushEach m m')
    (hF : Streams.Follows flushEach s₀ u₀ m.streams u)
    (hnot : ∀ u', ¬ Streams.Follows flushEach s₀ u₀ m'.streams u') :
    ∃ op mid u₁ e r, p.Calls flushEach op m mid ∧
      Streams.Follows flushEach s₀ u₀ mid.streams u₁ ∧ u₁.Fault flushEach e op ∧
      p.Ends flushEach (m.withStreams u) r ∧ r.StopsAt mid e ∧
      r.machine.streams.output = mid.streams.output ++
        if op = .write ∧ (u₀.nthWrite mid.streams.output.length).error? = none then [mid.cell]
        else [] := by
  obtain ⟨op, mid, u₁, hc, hc', hF, e, he⟩ :=
    (follows_of_visits hr hv hF).resolve_right fun ⟨u', hF'⟩ => hnot u' hF'
  obtain ⟨n, hr⟩ := hc'.ends he
  have hw : u₁.writeAnswer = u₀.nthWrite mid.streams.output.length := by
    rw [Streams.writeAnswer_eq_nthWrite, hF.writes, Nat.add_zero]
  have hcons : ((mid.withStreams u₁).toState.afterCall flushEach op).consumed = u₁.consumed := by
    cases he with
    | read he => exact Streams.consumed_read_of_hardError? he
    | write | flush => exact Streams.consumed_put ..
  have hout : ((mid.withStreams u₁).toState.afterCall flushEach op).output = u₁.output ++
      if op = .write ∧ (u₀.nthWrite mid.streams.output.length).error? = none then [mid.cell]
      else [] := by
    rw [← hw]
    cases he with
    | read => exact (Streams.output_read u₁).trans (by simp)
    | write | flush => exact (Streams.output_put ..).trans (by simp; rfl)
  refine ⟨op, mid, u₁, e, _, hc, hF, he, hr, ⟨rfl, rfl, rfl, rfl, ?_⟩, ?_⟩
  · rw [Run.finish_streams, Streams.consumed_flush, ← hF.consumed]
    exact hcons
  · rw [Run.finish_streams, Streams.output_flush]
    exact hout.trans (by rw [hF.output])

/-- A run that ends is followed to its end, or the machines part. -/
theorem follows_of_ends (hr : Streams.ReadAlike s₀ u₀)
    (hf : ∀ j, (u₀.nthFlush j).error? = none) (he : p.Ends flushEach m r)
    (hF : Streams.Follows flushEach s₀ u₀ m.streams u) :
    p.Parts flushEach flushEach (Streams.Follows flushEach s₀ u₀)
      (fun op _ u => ∃ e, u.Fault flushEach e op) m u ∨
    ∃ u', p.Ends flushEach (m.withStreams u) (r.withStreams u') ∧
      r.machine.streams.SameBytes u' :=
  (Streams.lockstep_follows flushEach hr).ends (fun _ _ h => h.flush hf) he hF

end Program

/-- The run on `s` is ideal, and the streams `t` fail once. In the first part the write fails that
comes after `n` others, in the second one the flush that follows such a write, and in the third the
read that comes after `n` others. -/
theorem failures_truncate (p : Program) (flushEach : Bool) {s t : Streams} (hs : s.calls = #[])
    (ht : t.calls = #[]) (ideal : s.Faultless) (n : Nat) (e : StreamError) :
    ((∀ j, t.nthRead j = s.nthRead j) → (∀ j, (t.nthFlush j).error? = none) →
      (∀ j < n, (t.nthWrite j).error? = none) → (t.nthWrite n).error? = some e →
      (∀ m, p.Visits flushEach (.onStreams s) m → n < m.streams.output.length →
        ∃ mid r, p.Calls flushEach .write (.onStreams s) mid ∧
          p.Ends flushEach (.onStreams t) r ∧ r.StopsAt mid e ∧
          mid.streams.output = m.streams.output.take n ∧
          r.machine.streams.output = m.streams.output.take n) ∧
      ∀ r, p.Ends flushEach (.onStreams s) r → r.machine.streams.output.length ≤ n →
        ∃ u, p.Ends flushEach (.onStreams t) (r.withStreams u) ∧
          r.machine.streams.SameBytes u) ∧
    (flushEach = true → (∀ j, t.nthRead j = s.nthRead j) →
      (∀ j, (t.nthWrite j).error? = none) →
      (∀ j < n, (t.nthFlush j).error? = none) → (t.nthFlush n).error? = some e →
      ∀ m, p.Visits flushEach (.onStreams s) m → n < m.streams.output.length →
        ∃ mid r, p.Calls flushEach .write (.onStreams s) mid ∧
          p.Ends flushEach (.onStreams t) r ∧ r.StopsAt mid e ∧
          mid.streams.output = m.streams.output.take n ∧
          r.machine.streams.output = m.streams.output.take (n + 1)) ∧
    ((∀ j < n, t.nthRead j = s.nthRead j) → (t.nthRead n).hardError? = some e →
      (∀ j, (t.nthWrite j).error? = none) → (∀ j, (t.nthFlush j).error? = none) →
      (∀ m, p.Visits flushEach (.onStreams s) m → n < m.streams.readCount →
        ∃ mid r, p.Calls flushEach .read (.onStreams s) mid ∧
          p.Ends flushEach (.onStreams t) r ∧ r.StopsAt mid e ∧
          mid.streams.readCount = n ∧ r.machine.streams.output = mid.streams.output) ∧
      ∀ r, p.Ends flushEach (.onStreams s) r → r.machine.streams.readCount ≤ n →
        ∃ u, p.Ends flushEach (.onStreams t) (r.withStreams u) ∧
          r.machine.streams.SameBytes u) := by
  have hstart := ideal.follows flushEach hs ht
  refine ⟨?_, ?_, ?_⟩
  · intro hr hf hw he
    have halike : Streams.ReadAlike s t := fun j _ => hr j
    have hr : ∀ j, (t.nthRead j).hardError? = none := fun j => by rw [hr, ideal.read]
    constructor
    · intro m hv hlt
      obtain ⟨op, mid, u, e', r, hc, hF, hu, hends, hstop, hout⟩ :=
        Program.exists_stopsAt halike hv hstart fun u hF => by
          cases (hF.write_ok n hlt).symm.trans he
      obtain ⟨rfl, hn, rfl⟩ := hF.fault_of_write hu hr hf hw he
      obtain ⟨hmid, -⟩ := hc.output_eq_take hF.faultless hv (by omega)
      rw [hn] at hmid hout
      rw [if_neg (by simp [he]), List.append_nil] at hout
      exact ⟨mid, r, hc, hends, hstop, hmid, hout.trans hmid⟩
    · intro r hends hle
      refine (Program.follows_of_ends halike hf hends hstart).resolve_left ?_
      rintro ⟨op, mid, u, hc, -, hF, e', hu⟩
      obtain ⟨rfl, hn, -⟩ := hF.fault_of_write hu hr hf hw he
      have hlt := hc.length_output_lt hF.faultless hends
      omega
  · intro hflush hr hw hf he m hv hlt
    have halike : Streams.ReadAlike s t := fun j _ => hr j
    have hr : ∀ j, (t.nthRead j).hardError? = none := fun j => by rw [hr, ideal.read]
    obtain ⟨op, mid, u, e', r, hc, hF, hu, hends, hstop, hout⟩ :=
      Program.exists_stopsAt halike hv hstart fun u hF => by
        cases (hF.flush_ok hflush n hlt).symm.trans he
    obtain ⟨rfl, hn, rfl⟩ := hF.fault_of_flush hu hr hw hf he
    obtain ⟨hmid, hall⟩ := hc.output_eq_take hF.faultless hv (by omega)
    rw [hn] at hmid hall
    rw [if_pos ⟨rfl, hw _⟩] at hout
    exact ⟨mid, r, hc, hends, hstop, hmid, hout.trans hall⟩
  · intro hr he hw hf
    have halike : Streams.ReadAlike s t := by
      intro j hj
      rcases Nat.lt_or_ge j n with hlt | hge
      · exact hr j hlt
      · cases (hj n hge).symm.trans he
    have hr : ∀ j < n, (t.nthRead j).hardError? = none := fun j hj => by rw [hr j hj, ideal.read]
    constructor
    · intro m hv hlt
      obtain ⟨op, mid, u, e', r, hc, hF, hu, hends, hstop, hout⟩ :=
        Program.exists_stopsAt halike hv hstart fun u hF => by
          cases (hF.read_ok n hlt).symm.trans he
      obtain ⟨rfl, hn, rfl⟩ := hF.fault_of_read hu hw hf hr he
      rw [if_neg (by simp), List.append_nil] at hout
      exact ⟨mid, r, hc, hends, hstop, hn, hout⟩
    · intro r hends hle
      refine (Program.follows_of_ends halike hf hends hstart).resolve_left ?_
      rintro ⟨op, mid, u, hc, -, hF, e', hu⟩
      obtain ⟨rfl, hn, -⟩ := hF.fault_of_read hu hw hf hr he
      have hlt := hc.readCount_lt hends
      omega

/-- A write, a flush and a read that fail at the second of several repetitions. -/
theorem failures_truncate_repetitions :
    let p : Program := #[{ opcode := .read, value := 2 }, { opcode := .write, value := 3 }]
    let e : StreamError := ⟨.other, "broken pipe"⟩
    let s : Streams := { input := [.byte 7, .byte 8] }
    let t₁ : Streams := { s with writes := [.accept, .fail e] }
    let t₂ : Streams := { s with flushes := [.done, .fail e] }
    let t₃ : Streams := { input := [.byte 7, .fail e] }
    s.Faultless ∧
    (∃ r, p.Ends true (.onStreams t₁) r ∧ r.error? = some (.stream e) ∧
      r.machine.streams.output = [8]) ∧
    (∃ r, p.Ends true (.onStreams t₂) r ∧ r.error? = some (.stream e) ∧
      r.machine.streams.output = [8, 8]) ∧
    ∃ mid r, p.Calls true .read (.onStreams s) mid ∧ p.Ends true (.onStreams t₃) r ∧
      r.StopsAt mid e ∧ mid.streams.readCount = 1 ∧ r.machine.cell = 7 := by
  intro p e s t₁ t₂ t₃
  have ideal : s.Faultless :=
    ⟨by rintro (_ | _ | j) <;> rfl, fun j => rfl, fun j => rfl⟩
  have hrun : (p.execute true 10 0 (.onStreams s)).map (fun r =>
      (r.machine.streams.output, r.machine.streams.readCount)) = some ([8, 8, 8], 2) := by decide
  obtain ⟨r₀, hx, heq⟩ := Option.map_eq_some_iff.1 hrun
  simp only [Prod.mk.injEq] at heq
  obtain ⟨hout, hcount⟩ := heq
  have hv : p.Visits true (.onStreams s) r₀.machine := .inr ⟨r₀.error?, 10, r₀.dispatched, hx⟩
  obtain ⟨hwrite, -, -⟩ := failures_truncate p true (t := t₁) rfl rfl ideal 1 e
  obtain ⟨-, hflush, -⟩ := failures_truncate p true (t := t₂) rfl rfl ideal 1 e
  obtain ⟨-, -, hread⟩ := failures_truncate p true (t := t₃) rfl rfl ideal 1 e
  have hone {f : Nat → Option StreamError} (h : f 0 = none) : ∀ j < 1, f j = none := by
    intro j hj
    obtain rfl : j = 0 := by omega
    exact h
  refine ⟨ideal, ?_, ?_, ?_⟩
  · obtain ⟨mid, r, -, hr, hstop, -, hr₁⟩ := (hwrite (fun _ => rfl) (fun _ => rfl) (hone rfl)
      rfl).1 _ hv (by rw [hout]; decide)
    exact ⟨r, hr, hstop.error?, by rw [hr₁, hout]; rfl⟩
  · obtain ⟨mid, r, -, hr, hstop, -, hr₂⟩ := hflush rfl (fun _ => rfl) (fun _ => rfl) (hone rfl)
      rfl _ hv (by rw [hout]; decide)
    exact ⟨r, hr, hstop.error?, by rw [hr₂, hout]; rfl⟩
  · have hsame : ∀ j < 1, t₃.nthRead j = s.nthRead j := by
      intro j hj
      obtain rfl : j = 0 := by omega
      rfl
    obtain ⟨mid, r, hc, hr, hstop, hmid, -⟩ := (hread hsame rfl (fun _ => rfl)
      (fun _ => rfl)).1 _ hv (by rw [hcount]; decide)
    have hcell : (p.run true 10 (.onStreams t₃)).map (·.machine.cell) = some 7 := by decide
    obtain ⟨r₃, hr₃, hcell⟩ := Option.map_eq_some_iff.1 hcell
    obtain rfl : r₃ = r := Program.Ends.unique ⟨10, hr₃⟩ hr
    exact ⟨mid, r₃, hc, hr, hstop, hmid, hcell⟩

end Brainfuck
