import Brainfuck.Proofs.Causes
import Brainfuck.Proofs.FlushEach
import Brainfuck.Proofs.RangeFaults
import Brainfuck.Proofs.Truncation

/-! # Streams that work

A machine that has bytes to read and a writer that takes everything fails on the tape only. There,
neither a flush after every byte nor the folding of loops can be told from outside.
-/

namespace Brainfuck

theorem Run.Agrees.error?_eq_none {r r' : Run} (h : r.Agrees r') (he : r.error? = none) :
    r'.error? = none := by
  obtain ⟨-, h⟩ := h
  rw [he] at h
  exact h.1.symm

namespace Streams

theorem faultless_ofBytes (bytes : List UInt8) : (ofBytes bytes).Faultless where
  read j := by
    rw [nthRead, List.getD_eq_getElem?_getD, readAnswers, ofBytes, List.filter_map,
      List.getElem?_map]
    cases (bytes.filter _)[j]? <;> rfl
  write j := rfl
  flush j := rfl

theorem kept_no_hardErrors (flushEach : Bool) :
    Kept flushEach fun s => s.Faultless ∧ s.hardErrors = [] where
  read s h := by
    refine ⟨(kept_faultless flushEach).read s h.1, ?_⟩
    rw [hardErrors_read, h.2, readAnswer_eq_nthRead, h.1.read]
    rfl
  put s b h := by
    refine ⟨(kept_faultless flushEach).put s b h.1, ?_⟩
    rw [hardErrors_put, h.2, fst_put_of_not_fault fun e => h.1.not_fault e _]
    rfl

end Streams

namespace Program

variable {p q : Program} {flushEach : Bool} {input : List UInt8} {r : Run}

theorem Ends.error?_cases (h : p.Ends flushEach (.start input) r) :
    r.error? = none ∨ ∃ ip t, r.error? = some (.outOfRange ip t) := by
  cases he : r.error? with
  | none => exact .inl rfl
  | some e =>
    cases e with
    | outOfRange ip t => exact .inr ⟨ip, t, rfl⟩
    | stream e =>
      obtain ⟨more, hm⟩ := h.exists_hardErrors he
      obtain ⟨m', e?, n, hh, rfl⟩ := h.halts
      obtain ⟨hw, hn⟩ := (Streams.kept_no_hardErrors flushEach).halts hh
        ⟨Streams.faultless_ofBytes input, rfl⟩
      rw [Run.finish_streams, Streams.hardErrors_flush, hn, Streams.flushAnswer_eq_nthFlush,
        hw.flush] at hm
      simp at hm

/-- The last call of every run is the flush, which is carried out. -/
theorem Ends.back?_calls (h : p.Ends flushEach (.start input) r) :
    r.machine.streams.calls.back? = some (.flush .done) := by
  obtain ⟨m', e?, n, hh, rfl⟩ := h.halts
  have hw := (Streams.kept_faultless flushEach).halts hh (Streams.faultless_ofBytes input)
  have ha : m'.streams.flushAnswer.error? = none := by
    rw [Streams.flushAnswer_eq_nthFlush]
    exact hw.flush _
  rw [Run.finish_streams, Streams.flush_eq, Array.back?_push]
  cases hf : m'.streams.flushAnswer with
  | done => rfl
  | fail e =>
    rw [hf] at ha
    cases ha

/-- To a run that flushes at its end only there belongs one that flushes every byte, and
conversely. -/
theorem exists_flushedEach_ends (p : Program) (input : List UInt8) :
    (∀ r, p.Ends false (.start input) r →
      ∃ r', p.Ends true (.start input) r' ∧ r.FlushedEach r') ∧
    ∀ r', p.Ends true (.start input) r' →
      ∃ r, p.Ends false (.start input) r ∧ r.FlushedEach r' := by
  have hstart : Streams.FlushedEach (.ofBytes input) (.ofBytes input) :=
    Streams.flushedEach_self (by simp [Streams.ofBytes]) rfl
  obtain ⟨hthere, hback⟩ := Streams.lockstep_flushedEach.sessions (p := p) (m := .start input)
    (fun _ _ h => h.flush) (fun _ _ h => h.run) hstart
  constructor
  · intro r hr
    obtain ⟨rs', hrs', hall⟩ := hthere [r] ⟨hr, trivial⟩
    obtain ⟨r', _, hq, _, rfl⟩ := List.forall₂_cons_left_iff.1 hall
    exact ⟨r', hrs'.1, hq⟩
  · intro r' hr'
    obtain ⟨rs, hrs, hall⟩ := hback [r'] ⟨hr', trivial⟩
    obtain ⟨r, _, hq, _, rfl⟩ := List.forall₂_cons_right_iff.1 hall
    exact ⟨r, hrs.1, hq⟩

theorem Ends.exists_ends (h : p.Ends false (.start input) r) (flushEach : Bool) :
    ∃ r', p.Ends flushEach (.start input) r' ∧ r'.error? = r.error? ∧
      r'.machine.streams.output = r.machine.streams.output := by
  cases flushEach with
  | false => exact ⟨r, h, rfl, rfl⟩
  | true =>
    obtain ⟨r', hr', hq⟩ := (p.exists_flushedEach_ends input).1 r h
    exact ⟨r', hr', hq.error?, hq.output⟩

theorem Ends.exists_ends_false (h : p.Ends flushEach (.start input) r) :
    ∃ r, p.Ends false (.start input) r := by
  cases flushEach with
  | false => exact ⟨r, h⟩
  | true =>
    obtain ⟨r, hr, -⟩ := (p.exists_flushedEach_ends input).2 r h
    exact ⟨r, hr⟩

theorem Agrees.refl (p : Program) : p.Agrees p := by
  intro flushEach streams
  refine ⟨Iff.rfl, fun r r' h h' => ?_⟩
  obtain rfl := h.unique h'
  exact .of_eq rfl rfl rfl rfl

/-- Two programs that agree look the same from outside, also if one of them flushes every byte. -/
theorem Agrees.exists_ends (h : p.Agrees q) (flushEach : Bool)
    (hr : p.Ends false (.start input) r) :
    ∃ r', q.Ends flushEach (.start input) r' ∧
      r'.machine.streams.output = r.machine.streams.output ∧
      (r.error? = none → r'.error? = none) ∧
      ∀ ip t, r.error? = some (.outOfRange ip t) → ∃ ip' t', r'.error? = some (.outOfRange ip' t') ∧
        (q = p → ip' = ip ∧ t' = t) := by
  obtain ⟨r₁, hr₁, he, hout⟩ := hr.exists_ends flushEach
  obtain ⟨hiff, hag⟩ := h flushEach (.ofBytes input)
  obtain ⟨r', hr'⟩ := hiff.1 ⟨r₁, hr₁⟩
  have ha := hag r₁ r' hr₁ hr'
  refine ⟨r', hr', by rw [← ha.1, hout], ?_, ?_⟩
  · intro hnone
    rw [← he] at hnone
    exact ha.error?_eq_none hnone
  · intro ip t het
    rw [← he] at het
    obtain ⟨t', ip', he'⟩ := ha.missedCell_iff.1 ⟨t, ip, het⟩
    refine ⟨ip', t', he', ?_⟩
    rintro rfl
    obtain rfl := hr₁.unique hr'
    cases het.symm.trans he'
    exact ⟨rfl, rfl⟩

theorem Agrees.exists_ends_false (h : p.Agrees q) (hr : q.Ends flushEach (.start input) r) :
    ∃ r, p.Ends false (.start input) r := by
  obtain ⟨r', hr'⟩ := (h flushEach (.ofBytes input)).1.2 ⟨r, hr⟩
  exact hr'.exists_ends_false

end Program

end Brainfuck
