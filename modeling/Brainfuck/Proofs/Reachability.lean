import Mathlib.Logic.Relation
import Brainfuck.Proofs.Halting

/-! # Machines that are reached

A machine can be run again after it has stopped. Runs reach the machines between two instructions
and those that a run leaves behind when it ends. What holds at first and outlasts every instruction
and every flush therefore holds of all of them.
-/

namespace Brainfuck

def Machine.flush (m : Machine) : Machine :=
  { m with streams := m.streams.flush.2 }

def Machine.withStreams (m : Machine) (streams : Streams) : Machine :=
  { m with streams := streams }

namespace Program

def Next (p : Program) (flushEach : Bool) (m m' : Machine) : Prop :=
  ∃ i, m.fetch? p = some i ∧ m.step flushEach i = ⟨m', none⟩

def Steps (p : Program) (flushEach : Bool) : Machine → Machine → Prop :=
  Relation.ReflTransGen (p.Next flushEach)

/-- Execution cannot go on: the program is left, or its next instruction fails. -/
inductive Stops (p : Program) (flushEach : Bool) (m : Machine) :
    Machine → Option RunError → Prop where

  | finished : m.fetch? p = none → Stops p flushEach m m none

  | failed {i : Instr} {m' : Machine} {e : RunError} : m.fetch? p = some i →
      m.step flushEach i = ⟨m', some e⟩ → Stops p flushEach m m' (some e)

/-- The machines that come up when a program is run on `m`, any number of times: `m` itself, those
between two instructions of a run, and those that a run leaves when it ends. -/
inductive Reaches (p : Program) (flushEach : Bool) (m : Machine) : Machine → Prop where

  | start : Reaches p flushEach m m

  | next {m₁ m₂ : Machine} : Reaches p flushEach m m₁ → p.Next flushEach m₁ m₂ →
      Reaches p flushEach m m₂

  | run {m₁ : Machine} {r : Run} : Reaches p flushEach m m₁ → p.Ends flushEach m₁ r →
      Reaches p flushEach m r.machine

variable {p : Program} {flushEach : Bool} {m m₁ m₂ m' : Machine} {e? : Option RunError} {r : Run}

/-! ## Where an execution stops -/

theorem Stops.halts (h : p.Stops flushEach m m' e?) : p.Halts flushEach m m' e? := by
  cases h with
  | finished hf => exact halts_of_fetch?_eq_none hf
  | failed hf hs => exact halts_of_error hf hs

theorem Stops.ends (h : p.Stops flushEach m m' e?) :
    p.Ends flushEach m (.finish ⟨m', e?, 0⟩) := by
  refine ⟨1, ?_⟩
  cases h with
  | finished hf => simp [run, execute, hf]
  | failed hf hs => simp [run, execute, hf, hs]

theorem Stops.not_next (h : p.Stops flushEach m m' e?) : ¬ p.Next flushEach m m₁ := by
  rintro ⟨i, hf, hs⟩
  cases h with
  | finished hf' => cases hf.symm.trans hf'
  | failed hf' hs' =>
    cases hf.symm.trans hf'
    cases hs.symm.trans hs'

/-- Execution has one way to go. -/
theorem Steps.total (h₁ : p.Steps flushEach m m₁) (h₂ : p.Steps flushEach m m₂) :
    p.Steps flushEach m₁ m₂ ∨ p.Steps flushEach m₂ m₁ := by
  refine Relation.ReflTransGen.total_of_right_unique ?_ h₁ h₂
  rintro a b c ⟨i, hf, hs⟩ ⟨i', hf', hs'⟩
  cases hf.symm.trans hf'
  cases hs.symm.trans hs'
  rfl

theorem Steps.halts_iff (h : p.Steps flushEach m m₁) :
    p.Halts flushEach m m' e? ↔ p.Halts flushEach m₁ m' e? := by
  induction h with
  | refl => rfl
  | tail _ hn ih =>
    obtain ⟨i, hf, hs⟩ := hn
    rw [ih, halts_step_iff hf hs]

theorem exists_stops_of_execute {bound k : Nat} (h : p.execute flushEach bound k m = some r) :
    ∃ m₁, p.Steps flushEach m m₁ ∧ p.Stops flushEach m₁ r.machine r.error? := by
  induction bound generalizing k m with
  | zero => cases h
  | succ bound ih =>
    unfold execute at h
    split at h
    · rename_i hf
      cases h
      exact ⟨m, .refl, .finished hf⟩
    · rename_i i hf
      split at h
      · rename_i hs
        cases h
        exact ⟨m, .refl, .failed hf hs⟩
      · rename_i m₁ hs
        obtain ⟨m₂, hm₂, hst⟩ := ih h
        exact ⟨m₂, .head ⟨i, hf, hs⟩ hm₂, hst⟩

/-- An execution ends if and only if completed instructions lead to where it stops. -/
theorem halts_iff_exists_stops :
    p.Halts flushEach m m' e? ↔ ∃ m₁, p.Steps flushEach m m₁ ∧ p.Stops flushEach m₁ m' e? := by
  constructor
  · rintro ⟨bound, n, h⟩
    exact exists_stops_of_execute h
  · rintro ⟨m₁, hs, hst⟩
    exact hs.halts_iff.2 hst.halts

theorem Ends.exists_stops (h : p.Ends flushEach m r) :
    ∃ m₁ m' e? n, p.Steps flushEach m m₁ ∧ p.Stops flushEach m₁ m' e? ∧
      r = .finish ⟨m', e?, n⟩ := by
  obtain ⟨m', e?, n, hh, hr⟩ := h.halts
  obtain ⟨m₁, hs, hst⟩ := halts_iff_exists_stops.1 hh
  exact ⟨m₁, m', e?, n, hs, hst, hr⟩

/-! ## Invariants -/

theorem Steps.invariant {I : Machine → Prop} (h : p.Steps flushEach m m') (hm : I m)
    (hstep : ∀ {m i}, I m → m.fetch? p = some i → I (m.step flushEach i).state) : I m' := by
  induction h with
  | refl => exact hm
  | tail _ hn ih =>
    obtain ⟨i, hf, hs⟩ := hn
    have hi := hstep ih hf
    rwa [hs] at hi

/-- What holds at first and outlasts every instruction, also one that fails, and every flush. -/
theorem Reaches.invariant {I : Machine → Prop} (h : p.Reaches flushEach m m') (hm : I m)
    (hstep : ∀ {m i}, I m → m.fetch? p = some i → I (m.step flushEach i).state)
    (hflush : ∀ {m}, I m → I m.flush) : I m' := by
  induction h with
  | start => exact hm
  | next _ hn ih => exact Steps.invariant (.single hn) ih hstep
  | run _ hr ih =>
    obtain ⟨m₁, m₂, e?, n, hs, hst, rfl⟩ := hr.exists_stops
    have hm₁ := hs.invariant ih hstep
    apply hflush
    cases hst with
    | finished => exact hm₁
    | failed hf hs =>
      have hm₂ := hstep hm₁ hf
      rwa [hs] at hm₂

end Program

end Brainfuck
