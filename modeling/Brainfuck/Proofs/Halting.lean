import Mathlib.Tactic.Common
import Brainfuck.Machine.Run

/-! # Runs that end

Where no bound is given, a run ends if some bound is large enough, and all such bounds give the
same end. Execution that ends can be followed one instruction at a time.
-/

namespace Brainfuck

namespace Run

@[simp] theorem finish_streams (r : Run) :
    r.finish.machine.streams = r.machine.streams.flush.2 := rfl

@[simp] theorem finish_error? (r : Run) :
    r.finish.error? = (r.error? <|> r.machine.streams.flush.1.map .stream) := rfl

end Run

namespace Program

def Ends (p : Program) (flushEach : Bool) (m : Machine) (r : Run) : Prop :=
  ∃ bound, p.run flushEach bound m = some r

/-- Execution ends in the given way; the final flush is still to come. -/
def Halts (p : Program) (flushEach : Bool) (m m' : Machine) (e? : Option RunError) : Prop :=
  ∃ bound n, p.execute flushEach bound 0 m = some ⟨m', e?, n⟩

/-- The runs, one after the other on one machine, end in the given ways. -/
def Session (p : Program) (flushEach : Bool) : Machine → List Run → Prop
  | _, [] => True
  | m, r :: rs => p.Ends flushEach m r ∧ p.Session flushEach r.machine rs

variable {p : Program} {flushEach : Bool} {m m₁ m₂ m' : Machine} {e? e₁ e₂ : Option RunError}

theorem Ends.unique {r r' : Run} (h : p.Ends flushEach m r) (h' : p.Ends flushEach m r') :
    r = r' := by
  obtain ⟨b, hb⟩ := h
  obtain ⟨b', hb'⟩ := h'
  have h₁ := run_mono hb (Nat.le_max_left b b')
  have h₂ := run_mono hb' (Nat.le_max_right b b')
  exact Option.some.inj (h₁.symm.trans h₂)

theorem Halts.unique (h₁ : p.Halts flushEach m m₁ e₁) (h₂ : p.Halts flushEach m m₂ e₂) :
    m₁ = m₂ ∧ e₁ = e₂ := by
  obtain ⟨b, n, hb⟩ := h₁
  obtain ⟨b', n', hb'⟩ := h₂
  have h₁ := execute_mono hb (Nat.le_max_left b b')
  have h₂ := execute_mono hb' (Nat.le_max_right b b')
  cases h₁.symm.trans h₂
  exact ⟨rfl, rfl⟩

theorem Ends.halts {r : Run} (h : p.Ends flushEach m r) :
    ∃ m' e? n, p.Halts flushEach m m' e? ∧ r = Run.finish ⟨m', e?, n⟩ := by
  obtain ⟨b, hb⟩ := h
  obtain ⟨⟨m', e?, n⟩, he, rfl⟩ := Option.map_eq_some_iff.1 hb
  exact ⟨m', e?, n, ⟨b, n, he⟩, rfl⟩

theorem Halts.ends (h : p.Halts flushEach m m' e?) :
    ∃ n, p.Ends flushEach m (Run.finish ⟨m', e?, n⟩) := by
  obtain ⟨b, n, hb⟩ := h
  exact ⟨n, b, Option.map_eq_some_iff.2 ⟨_, hb, rfl⟩⟩

theorem execute_add (p : Program) (flushEach : Bool) (bound n k : Nat) (m : Machine) :
    p.execute flushEach bound (n + k) m =
      (p.execute flushEach bound n m).map fun r => { r with dispatched := r.dispatched + k } := by
  induction bound generalizing n m with
  | zero => rfl
  | succ bound ih =>
    unfold execute
    split
    · rfl
    · split
      · rfl
      · rw [Nat.add_right_comm, ih]

theorem halts_of_fetch?_eq_none (hf : m.fetch? p = none) : p.Halts flushEach m m none :=
  ⟨1, 0, by simp [execute, hf]⟩

theorem halts_of_error {i : Instr} {e : RunError} (hf : m.fetch? p = some i)
    (hs : m.step flushEach i = ⟨m', some e⟩) : p.Halts flushEach m m' (some e) :=
  ⟨1, 0, by simp [execute, hf, hs]⟩

theorem execute_succ {i : Instr} (hf : m.fetch? p = some i) (hs : m.step flushEach i = ⟨m₁, none⟩)
    (bound n : Nat) :
    p.execute flushEach (bound + 1) n m = p.execute flushEach bound (n + 1) m₁ := by
  simp [execute, hf, hs]

theorem halts_step_iff {i : Instr} (hf : m.fetch? p = some i)
    (hs : m.step flushEach i = ⟨m₁, none⟩) :
    p.Halts flushEach m m' e? ↔ p.Halts flushEach m₁ m' e? := by
  constructor
  · rintro ⟨bound, n, hb⟩
    cases bound with
    | zero => cases hb
    | succ bound =>
      rw [execute_succ hf hs, execute_add] at hb
      obtain ⟨⟨m₂, e₂, n₂⟩, hx, he⟩ := Option.map_eq_some_iff.1 hb
      cases he
      exact ⟨bound, n₂, hx⟩
  · rintro ⟨bound, n, hb⟩
    refine ⟨bound + 1, n + 1, ?_⟩
    rw [execute_succ hf hs, execute_add, hb]
    rfl

end Program

end Brainfuck
