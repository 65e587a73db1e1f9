import Brainfuck.Event
import Brainfuck.Machine.Step

/-! # Runs

A run executes instructions until the instruction pointer leaves the program or an instruction
fails, and then flushes the writer once. A run need not end, so it has a bound on the number
of instructions; a run that does end has the same answer for every larger bound.
-/

namespace Brainfuck

structure Run where
  machine : Machine
  error? : Option RunError
  /-- The number of instructions that were completed. -/
  dispatched : Nat

namespace Run

def events (r : Run) : Array Event :=
  if r.error?.isNone then #[.runFinished r.dispatched] else #[]

/-- Flushes the writer; an error of the program comes before an error of this flush. -/
def finish : Run → Run
  | ⟨⟨⟨tape, dp, streams⟩, ip⟩, error?, dispatched⟩ =>
    let (flushError?, streams) := streams.flush
    ⟨⟨⟨tape, dp, streams⟩, ip⟩, error? <|> flushError?.map .stream, dispatched⟩

end Run

namespace Program

/-- Executes instructions to the end, after `dispatched` of them; `none` if the bound is too
small. -/
def execute (p : Program) (flushEach : Bool) : Nat → Nat → Machine → Option Run
  | 0, _, _ => none
  | bound + 1, dispatched, m =>
    match m.fetch? p with
    | none => some ⟨m, none, dispatched⟩
    | some i =>
      match m.step flushEach i with
      | ⟨m, some e⟩ => some ⟨m, some e, dispatched⟩
      | ⟨m, none⟩ => p.execute flushEach bound (dispatched + 1) m

def run (p : Program) (flushEach : Bool) (bound : Nat) (m : Machine) : Option Run :=
  (p.execute flushEach bound 0 m).map .finish

theorem execute_mono {p : Program} {flushEach : Bool} {bound larger dispatched : Nat}
    {m : Machine} {r : Run} (h : p.execute flushEach bound dispatched m = some r)
    (hle : bound ≤ larger) : p.execute flushEach larger dispatched m = some r := by
  induction bound generalizing larger dispatched m with
  | zero => cases h
  | succ bound ih =>
    obtain ⟨larger, rfl⟩ := Nat.exists_eq_add_of_lt hle
    unfold execute at h ⊢
    split at h
    · simpa using h
    · split at h
      · simpa using h
      · exact ih h (by omega)

theorem run_mono {p : Program} {flushEach : Bool} {bound larger : Nat} {m : Machine} {r : Run}
    (h : p.run flushEach bound m = some r) (hle : bound ≤ larger) :
    p.run flushEach larger m = some r := by
  obtain ⟨ended, he, rfl⟩ := Option.map_eq_some_iff.1 h
  exact Option.map_eq_some_iff.2 ⟨ended, execute_mono he hle, rfl⟩

end Program

end Brainfuck
