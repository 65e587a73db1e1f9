/-! # Events

The compiler and the machine report what they did as events with a level, a message and
numbered fields.
-/

namespace Brainfuck

inductive Level where
  | debug
  | trace

inductive Event where
  /-- A loop was replaced by `length` instructions that begin at `position`. -/
  | foldedLoop (position length : Nat)
  /-- Folding ended after so many sweeps. -/
  | foldingDone (sweeps : Nat)
  /-- A source of `source` bytes with `operators` operators gave `emitted` instructions, and
  `final` after folding. -/
  | compiled (source operators emitted final : Nat)
  /-- A run ended well after so many instructions. -/
  | runFinished (dispatched : Nat)
  deriving DecidableEq

namespace Event

def level : Event → Level
  | foldedLoop .. => .trace
  | _ => .debug

def message : Event → String
  | foldedLoop .. => "folded loop"
  | foldingDone .. => "loop folding reached a fixed point"
  | compiled .. => "compiled program"
  | runFinished .. => "run finished"

def fields : Event → List (String × Nat)
  | foldedLoop position length => [("at", position), ("len", length)]
  | foldingDone sweeps => [("sweeps", sweeps)]
  | compiled source operators emitted final =>
    [("source_len", source), ("cleaned_len", operators), ("emitted", emitted), ("folded", final)]
  | runFinished dispatched => [("dispatched", dispatched)]

end Event

end Brainfuck
