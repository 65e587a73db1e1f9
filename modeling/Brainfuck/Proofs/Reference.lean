import Mathlib.Tactic.Common
import Brainfuck.Machine.State
import Brainfuck.Source

/-! # The reference interpreter

The language is defined here by a reader that executes a text one operator at a time. Every
operator acts on one cell or one byte, and loops are found in the text. What an operator does with
the streams is said of the whole queue: of the interruptions at its front, of the answer behind them
and of what is left.
-/

namespace Brainfuck

inductive Crash where
  | offTape
  | stream (e : StreamError)
  deriving DecidableEq

def ReadEvent.isInterruption : ReadEvent → Bool
  | fail ⟨.interrupted, _⟩ => true
  | _ => false

def WriteEvent.isInterruption : WriteEvent → Bool
  | fail ⟨.interrupted, _⟩ => true
  | _ => false

namespace Streams

/-- Interruptions are waited out. The end of input is the byte zero, also where the reader reports
it as an error. -/
def takeByte (s : Streams) : Except StreamError UInt8 × Streams :=
  let waits := s.input.takeWhile ReadEvent.isInterruption
  let after (answer : ReadEvent) (rest : List ReadEvent) : Streams :=
    { s with input := rest, calls := s.calls ++ ((waits ++ [answer]).map Call.read).toArray }
  match s.input.dropWhile ReadEvent.isInterruption with
  | [] => (.ok 0, after .endOfInput [])
  | .endOfInput :: rest => (.ok 0, after .endOfInput rest)
  | .byte b :: rest => (.ok b, after (.byte b) rest)
  | .fail ⟨.unexpectedEof, text⟩ :: rest => (.ok 0, after (.fail ⟨.unexpectedEof, text⟩) rest)
  | .fail e :: rest => (.error e, after (.fail e) rest)

/-- Interruptions are waited out. To take nothing is to fail. -/
def giveByte (b : UInt8) (s : Streams) : Option StreamError × Streams :=
  let waits := s.writes.takeWhile WriteEvent.isInterruption
  let after (answer : WriteEvent) (rest : List WriteEvent) : Streams :=
    { s with writes := rest, calls := s.calls ++ ((waits ++ [answer]).map (Call.write b)).toArray }
  match s.writes.dropWhile WriteEvent.isInterruption with
  | [] => (none, after .accept [])
  | .accept :: rest => (none, after .accept rest)
  | .refuse :: rest => (some ⟨.other, "failed to write whole buffer"⟩, after .refuse rest)
  | .fail e :: rest => (some e, after (.fail e) rest)

/-- The writer passes on the bytes that it was given. Here an interruption is a failure. -/
def deliver (s : Streams) : Option StreamError × Streams :=
  let after (answer : FlushEvent) (rest : List FlushEvent) : Streams :=
    { s with flushes := rest, calls := s.calls.push (.flush answer) }
  match s.flushes with
  | [] => (none, after .done [])
  | .done :: rest => (none, after .done rest)
  | .fail e :: rest => (some e, after (.fail e) rest)

end Streams

/-- Carries out an operator; a bracket changes nothing here. -/
def Operator.exec (flushEach : Bool) : Operator → State → Outcome State Crash
  | .increment, s => { state := { s with tape := s.tape.poke s.dp (s.cell + 1) } }
  | .decrement, s => { state := { s with tape := s.tape.poke s.dp (s.cell - 1) } }
  | .right, s =>
    if h : s.dp.val + 1 < tapeLength then { state := { s with dp := ⟨s.dp.val + 1, h⟩ } }
    else ⟨s, some .offTape⟩
  | .left, s =>
    match s.dp with
    | ⟨0, _⟩ => ⟨s, some .offTape⟩
    | ⟨n + 1, h⟩ => { state := { s with dp := ⟨n, Nat.lt_of_succ_lt h⟩ } }
  | .write, s =>
    match s.streams.giveByte s.cell with
    | (some e, streams) => ⟨{ s with streams := streams }, some (.stream e)⟩
    | (none, streams) =>
      let (e?, streams) := if flushEach then streams.deliver else (none, streams)
      ⟨{ s with streams := streams }, e?.map .stream⟩
  | .read, s =>
    match s.streams.takeByte with
    | (.ok b, streams) => { state := { s with tape := s.tape.poke s.dp b, streams := streams } }
    | (.error e, streams) => ⟨{ s with streams := streams }, some (.stream e)⟩
  | .loopStart, s => { state := s }
  | .loopEnd, s => { state := s }

/-- The text behind the bracket that ends a loop, which is `depth` loops further out. -/
def skipLoop : Nat → List Operator → List Operator
  | _, [] => []
  | depth, .loopStart :: ops => skipLoop (depth + 1) ops
  | 0, .loopEnd :: ops => ops
  | depth + 1, .loopEnd :: ops => skipLoop depth ops
  | depth, _ :: ops => skipLoop depth ops

structure Reader where
  /-- The text that is still to be executed. -/
  rest : List Operator
  /-- The texts from the bodies of the surrounding loops on, the innermost first. -/
  loops : List (List Operator) := []
  state : State := {}

namespace Reader

def step (flushEach : Bool) (op : Operator) : Reader → Outcome Reader Crash
  | ⟨ops, loops, s⟩ =>
    match op, loops with
    | .loopStart, _ =>
      { state := if s.cell = 0 then ⟨skipLoop 0 ops, loops, s⟩ else ⟨ops, ops :: loops, s⟩ }
    | .loopEnd, text :: outer =>
      { state := if s.cell = 0 then ⟨ops, outer, s⟩ else ⟨text, loops, s⟩ }
    | _, _ =>
      match op.exec flushEach s with
      | ⟨s, crash?⟩ => ⟨⟨ops, loops, s⟩, crash?⟩

/-- Executes a text to its end; `none` if the bound is too small. -/
def run (flushEach : Bool) : Nat → Reader → Option (Outcome State Crash)
  | 0, _ => none
  | _ + 1, ⟨[], _, s⟩ => some { state := s }
  | bound + 1, ⟨op :: ops, loops, s⟩ =>
    match step flushEach op ⟨ops, loops, s⟩ with
    | ⟨reader, none⟩ => run flushEach bound reader
    | ⟨reader, some crash⟩ => some ⟨reader.state, some crash⟩

def Halts (flushEach : Bool) (reader : Reader) (o : Outcome State Crash) : Prop :=
  ∃ bound, run flushEach bound reader = some o

variable {flushEach : Bool} {bound larger : Nat} {reader : Reader} {o o' : Outcome State Crash}

theorem run_mono (h : run flushEach bound reader = some o) (hle : bound ≤ larger) :
    run flushEach larger reader = some o := by
  induction bound generalizing larger reader with
  | zero => cases h
  | succ bound ih =>
    obtain ⟨larger, rfl⟩ := Nat.exists_eq_add_of_lt hle
    obtain ⟨rest, loops, s⟩ := reader
    cases rest with
    | nil => exact h
    | cons op ops =>
      unfold run at h ⊢
      split at h
      · exact ih h (by omega)
      · exact h

theorem Halts.unique (h : Halts flushEach reader o) (h' : Halts flushEach reader o') : o = o' := by
  obtain ⟨b, hb⟩ := h
  obtain ⟨b', hb'⟩ := h'
  have h₁ := run_mono hb (Nat.le_max_left b b')
  have h₂ := run_mono hb' (Nat.le_max_right b b')
  exact Option.some.inj (h₁.symm.trans h₂)

end Reader

/-- Flushes the writer at the end; an error of the program comes before an error of this flush. -/
def Outcome.finish (o : Outcome State Crash) : Outcome State Crash where
  state := { o.state with streams := o.state.streams.deliver.2 }
  error? := o.error? <|> o.state.streams.deliver.1.map .stream

/-- The text is executed to its end on a blank tape. -/
def Operator.Interprets (flushEach : Bool) (ops : List Operator) (streams : Streams)
    (o : Outcome State Crash) : Prop :=
  ∃ o', Reader.Halts flushEach { rest := ops, state := { streams := streams } } o' ∧ o = o'.finish

end Brainfuck
