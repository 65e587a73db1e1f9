/-! # Scripted streams

The reader and the writer of a program are scripts: queues that say how each call is answered.
Every call takes the front of its queue, and an empty queue goes on with the default answer.
All calls are recorded together with their answers, and what was read, written and counted is
a view of that record.
-/

namespace Brainfuck

/-- The kinds of failure that a call can report, as far as they are treated apart. -/
inductive ErrorKind where
  | interrupted
  | unexpectedEof
  | other
  deriving DecidableEq

structure StreamError where
  kind : ErrorKind
  text : String
  deriving DecidableEq

def StreamError.isInterrupted (e : StreamError) : Bool :=
  e.kind == .interrupted

inductive ReadEvent where
  | byte (b : UInt8)
  | endOfInput
  | fail (e : StreamError)
  deriving DecidableEq

/-- The answer to one write call, which offers one byte. -/
inductive WriteEvent where
  | accept
  | refuse
  | fail (e : StreamError)
  deriving DecidableEq

inductive FlushEvent where
  | done
  | fail (e : StreamError)
  deriving DecidableEq

namespace ReadEvent

/-- An interrupted call is made again. -/
def isRetried : ReadEvent → Bool
  | fail e => e.isInterrupted
  | _ => false

/-- The end of input reads as zero. -/
def result : ReadEvent → Except StreamError UInt8
  | byte b => .ok b
  | endOfInput => .ok 0
  | fail e => if e.kind = .unexpectedEof then .ok 0 else .error e

end ReadEvent

namespace WriteEvent

def isRetried : WriteEvent → Bool
  | fail e => e.isInterrupted
  | _ => false

/-- A writer that takes nothing will never take the byte. -/
def error? : WriteEvent → Option StreamError
  | accept => none
  | refuse => some ⟨.other, "failed to write whole buffer"⟩
  | fail e => some e

end WriteEvent

/-- A flush is never made again. -/
def FlushEvent.error? : FlushEvent → Option StreamError
  | done => none
  | fail e => some e

inductive Call where
  | read (answer : ReadEvent)
  | write (byte : UInt8) (answer : WriteEvent)
  | flush (answer : FlushEvent)
  deriving DecidableEq

namespace Call

def accepted? : Call → Option UInt8
  | write byte .accept => some byte
  | _ => none

def isByteRead : Call → Bool
  | read (.byte _) => true
  | _ => false

def isWrite : Call → Bool
  | write .. => true
  | _ => false

def isFlush : Call → Bool
  | flush _ => true
  | _ => false

end Call

structure Streams where
  input : List ReadEvent := []
  writes : List WriteEvent := []
  flushes : List FlushEvent := []
  calls : Array Call := #[]

namespace Streams

/-- A script that supplies the given bytes and then ends. -/
def ofBytes (bytes : List UInt8) : Streams where
  input := bytes.map .byte

/-- The bytes that the writer has accepted. -/
def output (s : Streams) : List UInt8 :=
  s.calls.toList.filterMap Call.accepted?

def consumed (s : Streams) : Nat :=
  s.calls.countP Call.isByteRead

def writeCount (s : Streams) : Nat :=
  s.calls.countP Call.isWrite

def flushCount (s : Streams) : Nat :=
  s.calls.countP Call.isFlush

def readFrom : List ReadEvent → Array Call →
    Except StreamError UInt8 × List ReadEvent × Array Call
  | [], calls => (ReadEvent.endOfInput.result, [], calls.push (.read .endOfInput))
  | answer :: rest, calls =>
    if answer.isRetried then readFrom rest (calls.push (.read answer))
    else (answer.result, rest, calls.push (.read answer))

def writeTo (byte : UInt8) : List WriteEvent → Array Call →
    Option StreamError × List WriteEvent × Array Call
  | [], calls => (none, [], calls.push (.write byte .accept))
  | answer :: rest, calls =>
    if answer.isRetried then writeTo byte rest (calls.push (.write byte answer))
    else (answer.error?, rest, calls.push (.write byte answer))

def read : Streams → Except StreamError UInt8 × Streams
  | ⟨input, writes, flushes, calls⟩ =>
    let (result, input, calls) := readFrom input calls
    (result, ⟨input, writes, flushes, calls⟩)

def write (byte : UInt8) : Streams → Option StreamError × Streams
  | ⟨input, writes, flushes, calls⟩ =>
    let (error, writes, calls) := writeTo byte writes calls
    (error, ⟨input, writes, flushes, calls⟩)

def flush : Streams → Option StreamError × Streams
  | ⟨input, writes, [], calls⟩ =>
    (none, ⟨input, writes, [], calls.push (.flush .done)⟩)
  | ⟨input, writes, answer :: rest, calls⟩ =>
    (answer.error?, ⟨input, writes, rest, calls.push (.flush answer)⟩)

def put (flushEach : Bool) (byte : UInt8) (s : Streams) : Option StreamError × Streams :=
  match s.write byte with
  | (some e, s) => (some e, s)
  | (none, s) => if flushEach then s.flush else (none, s)

/-- Writes a byte `n` times, up to the first failure. -/
def putMany (flushEach : Bool) (byte : UInt8) : Nat → Streams → Option StreamError × Streams
  | 0, s => (none, s)
  | n + 1, s =>
    match s.put flushEach byte with
    | (some e, s) => (some e, s)
    | (none, s) => putMany flushEach byte n s

/-- Reads `n` bytes over the byte `last`, up to the first failure; the last one read stays. -/
def readMany : Nat → UInt8 → Streams → Option StreamError × UInt8 × Streams
  | 0, last, s => (none, last, s)
  | n + 1, last, s =>
    match s.read with
    | (.error e, s) => (some e, last, s)
    | (.ok b, s) => readMany n b s

/-! ## What a flush leaves alone -/

variable (s : Streams)

@[simp] theorem input_flush : s.flush.2.input = s.input := by
  obtain ⟨input, writes, flushes, calls⟩ := s
  cases flushes <;> rfl

theorem exists_calls_flush : ∃ answer, s.flush.2.calls = s.calls.push (.flush answer) := by
  obtain ⟨input, writes, flushes, calls⟩ := s
  cases flushes with
  | nil => exact ⟨.done, rfl⟩
  | cons answer rest => exact ⟨answer, rfl⟩

@[simp] theorem output_flush : s.flush.2.output = s.output := by
  obtain ⟨answer, h⟩ := s.exists_calls_flush
  simp [output, h, Call.accepted?]

@[simp] theorem consumed_flush : s.flush.2.consumed = s.consumed := by
  obtain ⟨answer, h⟩ := s.exists_calls_flush
  simp [consumed, h, Call.isByteRead]

@[simp] theorem writeCount_flush : s.flush.2.writeCount = s.writeCount := by
  obtain ⟨answer, h⟩ := s.exists_calls_flush
  simp [writeCount, h, Call.isWrite]

end Streams

end Brainfuck
