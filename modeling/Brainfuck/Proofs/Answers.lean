import Mathlib.Data.List.TakeWhile
import Mathlib.Tactic.Common
import Brainfuck.Instr
import Brainfuck.Streams

/-! # Answers

An interrupted call is made again, so a read or a write comes to the first answer in its queue that
is no interruption. What the call returns, what it leaves in the queues and what it adds to the
record are said of that answer. An answer is hard if a program has to stop for it.
-/

namespace Brainfuck

/-- The error for which a program has to stop. -/
def ReadEvent.hardError? : ReadEvent → Option StreamError
  | fail e => if e.kind = .interrupted ∨ e.kind = .unexpectedEof then none else some e
  | _ => none

def WriteEvent.hardError? : WriteEvent → Option StreamError
  | accept => none
  | refuse => some ⟨.other, "failed to write whole buffer"⟩
  | fail e => if e.kind = .interrupted then none else some e

def ReadEvent.isHard (a : ReadEvent) : Bool :=
  a.hardError?.isSome

def WriteEvent.isHard (a : WriteEvent) : Bool :=
  a.hardError?.isSome

/-- A flush is not made again, so that the program has to stop for every error of it. -/
def Call.hardError? : Call → Option StreamError
  | read answer => answer.hardError?
  | write _ answer => answer.hardError?
  | flush answer => answer.error?

namespace ReadEvent

variable {a : ReadEvent} {e : StreamError}

theorem hardError?_of_isRetried (h : a.isRetried) : a.hardError? = none := by
  cases a with
  | fail e => simp_all [isRetried, hardError?, StreamError.isInterrupted]
  | _ => rfl

theorem result_of_hardError? (h : a.hardError? = some e) : a.result = .error e := by
  cases a with
  | fail e' =>
    simp only [hardError?] at h
    split at h
    · cases h
    · rename_i hk
      cases h
      exact if_neg fun hu => hk (.inr hu)
  | _ => cases h

theorem hardError?_of_result_ok {b : UInt8} (h : a.result = .ok b) : a.hardError? = none := by
  refine Option.eq_none_iff_forall_ne_some.2 fun e he => ?_
  rw [result_of_hardError? he] at h
  cases h

theorem hardError?_of_result_error (ha : a.isRetried = false) (h : a.result = .error e) :
    a.hardError? = some e := by
  cases a with
  | fail e' =>
    have hi : e'.kind ≠ .interrupted := by simpa [isRetried, StreamError.isInterrupted] using ha
    simp only [result] at h
    split at h
    · cases h
    · rename_i hu
      cases h
      exact if_neg (not_or.2 ⟨hi, hu⟩)
  | _ => cases h

end ReadEvent

namespace WriteEvent

variable {a : WriteEvent} {e : StreamError}

theorem hardError?_of_isRetried (h : a.isRetried) : a.hardError? = none := by
  cases a with
  | fail e => simp_all [isRetried, hardError?, StreamError.isInterrupted]
  | _ => cases h

theorem hardError?_eq_error? (h : a.isRetried = false) : a.hardError? = a.error? := by
  cases a with
  | fail e => simp_all [isRetried, hardError?, error?, StreamError.isInterrupted]
  | _ => rfl

end WriteEvent

section Queues

variable {α : Type}

theorem headD_dropWhile (skip : α → Bool) (q : List α) (d : α) :
    (q.dropWhile skip).headD d = (q.filter (!skip ·)).headD d := by
  induction q with
  | nil => rfl
  | cons a q ih =>
    by_cases ha : skip a
    · simpa [ha] using ih
    · simp [ha]

theorem filter_tail_dropWhile (skip : α → Bool) (q : List α) :
    (q.dropWhile skip).tail.filter (!skip ·) = (q.filter (!skip ·)).tail := by
  induction q with
  | nil => rfl
  | cons a q ih =>
    by_cases ha : skip a
    · simpa [ha] using ih
    · simp [ha]

theorem not_skip_headD_dropWhile {skip : α → Bool} {d : α} (hd : skip d = false) (q : List α) :
    skip ((q.dropWhile skip).headD d) = false := by
  rw [headD_dropWhile]
  cases h : q.filter (!skip ·) with
  | nil => exact hd
  | cons a rest =>
    have ha : a ∈ q.filter (!skip ·) := by simp [h]
    simpa using (List.mem_filter.1 ha).2

theorem headD_eq_getD (q : List α) (d : α) : q.headD d = q.getD 0 d := by
  cases q <;> rfl

end Queues

namespace Streams

/-- The answers that reads come to, one after the other. -/
def readAnswers (s : Streams) : List ReadEvent :=
  s.input.filter (!·.isRetried)

def writeAnswers (s : Streams) : List WriteEvent :=
  s.writes.filter (!·.isRetried)

/-- The answer that the next read comes to. -/
def readAnswer (s : Streams) : ReadEvent :=
  (s.input.dropWhile ReadEvent.isRetried).headD .endOfInput

def writeAnswer (s : Streams) : WriteEvent :=
  (s.writes.dropWhile WriteEvent.isRetried).headD .accept

def flushAnswer (s : Streams) : FlushEvent :=
  s.flushes.headD .done

def hardErrors (s : Streams) : List StreamError :=
  s.calls.toList.filterMap Call.hardError?

theorem readFrom_eq (input : List ReadEvent) (calls : Array Call) :
    readFrom input calls =
      let answer := (input.dropWhile ReadEvent.isRetried).headD .endOfInput
      (answer.result, (input.dropWhile ReadEvent.isRetried).tail,
        calls ++ ((input.takeWhile ReadEvent.isRetried ++ [answer]).map Call.read).toArray) := by
  induction input generalizing calls with
  | nil => simp [readFrom]
  | cons a rest ih =>
    unfold readFrom
    by_cases h : a.isRetried
    · simp [h, ih]
    · simp [h]

theorem writeTo_eq (b : UInt8) (writes : List WriteEvent) (calls : Array Call) :
    writeTo b writes calls =
      let answer := (writes.dropWhile WriteEvent.isRetried).headD .accept
      (answer.error?, (writes.dropWhile WriteEvent.isRetried).tail,
        calls ++
          ((writes.takeWhile WriteEvent.isRetried ++ [answer]).map (Call.write b)).toArray) := by
  induction writes generalizing calls with
  | nil => simp [writeTo, WriteEvent.error?]
  | cons a rest ih =>
    unfold writeTo
    by_cases h : a.isRetried
    · simp [h, ih]
    · simp [h]

/-- The next call of an instruction with the given opcode fails: a read, a write, or the flush after
a write. -/
inductive Fault (flushEach : Bool) (s : Streams) (e : StreamError) : Opcode → Prop where

  | read : s.readAnswer.hardError? = some e → Fault flushEach s e .read

  | write : s.writeAnswer.error? = some e → Fault flushEach s e .write

  | flush : flushEach → s.writeAnswer.error? = none → s.flushAnswer.error? = some e →
      Fault flushEach s e .write

variable (s : Streams) (b : UInt8)

theorem readAnswer_eq : s.readAnswer = s.readAnswers.headD .endOfInput :=
  headD_dropWhile ..

theorem writeAnswer_eq : s.writeAnswer = s.writeAnswers.headD .accept :=
  headD_dropWhile ..

theorem isRetried_readAnswer : s.readAnswer.isRetried = false :=
  not_skip_headD_dropWhile rfl s.input

theorem isRetried_writeAnswer : s.writeAnswer.isRetried = false :=
  not_skip_headD_dropWhile rfl s.writes

/-! ## Reads -/

theorem fst_read : s.read.1 = s.readAnswer.result := by
  simp only [read, readFrom_eq, readAnswer]

@[simp] theorem input_read : s.read.2.input = (s.input.dropWhile ReadEvent.isRetried).tail := by
  simp only [read, readFrom_eq]

@[simp] theorem readAnswers_read : s.read.2.readAnswers = s.readAnswers.tail := by
  rw [readAnswers, input_read, filter_tail_dropWhile, readAnswers]

@[simp] theorem writeAnswers_read : s.read.2.writeAnswers = s.writeAnswers := rfl

@[simp] theorem writes_read : s.read.2.writes = s.writes := rfl

@[simp] theorem flushes_read : s.read.2.flushes = s.flushes := rfl

theorem calls_read :
    s.read.2.calls.toList =
      s.calls.toList ++
        (s.input.takeWhile ReadEvent.isRetried ++ [s.readAnswer]).map Call.read := by
  simp only [read, readFrom_eq, readAnswer, Array.toList_append]

@[simp] theorem output_read : s.read.2.output = s.output := by
  rw [output, calls_read, List.filterMap_append, List.filterMap_map]
  simp [output, Function.comp_def, Call.accepted?]

@[simp] theorem writeCount_read : s.read.2.writeCount = s.writeCount := by
  rw [writeCount, ← Array.countP_toList, calls_read, List.countP_append, List.countP_map]
  simp [writeCount, Function.comp_def, Call.isWrite]

@[simp] theorem flushCount_read : s.read.2.flushCount = s.flushCount := by
  rw [flushCount, ← Array.countP_toList, calls_read, List.countP_append, List.countP_map]
  simp [flushCount, Function.comp_def, Call.isFlush]

theorem consumed_read :
    s.read.2.consumed = s.consumed + (Call.read s.readAnswer).isByteRead.toNat := by
  have hr : (s.input.takeWhile ReadEvent.isRetried).countP (Call.isByteRead ∘ Call.read) = 0 := by
    rw [List.countP_eq_zero]
    intro a ha
    have hra := List.mem_takeWhile_imp ha
    cases a <;> simp_all [ReadEvent.isRetried, Call.isByteRead]
  rw [consumed, ← Array.countP_toList, calls_read, List.countP_append, List.countP_map,
    List.countP_append, hr, Array.countP_toList, List.countP_singleton, Nat.zero_add,
    Function.comp_apply]
  cases (Call.read s.readAnswer).isByteRead <;> rfl

theorem hardErrors_read :
    s.read.2.hardErrors = s.hardErrors ++ s.readAnswer.hardError?.toList := by
  have hr : (s.input.takeWhile ReadEvent.isRetried).filterMap (Call.hardError? ∘ Call.read) =
      [] := by
    rw [List.filterMap_eq_nil_iff]
    exact fun a ha => ReadEvent.hardError?_of_isRetried (List.mem_takeWhile_imp ha)
  rw [hardErrors, calls_read, List.filterMap_append, List.filterMap_map, List.filterMap_append, hr]
  cases h : s.readAnswer.hardError? <;> simp [hardErrors, Call.hardError?, h]

/-! ## Writes -/

theorem fst_write : (s.write b).1 = s.writeAnswer.error? := by
  simp only [write, writeTo_eq, writeAnswer]

@[simp] theorem input_write : (s.write b).2.input = s.input := rfl

@[simp] theorem writes_write :
    (s.write b).2.writes = (s.writes.dropWhile WriteEvent.isRetried).tail := by
  simp only [write, writeTo_eq]

@[simp] theorem flushes_write : (s.write b).2.flushes = s.flushes := rfl

theorem calls_write :
    (s.write b).2.calls.toList =
      s.calls.toList ++
        (s.writes.takeWhile WriteEvent.isRetried ++ [s.writeAnswer]).map (Call.write b) := by
  simp only [write, writeTo_eq, writeAnswer, Array.toList_append]

theorem output_write :
    (s.write b).2.output = s.output ++ (Call.write b s.writeAnswer).accepted?.toList := by
  have hr : (s.writes.takeWhile WriteEvent.isRetried).filterMap
      (Call.accepted? ∘ Call.write b) = [] := by
    rw [List.filterMap_eq_nil_iff]
    intro a ha
    have hra := List.mem_takeWhile_imp ha
    cases a <;> simp_all [WriteEvent.isRetried, Call.accepted?]
  rw [output, calls_write, List.filterMap_append, List.filterMap_map, List.filterMap_append, hr]
  cases h : (Call.write b s.writeAnswer).accepted? <;> simp [output, h]

@[simp] theorem consumed_write : (s.write b).2.consumed = s.consumed := by
  rw [consumed, ← Array.countP_toList, calls_write, List.countP_append, List.countP_map]
  simp [consumed, Function.comp_def, Call.isByteRead]

theorem writeCount_write :
    (s.write b).2.writeCount =
      s.writeCount + (s.writes.takeWhile WriteEvent.isRetried).length + 1 := by
  rw [writeCount, ← Array.countP_toList, calls_write, List.countP_append, List.countP_map]
  simp [writeCount, Function.comp_def, Call.isWrite, Nat.add_assoc]

@[simp] theorem flushCount_write : (s.write b).2.flushCount = s.flushCount := by
  rw [flushCount, ← Array.countP_toList, calls_write, List.countP_append, List.countP_map]
  simp [flushCount, Function.comp_def, Call.isFlush]

theorem hardErrors_write :
    (s.write b).2.hardErrors = s.hardErrors ++ s.writeAnswer.hardError?.toList := by
  have hr : (s.writes.takeWhile WriteEvent.isRetried).filterMap
      (Call.hardError? ∘ Call.write b) = [] := by
    rw [List.filterMap_eq_nil_iff]
    exact fun a ha => WriteEvent.hardError?_of_isRetried (List.mem_takeWhile_imp ha)
  rw [hardErrors, calls_write, List.filterMap_append, List.filterMap_map, List.filterMap_append,
    hr]
  cases h : s.writeAnswer.hardError? <;> simp [hardErrors, Call.hardError?, h]

/-! ## Flushes -/

theorem flush_eq :
    s.flush = (s.flushAnswer.error?,
      { s with flushes := s.flushes.tail, calls := s.calls.push (.flush s.flushAnswer) }) := by
  obtain ⟨input, writes, flushes, calls⟩ := s
  cases flushes <;> rfl

theorem fst_flush : s.flush.1 = s.flushAnswer.error? := by
  rw [flush_eq]

@[simp] theorem writes_flush : s.flush.2.writes = s.writes := by
  rw [flush_eq]

@[simp] theorem flushes_flush : s.flush.2.flushes = s.flushes.tail := by
  rw [flush_eq]

@[simp] theorem readAnswers_flush : s.flush.2.readAnswers = s.readAnswers := by
  rw [readAnswers, input_flush, readAnswers]

@[simp] theorem writeAnswers_flush : s.flush.2.writeAnswers = s.writeAnswers := by
  rw [writeAnswers, writes_flush, writeAnswers]

@[simp] theorem flushCount_flush : s.flush.2.flushCount = s.flushCount + 1 := by
  rw [flush_eq]
  simp [flushCount, Call.isFlush, Array.countP_push]

theorem hardErrors_flush :
    s.flush.2.hardErrors = s.hardErrors ++ s.flushAnswer.error?.toList := by
  rw [flush_eq]
  cases h : s.flushAnswer.error? <;> simp [hardErrors, Call.hardError?, h]

/-! ## Bytes that are put out -/

variable {s b} {flushEach : Bool} {e : StreamError}

theorem put_of_error (h : s.writeAnswer.error? = some e) :
    s.put flushEach b = (some e, (s.write b).2) := by
  rw [← s.fst_write b] at h
  unfold put
  split <;> simp_all

theorem put_of_accept (h : s.writeAnswer.error? = none) :
    s.put flushEach b = if flushEach then (s.write b).2.flush else (none, (s.write b).2) := by
  rw [← s.fst_write b] at h
  unfold put
  split <;> simp_all

variable (s b flushEach)

theorem fst_put :
    (s.put flushEach b).1 =
      (s.writeAnswer.error? <|> if flushEach then s.flushAnswer.error? else none) := by
  cases h : s.writeAnswer.error? with
  | some e => simp [put_of_error h]
  | none =>
    rw [put_of_accept h]
    cases flushEach <;> simp [fst_flush, flushAnswer]

theorem snd_put :
    (s.put flushEach b).2 =
      if flushEach ∧ s.writeAnswer.error? = none then (s.write b).2.flush.2
      else (s.write b).2 := by
  cases h : s.writeAnswer.error? with
  | some e => simp [put_of_error h]
  | none =>
    rw [put_of_accept h]
    cases flushEach <;> simp

@[simp] theorem input_put : (s.put flushEach b).2.input = s.input := by
  rw [snd_put]
  split <;> simp

@[simp] theorem writes_put :
    (s.put flushEach b).2.writes = (s.writes.dropWhile WriteEvent.isRetried).tail := by
  rw [snd_put]
  split <;> simp

@[simp] theorem readAnswers_put : (s.put flushEach b).2.readAnswers = s.readAnswers := by
  rw [readAnswers, input_put, readAnswers]

@[simp] theorem writeAnswers_put :
    (s.put flushEach b).2.writeAnswers = s.writeAnswers.tail := by
  rw [writeAnswers, writes_put, filter_tail_dropWhile, writeAnswers]

theorem flushes_put :
    (s.put flushEach b).2.flushes =
      if flushEach ∧ s.writeAnswer.error? = none then s.flushes.tail else s.flushes := by
  rw [snd_put]
  split <;> simp

theorem output_put :
    (s.put flushEach b).2.output =
      s.output ++ if s.writeAnswer.error? = none then [b] else [] := by
  have ha : (Call.write b s.writeAnswer).accepted?.toList =
      if s.writeAnswer.error? = none then [b] else [] := by
    cases s.writeAnswer <;> rfl
  rw [snd_put, ← ha, ← output_write]
  split <;> simp

@[simp] theorem consumed_put : (s.put flushEach b).2.consumed = s.consumed := by
  rw [snd_put]
  split <;> simp

theorem writeCount_put :
    (s.put flushEach b).2.writeCount =
      s.writeCount + (s.writes.takeWhile WriteEvent.isRetried).length + 1 := by
  rw [snd_put, ← writeCount_write s b]
  split <;> simp

theorem flushCount_put :
    (s.put flushEach b).2.flushCount =
      s.flushCount + if flushEach ∧ s.writeAnswer.error? = none then 1 else 0 := by
  rw [snd_put]
  split <;> simp

/-- A byte that is put out fails for the one hard error among its calls. -/
theorem hardErrors_put :
    (s.put flushEach b).2.hardErrors = s.hardErrors ++ (s.put flushEach b).1.toList := by
  have hw := WriteEvent.hardError?_eq_error? s.isRetried_writeAnswer
  cases h : s.writeAnswer.error? with
  | some e => rw [put_of_error h, hardErrors_write, hw, h]
  | none =>
    rw [put_of_accept h]
    cases flushEach with
    | false => simp [hardErrors_write, hw, h]
    | true => simp [hardErrors_flush, fst_flush, flushAnswer, hardErrors_write, hw, h]

/-! ## Calls that fail -/

variable {s b flushEach}

theorem Fault.fst_read (h : s.Fault flushEach e .read) : s.read.1 = .error e := by
  cases h with
  | read he => rw [Streams.fst_read, ReadEvent.result_of_hardError? he]

theorem Fault.fst_put (h : s.Fault flushEach e .write) (b : UInt8) :
    (s.put flushEach b).1 = some e := by
  rw [Streams.fst_put]
  cases h with
  | write he => simp [he]
  | flush hf hw he => simp [hf, hw, he]

/-- A read that fails takes no byte. -/
theorem consumed_read_of_hardError? (h : s.readAnswer.hardError? = some e) :
    s.read.2.consumed = s.consumed := by
  have hb : (Call.read s.readAnswer).isByteRead = false := by
    cases ha : s.readAnswer with
    | byte b =>
      rw [ha] at h
      cases h
    | _ => rfl
  rw [consumed_read, hb]
  rfl

theorem error?_writeAnswer_of_not_fault (h : ∀ e, ¬ s.Fault flushEach e .write) :
    s.writeAnswer.error? = none :=
  Option.eq_none_iff_forall_ne_some.2 fun e he => h e (.write he)

theorem fst_put_of_not_fault (h : ∀ e, ¬ s.Fault flushEach e .write) (b : UInt8) :
    (s.put flushEach b).1 = none := by
  have hw := error?_writeAnswer_of_not_fault h
  rw [fst_put, hw]
  cases hf : flushEach with
  | false => rfl
  | true => exact Option.eq_none_iff_forall_ne_some.2 fun e he => h e (.flush hf hw he)

end Streams

end Brainfuck
