import Brainfuck.Command.Report
import Brainfuck.Proofs.WorkingStreams

/-! # Three ways to run a source

A source can be run from a string, from a buffer and by the command. The three of them may flush
differently, and the command may run a program whose loops are not folded. Where the streams work,
none of this can be seen: they write the same bytes and fail in the same cases. Each of them ends
with a flush, so that all bytes that were written have been delivered.
-/

namespace Brainfuck

def IsBalancedSource (code : String) : Prop :=
  (matchBytes (operatorBytes code)).waiting = [] ∧ (matchBytes (operatorBytes code)).strays = []

instance (code : String) : Decidable (IsBalancedSource code) :=
  inferInstanceAs (Decidable (_ ∧ _))

/-! ## Answers that do not depend on the bound -/

/-- Where the bound is large enough, the answer is `a`. -/
def Returns {α : Type} (f : Nat → Option α) (a : α) : Prop :=
  ∃ bound, ∀ n ≥ bound, f n = some a

def Diverges {α : Type} (f : Nat → Option α) : Prop :=
  ∀ n, f n = none

section Answers

variable {α β : Type} {f : Nat → Option α} {a : α}

theorem Returns.map (h : Returns f a) (g : α → β) : Returns (fun n => (f n).map g) (g a) := by
  obtain ⟨bound, h⟩ := h
  exact ⟨bound, fun n hn => Option.map_eq_some_iff.2 ⟨a, h n hn, rfl⟩⟩

theorem Diverges.map (h : Diverges f) (g : α → β) : Diverges fun n => (f n).map g :=
  fun n => Option.map_eq_none_iff.2 (h n)

end Answers

theorem Program.Ends.returns {p : Program} {flushEach : Bool} {m : Machine} {r : Run}
    (h : p.Ends flushEach m r) : Returns (fun n => p.run flushEach n m) r := by
  obtain ⟨bound, h⟩ := h
  exact ⟨bound, fun n hn => run_mono h hn⟩

theorem Program.diverges_of_not_ends {p : Program} {flushEach : Bool} {m : Machine}
    (h : ∀ r, ¬ p.Ends flushEach m r) : Diverges fun n => p.run flushEach n m := by
  intro n
  rw [Option.eq_none_iff_forall_ne_some]
  intro r hr
  exact h r ⟨n, hr⟩

/-- The answers are made from the runs of the program. Some run ends, and has then written `output`
and flushed it: the flush is its last call, and is carried out. -/
structure Program.Delivers {α : Type} (p : Program) (flushEach : Bool) (input output : List UInt8)
    (f : Nat → Option α) : Prop where
  answers : ∃ answer : Run → α, ∀ n, f n = (p.run flushEach n (.start input)).map answer
  ends : ∃ r, p.Ends flushEach (.start input) r ∧ r.machine.streams.output = output ∧
    r.machine.streams.calls.back? = some (.flush .done)

theorem Program.Ends.delivers {α : Type} {p : Program} {flushEach : Bool} {input : List UInt8}
    {r : Run} {f : Nat → Option α} {answer : Run → α} (h : p.Ends flushEach (.start input) r)
    (hf : ∀ n, f n = (p.run flushEach n (.start input)).map answer) :
    p.Delivers flushEach input r.machine.streams.output f where
  answers := ⟨answer, hf⟩
  ends := ⟨r, h, rfl, h.back?_calls⟩

/-! ## Flags -/

namespace Command

def Flag.argument : Flag → String
  | time => "--time"
  | flush => "--flush"
  | dump => "--dump"
  | noOptimize => "--no-optimize"

theorem Arguments.add_argument {a : Arguments} (h : a.onlyFiles = false) (f : Flag) :
    a.add f.argument = a.addSwitch (some (.flag f)) := by
  have ht : "--time".toList = ['-', '-', 't', 'i', 'm', 'e'] := rfl
  have hf : "--flush".toList = ['-', '-', 'f', 'l', 'u', 's', 'h'] := rfl
  have hd : "--dump".toList = ['-', '-', 'd', 'u', 'm', 'p'] := rfl
  have hn : "--no-optimize".toList =
      ['-', '-', 'n', 'o', '-', 'o', 'p', 't', 'i', 'm', 'i', 'z', 'e'] := rfl
  cases f <;> simp [Arguments.add, Flag.argument, h, ht, hf, hd, hn, Switch.ofName?]

theorem Arguments.foldlM_argument {a : Arguments} (h : a.onlyFiles = false) {flags : List Flag}
    (hn : flags.Nodup) (hd : ∀ f ∈ flags, f ∉ a.flags) :
    (flags.map Flag.argument).foldlM add a = .ok { a with flags := flags.reverse ++ a.flags } := by
  induction flags generalizing a with
  | nil => rfl
  | cons f flags ih =>
    obtain ⟨hf, hn⟩ := List.nodup_cons.1 hn
    obtain ⟨hfa, hd⟩ := List.forall_mem_cons.1 hd
    have hstep : a.add f.argument = .ok { a with flags := f :: a.flags } := by
      rw [add_argument h, addSwitch, if_neg hfa]
    have hd' : ∀ g ∈ flags, g ∉ f :: a.flags := by
      intro g hg hmem
      rcases List.mem_cons.1 hmem with rfl | hmem
      · exact hf hg
      · exact hd g hg hmem
    rw [List.map_cons, List.foldlM_cons, hstep]
    refine (ih (a := { a with flags := f :: a.flags }) h hn hd').trans ?_
    simp

/-- Every set of flags can be asked for, with every file. -/
theorem Options.ofArgs_arguments (file : String) {flags : List Flag} (hn : flags.Nodup) :
    ofArgs (flags.map Flag.argument ++ ["--", file]) = .ok ⟨file, flags.reverse⟩ := by
  have hflags : (flags.map Flag.argument).foldlM Arguments.add {} =
      .ok { flags := flags.reverse } := by
    simpa using Arguments.foldlM_argument (a := {}) rfl hn (by simp)
  have hfile : ["--", file].foldlM Arguments.add { flags := flags.reverse } =
      .ok { file? := some file, flags := flags.reverse, onlyFiles := true } := by
    have ht : "--".toList = ['-', '-'] := rfl
    simp [Arguments.add, ht, Arguments.addFile, bind, Except.bind, pure, Except.pure]
  have hall : (flags.map Flag.argument ++ ["--", file]).foldlM Arguments.add {} =
      .ok { file? := some file, flags := flags.reverse, onlyFiles := true } := by
    rw [List.foldlM_append, hflags]
    exact hfile
  rw [ofArgs, hall]

/-! ## Places of a source -/

/-- A source in the places from which it is run: a buffer where it ends with a zero byte, and a file
that the arguments of the command name. The flags are any that let the command run the file. -/
structure Placement (code : String) where
  /-- What stands in the buffer behind the zero byte. -/
  rest : List UInt8 := []
  files : FileTree
  args : List String
  options : Options
  noZero : 0 ∉ code.toUTF8.data.toList
  parsed : Options.ofArgs args = .ok options
  runs : options.has .dump = false
  extension : Path.extension? options.file = some "b" ∨ Path.extension? options.file = some "bf"
  stored : files.read options.file = .ok code.toUTF8.data.toList

/-- Every set of flags without `dump` can be asked for. -/
theorem exists_placement {code file : String} {files : FileTree} {flags : List Flag}
    (hz : 0 ∉ code.toUTF8.data.toList) (hn : flags.Nodup) (hd : .dump ∉ flags)
    (hx : Path.extension? file = some "b" ∨ Path.extension? file = some "bf")
    (hs : files.read file = .ok code.toUTF8.data.toList) :
    ∃ place : Placement code, ∀ f, place.options.has f ↔ f ∈ flags := by
  have hhas : ∀ f, Options.has ⟨file, flags.reverse⟩ f ↔ f ∈ flags := by
    intro f
    simp [Options.has]
  refine ⟨⟨[], files, _, _, hz, Options.ofArgs_arguments file hn, ?_, hx, hs⟩, hhas⟩
  simpa [hd] using hhas .dump

end Command

def Run.status (r : Run) : Int × List UInt8 :=
  (if r.error?.isNone then 0 else 2, r.machine.streams.output)

theorem fromUTF8?_toUTF8 (code : String) :
    String.fromUTF8? ⟨code.toUTF8.data.toList.toArray⟩ = some code := by
  rw [Array.toArray_toList]
  exact dif_pos code.isValidUTF8

namespace Command.Placement

variable {code : String} (place : Placement code)

def buffer : List UInt8 :=
  code.toUTF8.data.toList ++ 0 :: place.rest

theorem text?_buffer : Embedded.text? (some place.buffer) = some code := by
  have ht : place.buffer.takeWhile (· ≠ 0) = code.toUTF8.data.toList := by
    rw [buffer, List.takeWhile_append_of_pos]
    · simp
    · intro b hb
      have hne : b ≠ 0 := by
        rintro rfl
        exact place.noZero hb
      simpa using hne
  rw [Embedded.text?, Option.bind_some, ht, fromUTF8?_toUTF8]

theorem checkedOptions_args : checkedOptions place.args = .ok place.options := by
  rw [checkedOptions, place.parsed]
  rcases place.extension with h | h <;> simp [h]

theorem programToRun_stored :
    programToRun place.options (place.files.read place.options.file) =
      match if place.options.has .noOptimize then compilePlain code else compile code with
      | .error e => .error (.failure e.message)
      | .ok c => .ok c.program := by
  rw [place.stored]
  simp only [programToRun, fromUTF8?_toUTF8]
  split <;> simp_all [place.runs]

/-- What the command runs agrees with the compiled source. -/
theorem exists_program (hl : code.utf8ByteSize < 2 ^ 63) {c : Compiled}
    (hc : compile code = .ok c) :
    ∃ q, programToRun place.options (place.files.read place.options.file) = .ok q ∧
      c.program.Agrees q ∧ (place.options.has .noOptimize = false → q = c.program) := by
  have hrun : ∀ c', (if place.options.has .noOptimize then compilePlain code else compile code) =
      .ok c' → programToRun place.options (place.files.read place.options.file) =
        .ok c'.program := by
    intro c' hc'
    rw [place.programToRun_stored, hc']
  obtain ⟨hm, hp⟩ := compile_eq_ok hc
  cases ho : place.options.has .noOptimize with
  | false => exact ⟨c.program, hrun c (by simpa [ho] using hc), .refl _, fun _ => rfl⟩
  | true =>
    obtain ⟨c', hc', hp'⟩ := exists_compilePlain hm
    have hlen := length_operatorBytes_lt hl
    refine ⟨c'.program, hrun c' (by simpa [ho] using hc'), ?_, by simp⟩
    rw [hp, hp']
    exact Program.foldLoops_agrees (isBalanced_ofBytes hlen hm) (size_ofBytes_lt hlen)

def status? (flag : UInt8) (input : List UInt8) (bound : Nat) : Option (Int × List UInt8) :=
  (Embedded.call bound (some place.buffer) flag input).map fun (status, output) =>
    (status.toInt, output)

def report? (elapsed : String) (input : List UInt8) (bound : Nat) : Option Report :=
  report bound elapsed place.files place.args input

variable (flag : UInt8) (elapsed : String) (input : List UInt8) (bound : Nat)

theorem status?_eq {c : Compiled} (hc : compile code = .ok c) :
    place.status? flag input bound =
      (c.program.run (flag ≠ 0) bound (.start input)).map Run.status := by
  simp only [status?, Embedded.call, place.text?_buffer, hc, Option.map_map]
  refine Option.map_congr fun r _ => ?_
  cases h : r.error? <;> simp [h, Run.status, Embedded.Status.toInt]

theorem report?_eq {q : Program}
    (hq : programToRun place.options (place.files.read place.options.file) = .ok q) :
    place.report? elapsed input bound =
      (q.run (place.options.has .flush) bound (.start input)).map fun r =>
        runReport place.options elapsed r.machine.streams.output r.error? := by
  simp only [report?, report, place.checkedOptions_args, hq]

theorem report?_of_mismatch {e : BracketMismatch} (hm : mismatch? (operatorBytes code) = some e) :
    place.report? elapsed input bound = some (.failure e.message) := by
  have hc : (if place.options.has .noOptimize then compilePlain code else compile code) =
      .error e := by
    split <;> simp [compilePlain, compile, hm]
  simp only [report?, report, place.checkedOptions_args, place.programToRun_stored, hc]

end Command.Placement

theorem interpret_eq {code : String} {c : Compiled} (hc : compile code = .ok c) (bound : Nat)
    (input : List UInt8) :
    interpret bound code input =
      (c.program.run false bound (.start input)).map Run.interpretation := by
  simp only [interpret, hc]

namespace Command.Placement

variable {code : String} (place : Placement code) (flag : UInt8) (elapsed : String)

/-- All three ways to run the source flush the same output at their end. -/
structure AllDeliver (input output : List UInt8) : Prop where
  interpret : ∃ c, compile code = .ok c ∧
    c.program.Delivers false input output (interpret · code input)
  call : ∃ c, compile code = .ok c ∧
    c.program.Delivers (flag ≠ 0) input output (place.status? flag input)
  command : ∃ q, programToRun place.options (place.files.read place.options.file) = .ok q ∧
    q.Delivers (place.options.has .flush) input output (place.report? elapsed input)

structure AllReturn (input : List UInt8) (output : List UInt8) (error? : Option ProgramError)
    (status : Int) (r : Report) : Prop where
  interpret : Returns (interpret · code input) { output, error? }
  call : Returns (place.status? flag input) (status, output)
  command : Returns (place.report? elapsed input) r
  deliver : place.AllDeliver flag elapsed input output

structure AllDiverge (input : List UInt8) : Prop where
  interpret : Diverges (interpret · code input)
  call : Diverges (place.status? flag input)
  command : Diverges (place.report? elapsed input)

variable {c : Compiled} {input : List UInt8} {r : Run}

theorem returns_interpret (hc : compile code = .ok c) (hr : c.program.Ends false (.start input) r) :
    Returns (interpret · code input) r.interpretation := by
  simpa only [interpret_eq hc] using hr.returns.map Run.interpretation

theorem returns_status? (hc : compile code = .ok c) (hr : c.program.Ends false (.start input) r) :
    Returns (place.status? flag input) r.status := by
  obtain ⟨r', hr', he, hout⟩ := hr.exists_ends (flag ≠ 0)
  have h := hr'.returns.map Run.status
  simp only [← place.status?_eq flag input _ hc] at h
  rwa [Run.status, he, hout] at h

/-- The command reports a run that ends like that of the compiled source, on the same cell if it
runs the same program. -/
theorem returns_report? (hl : code.utf8ByteSize < 2 ^ 63) (hc : compile code = .ok c)
    (hr : c.program.Ends false (.start input) r) :
    ∃ e?, Returns (place.report? elapsed input)
        (runReport place.options elapsed r.machine.streams.output e?) ∧
      (r.error? = none → e? = none) ∧
      ∀ ip t, r.error? = some (.outOfRange ip t) → ∃ ip' t', e? = some (.outOfRange ip' t') ∧
        (place.options.has .noOptimize = false → ip' = ip ∧ t' = t) := by
  obtain ⟨q, hq, ha, hsame⟩ := place.exists_program hl hc
  obtain ⟨r', hr', hout, hnone, hoff⟩ := ha.exists_ends (place.options.has .flush) hr
  have h := hr'.returns.map fun r =>
    runReport place.options elapsed r.machine.streams.output r.error?
  simp only [← place.report?_eq elapsed input _ hq] at h
  rw [hout] at h
  refine ⟨r'.error?, h, hnone, fun ip t he => ?_⟩
  obtain ⟨ip', t', he', heq⟩ := hoff ip t he
  exact ⟨ip', t', he', fun ho => heq (hsame ho)⟩

theorem allDeliver (hl : code.utf8ByteSize < 2 ^ 63) (hc : compile code = .ok c)
    (hr : c.program.Ends false (.start input) r) :
    place.AllDeliver flag elapsed input r.machine.streams.output where
  interpret := ⟨c, hc, hr.delivers fun n => interpret_eq hc n input⟩
  call := by
    obtain ⟨r', hr', -, hout⟩ := hr.exists_ends (flag ≠ 0)
    rw [← hout]
    exact ⟨c, hc, hr'.delivers fun n => place.status?_eq flag input n hc⟩
  command := by
    obtain ⟨q, hq, ha, -⟩ := place.exists_program hl hc
    obtain ⟨r', hr', hout, -⟩ := ha.exists_ends (place.options.has .flush) hr
    rw [← hout]
    exact ⟨q, hq, hr'.delivers fun n => place.report?_eq elapsed input n hq⟩

theorem allReturn_of_finished (hl : code.utf8ByteSize < 2 ^ 63) (hc : compile code = .ok c)
    (hr : c.program.Ends false (.start input) r) (he : r.error? = none) :
    place.AllReturn flag elapsed input r.machine.streams.output none 0 {
      exitCode := 0
      stdout := r.machine.streams.output ++
        if place.options.has .time then (timeReport elapsed).toUTF8.data.toList else [] } where
  interpret := by
    have h := returns_interpret hc hr
    rwa [Run.interpretation, he] at h
  call := by
    have h := place.returns_status? flag hc hr
    rwa [Run.status, he] at h
  command := by
    obtain ⟨e?, h, hnone, -⟩ := place.returns_report? elapsed hl hc hr
    rw [hnone he, runReport] at h
    cases ht : place.options.has .time <;> simpa [ht] using h
  deliver := place.allDeliver flag elapsed hl hc hr

theorem allReturn_of_outOfRange (hl : code.utf8ByteSize < 2 ^ 63) (hc : compile code = .ok c)
    (hr : c.program.Ends false (.start input) r) {ip : UInt64} {t : Int64}
    (he : r.error? = some (.outOfRange ip t)) :
    ∃ line, place.AllReturn flag elapsed input r.machine.streams.output
        (some (.run (.outOfRange ip t))) 2
        { exitCode := 1, stdout := r.machine.streams.output, stderr := line ++ "\n" } ∧
      (place.options.has .noOptimize = false →
        (ProgramError.run (.outOfRange ip t)).message = "runtime error: " ++ line) := by
  obtain ⟨e?, h, -, hoff⟩ := place.returns_report? elapsed hl hc hr
  obtain ⟨ip', t', rfl, heq⟩ := hoff ip t he
  have hd := place.allDeliver flag elapsed hl hc hr
  refine ⟨(RunError.outOfRange ip' t').message, ⟨?_, ?_, h, hd⟩, fun ho => ?_⟩
  · have hi := returns_interpret hc hr
    rwa [Run.interpretation, he] at hi
  · have hs := place.returns_status? flag hc hr
    rwa [Run.status, he] at hs
  · obtain ⟨rfl, rfl⟩ := heq ho
    rfl

theorem allDiverge (hl : code.utf8ByteSize < 2 ^ 63) (hc : compile code = .ok c)
    (hn : ∀ r, ¬ c.program.Ends false (.start input) r) :
    place.AllDiverge flag elapsed input where
  interpret := by
    simpa only [interpret_eq hc] using
      (Program.diverges_of_not_ends hn).map Run.interpretation
  call := by
    have hn' : ∀ r, ¬ c.program.Ends (flag ≠ 0) (.start input) r := by
      intro r hr
      obtain ⟨r', hr'⟩ := hr.exists_ends_false
      exact hn r' hr'
    have h := (Program.diverges_of_not_ends hn').map Run.status
    simp only [← place.status?_eq flag input _ hc] at h
    exact h
  command := by
    obtain ⟨q, hq, ha, -⟩ := place.exists_program hl hc
    have hn' : ∀ r, ¬ q.Ends (place.options.has .flush) (.start input) r := by
      intro r hr
      obtain ⟨r', hr'⟩ := ha.exists_ends_false hr
      exact hn r' hr'
    have h := (Program.diverges_of_not_ends hn').map fun r =>
      runReport place.options elapsed r.machine.streams.output r.error?
    simp only [← place.report?_eq elapsed input _ hq] at h
    exact h

end Command.Placement

end Brainfuck
