import Brainfuck.Proofs.Batches
import Brainfuck.Proofs.Control

/-! # Plain programs do what their operators say

A program of runs is executed as the reference interpreter reads the operators. A jump leads to
the place in the program where the reader goes on in the text, since both follow the forest.
-/

namespace Brainfuck

namespace Reader

variable {flushEach : Bool} {bound n : Nat} {op : Operator} {ops text : List Operator}
  {loops : List (List Operator)} {s s' : State} {o : Outcome State Crash}

theorem run_loopStart : run flushEach (bound + 1) ⟨.loopStart :: ops, loops, s⟩ =
    run flushEach bound
      (if s.cell = 0 then ⟨skipLoop 0 ops, loops, s⟩ else ⟨ops, ops :: loops, s⟩) := rfl

theorem run_loopEnd : run flushEach (bound + 1) ⟨.loopEnd :: ops, text :: loops, s⟩ =
    run flushEach bound
      (if s.cell = 0 then ⟨ops, loops, s⟩ else ⟨text, text :: loops, s⟩) := rfl

theorem halts_loopStart_iff : Halts flushEach ⟨.loopStart :: ops, loops, s⟩ o ↔
    Halts flushEach (if s.cell = 0 then ⟨skipLoop 0 ops, loops, s⟩ else ⟨ops, ops :: loops, s⟩)
      o := by
  constructor
  · rintro ⟨bound, h⟩
    cases bound with
    | zero => cases h
    | succ bound => exact ⟨bound, h⟩
  · rintro ⟨bound, h⟩
    exact ⟨bound + 1, h⟩

theorem step_of_bracket?_eq_none (hb : op.bracket? = none) :
    step flushEach op ⟨ops, loops, s⟩ =
      ⟨⟨ops, loops, (op.exec flushEach s).state⟩, (op.exec flushEach s).error?⟩ := by
  cases op with
  | loopStart => cases hb
  | loopEnd => cases hb
  | _ => rfl

theorem run_replicate (hb : op.bracket? = none) (n : Nat) (s : State) :
    run flushEach (bound + n) ⟨List.replicate n op ++ ops, loops, s⟩ =
      match op.execMany flushEach n s with
      | ⟨s, none⟩ => run flushEach bound ⟨ops, loops, s⟩
      | ⟨s, some crash⟩ => some ⟨s, some crash⟩ := by
  induction n generalizing s with
  | zero => rfl
  | succ n ih =>
    rw [List.replicate_succ, List.cons_append, ← Nat.add_assoc, run, step_of_bracket?_eq_none hb,
      Operator.execMany]
    cases op.exec flushEach s with
    | mk s crash? =>
      cases crash? with
      | none => exact ih s
      | some crash => rfl

theorem run_of_run_replicate (hb : op.bracket? = none)
    (hx : op.execMany flushEach n s = ⟨s', none⟩)
    (h : run flushEach bound ⟨List.replicate n op ++ ops, loops, s⟩ = some o) :
    run flushEach bound ⟨ops, loops, s'⟩ = some o := by
  have hr := run_mono h (Nat.le_add_right bound n)
  rw [run_replicate hb, hx] at hr
  exact hr

theorem Halts.replicate (hb : op.bracket? = none)
    (hx : op.execMany flushEach n s = ⟨s', none⟩) (h : Halts flushEach ⟨ops, loops, s'⟩ o) :
    Halts flushEach ⟨List.replicate n op ++ ops, loops, s⟩ o := by
  obtain ⟨bound, h⟩ := h
  refine ⟨bound + n, ?_⟩
  rw [run_replicate hb, hx]
  exact h

theorem halts_replicate_of_some {crash : Crash} (hb : op.bracket? = none)
    (hx : op.execMany flushEach n s = ⟨s', some crash⟩) :
    Halts flushEach ⟨List.replicate n op ++ ops, loops, s⟩ ⟨s', some crash⟩ := by
  refine ⟨0 + n, ?_⟩
  rw [run_replicate hb, hx]

end Reader

theorem skipLoop_replicate {op : Operator} (hb : op.bracket? = none) (n depth : Nat)
    (ops : List Operator) : skipLoop depth (List.replicate n op ++ ops) = skipLoop depth ops := by
  induction n with
  | zero => rfl
  | succ n ih =>
    rw [← ih, List.replicate_succ, List.cons_append]
    cases op with
    | loopStart => cases hb
    | loopEnd => cases hb
    | _ => cases depth <;> rfl

namespace Forest

def operators (ts : Forest) : List Operator :=
  ts.flatten.flatMap Instr.operators

structure IsSource (ts : Forest) : Prop where
  matched : ts.IsMatched
  unmatched : ts.unmatched = []
  emitted : ∀ i ∈ ts.flatten, i.IsEmitted

variable {flushEach : Bool} {start stop i : Instr} {ts us : Forest} {s s' : State}
  {ops : List Operator} {loops : List (List Operator)}

theorem operators_leaf : (leaf i us).operators = i.operators ++ us.operators := rfl

theorem operators_of_opening (h : i.bracket? = some .opening) : i.operators = [.loopStart] := by
  simp only [Instr.operators, Instr.bracket?_eq_opening_iff.1 h]

theorem operators_of_closing (h : i.bracket? = some .closing) : i.operators = [.loopEnd] := by
  simp only [Instr.operators, Instr.bracket?_eq_closing_iff.1 h]

namespace IsSource

theorem leaf (h : IsSource (leaf i us)) :
    (∃ n op, n < 2 ^ 63 ∧ op.bracket? = none ∧ i ∈ op.instrs n ∧
      i.operators = List.replicate n op) ∧ us.IsSource := by
  obtain ⟨hm, hu, he⟩ := h
  obtain ⟨hb, hu⟩ : i.bracket? = none ∧ us.unmatched = [] := by
    simpa [Forest.unmatched] using hu
  obtain ⟨hi, he⟩ := List.forall_mem_cons.1 he
  obtain ⟨n, op, -, hn, hi⟩ := hi
  refine ⟨⟨n, op, hn, ?_⟩, hm.2, hu, he⟩
  obtain ⟨hop, his⟩ := instrs_of_bracket?_eq_none hi hb
  refine ⟨hop, hi, ?_⟩
  rw [← operators_instrs hn, his]
  simp

theorem operators_loop (h : IsSource (loop start ts stop us)) (ops : List Operator) :
    (loop start ts stop us).operators ++ ops =
      .loopStart :: (ts.operators ++ .loopEnd :: (us.operators ++ ops)) := by
  obtain ⟨hs, he, -⟩ := h.matched
  simp [operators, flatten, operators_of_opening hs, operators_of_closing he]

theorem body (h : IsSource (loop start ts stop us)) : ts.IsSource := by
  obtain ⟨⟨_, _, hu, hm, _⟩, _, he⟩ := h
  refine ⟨hm, hu, fun i hi => he i ?_⟩
  simp [flatten, hi]

theorem rest (h : IsSource (loop start ts stop us)) : us.IsSource := by
  obtain ⟨⟨_, _, _, _, hm⟩, hu, he⟩ := h
  refine ⟨hm, hu, fun i hi => he i ?_⟩
  simp [flatten, hi]

theorem skipLoop_append (h : ts.IsSource) (depth : Nat) (ops : List Operator) :
    skipLoop depth (ts.operators ++ ops) = skipLoop depth ops := by
  induction ts generalizing depth ops with
  | nil => rfl
  | leaf i us ih =>
    obtain ⟨⟨n, op, _, hb, _, hi⟩, hr⟩ := h.leaf
    rw [operators_leaf, hi, List.append_assoc, skipLoop_replicate hb, ih hr]
  | loop start ts stop us ihb ihr =>
    rw [h.operators_loop, skipLoop, ihb h.body, skipLoop, ihr h.rest]

/-- To come to the end of a loop is to come to its start. -/
theorem run_loopEnd (h : ts.IsSource) (bound : Nat) :
    Reader.run flushEach bound ⟨.loopEnd :: ops, (ts.operators ++ .loopEnd :: ops) :: loops, s⟩ =
      Reader.run flushEach bound ⟨.loopStart :: (ts.operators ++ .loopEnd :: ops), loops, s⟩ := by
  cases bound with
  | zero => rfl
  | succ bound => rw [Reader.run_loopEnd, Reader.run_loopStart, h.skipLoop_append, skipLoop]

theorem halts_loopEnd_iff (h : ts.IsSource) {o : Outcome State Crash} :
    Reader.Halts flushEach ⟨.loopEnd :: ops, (ts.operators ++ .loopEnd :: ops) :: loops, s⟩ o ↔
      Reader.Halts flushEach ⟨.loopStart :: (ts.operators ++ .loopEnd :: ops), loops, s⟩ o := by
  simp only [Reader.Halts, h.run_loopEnd]

end IsSource

open Reader

theorem IsSource.exec_leaf (h : IsSource (.leaf i us))
    (hi : s.exec flushEach i = ⟨s', none⟩) :
    ∃ n op, i.operators = List.replicate n op ∧ op.bracket? = none ∧
      op.execMany flushEach n s = ⟨s', none⟩ := by
  obtain ⟨⟨n, op, hn, hb, hmem, ho⟩, -⟩ := h.leaf
  refine ⟨n, op, ho, hb, ?_⟩
  have ha := exec_alike flushEach hn hb hmem s
  rw [hi] at ha
  cases hx : op.execMany flushEach n s with
  | mk s₁ crash? =>
    rw [hx] at ha
    cases ha
    rfl

theorem IsSource.exec_leaf_fault {e : Fault} (h : IsSource (.leaf i us))
    (hi : s.exec flushEach i = ⟨s', some e⟩) :
    ∃ n op s₁ crash, i.operators = List.replicate n op ∧ op.bracket? = none ∧
      op.execMany flushEach n s = ⟨s₁, some crash⟩ ∧ EndsAlike s' (some e) s₁ (some crash) := by
  obtain ⟨⟨n, op, hn, hb, hmem, ho⟩, -⟩ := h.leaf
  have ha := exec_alike flushEach hn hb hmem s
  rw [hi] at ha
  cases hx : op.execMany flushEach n s with
  | mk s₁ crash? =>
    rw [hx] at ha
    cases crash? with
    | none => cases ha
    | some crash => exact ⟨n, op, s₁, crash, ho, hb, hx, ha⟩

theorem Exec.reader_halts {o : Outcome State Crash} (h : Exec flushEach ts s s' none)
    (hs : ts.IsSource) (ho : Reader.Halts flushEach ⟨ops, loops, s'⟩ o) :
    Reader.Halts flushEach ⟨ts.operators ++ ops, loops, s⟩ o := by
  generalize hx : (none : Option Failure) = x at h
  induction h generalizing ops loops with
  | nil => exact ho
  | leaf hi _ ih =>
    obtain ⟨n, op, hop, hb, hx'⟩ := hs.exec_leaf hi
    rw [operators_leaf, hop, List.append_assoc]
    exact .replicate hb hx' (ih hs.leaf.2 ho hx)
  | fault => cases hx
  | exit hz _ ih =>
    rw [hs.operators_loop, halts_loopStart_iff, if_pos hz, hs.body.skipLoop_append]
    exact ih hs.rest ho hx
  | again hz _ _ ihb ih =>
    have hl := ih hs ho hx
    rw [hs.operators_loop] at hl ⊢
    rw [halts_loopStart_iff, if_neg hz]
    refine ihb hs.body ?_ rfl
    exact hs.body.halts_loopEnd_iff.2 hl
  | fail => cases hx

theorem Exec.reader_crashes {e : Failure} (h : Exec flushEach ts s s' (some e))
    (hs : ts.IsSource) (ops : List Operator) (loops : List (List Operator)) : ∃ s₁ crash,
      Reader.Halts flushEach ⟨ts.operators ++ ops, loops, s⟩ ⟨s₁, some crash⟩ ∧
        EndsAlike s' (some e.2) s₁ (some crash) := by
  generalize hx : some e = x at h
  induction h generalizing ops loops with
  | nil => cases hx
  | leaf hi _ ih =>
    obtain ⟨n, op, hop, hb, hx'⟩ := hs.exec_leaf hi
    obtain ⟨s₁, crash, hc, ha⟩ := ih hs.leaf.2 ops loops hx
    rw [operators_leaf, hop, List.append_assoc]
    exact ⟨s₁, crash, .replicate hb hx' hc, ha⟩
  | fault hi =>
    cases hx
    obtain ⟨n, op, s₁, crash, hop, hb, hx', ha⟩ := hs.exec_leaf_fault hi
    rw [operators_leaf, hop, List.append_assoc]
    exact ⟨s₁, crash, halts_replicate_of_some hb hx', ha⟩
  | exit hz _ ih =>
    rw [hs.operators_loop]
    simp only [halts_loopStart_iff, if_pos hz, hs.body.skipLoop_append]
    exact ih hs.rest ops loops hx
  | again hz hb _ _ ih =>
    obtain ⟨s₁, crash, hc, ha⟩ := ih hs ops loops hx
    refine ⟨s₁, crash, ?_, ha⟩
    rw [hs.operators_loop] at hc ⊢
    rw [halts_loopStart_iff, if_neg hz]
    exact hb.reader_halts hs.body (hs.body.halts_loopEnd_iff.2 hc)
  | fail hz _ ih =>
    rw [hs.operators_loop]
    simp only [halts_loopStart_iff, if_neg hz]
    exact ih hs.body _ _ hx

/-- A reader that ends does so in or behind a forest that it enters, and in the second case needs
no larger bound from there. -/
theorem exists_exec_of_reader {bound : Nat} {o : Outcome State Crash}
    (h : Reader.run flushEach bound ⟨ts.operators ++ ops, loops, s⟩ = some o)
    (hs : ts.IsSource) : ∃ s' x, Exec flushEach ts s s' x ∧ (x = none →
      ∃ bound' ≤ bound, Reader.run flushEach bound' ⟨ops, loops, s'⟩ = some o) := by
  induction bound using Nat.strongRecOn generalizing ts ops loops s with
  | ind bound ih =>
    induction ts generalizing s with
    | nil => exact ⟨s, none, .nil, fun _ => ⟨bound, Nat.le_refl _, h⟩⟩
    | leaf i us ihu =>
      cases hx : s.exec flushEach i with
      | mk s₁ x =>
        cases x with
        | some e => exact ⟨s₁, some (i, e), .fault hx, nofun⟩
        | none =>
          obtain ⟨n, op, hop, hb, hx'⟩ := hs.exec_leaf hx
          rw [operators_leaf, hop, List.append_assoc] at h
          obtain ⟨s', x, he, hn⟩ := ihu (run_of_run_replicate hb hx' h) hs.leaf.2
          exact ⟨s', x, .leaf hx he, hn⟩
    | loop start ts stop us _ _ =>
      rw [hs.operators_loop] at h
      cases bound with
      | zero => cases h
      | succ bound =>
        rw [run_loopStart] at h
        by_cases hz : s.cell = 0
        · rw [if_pos hz, hs.body.skipLoop_append, skipLoop] at h
          obtain ⟨s', x, he, hn⟩ := ih bound (by omega) h hs.rest
          refine ⟨s', x, .exit hz he, fun hx => ?_⟩
          obtain ⟨bound', hle, hr⟩ := hn hx
          exact ⟨bound', by omega, hr⟩
        · rw [if_neg hz] at h
          obtain ⟨s₁, x, he, hn⟩ := ih bound (by omega) h hs.body
          cases x with
          | some e => exact ⟨s₁, some e, .fail hz he, nofun⟩
          | none =>
            obtain ⟨bound₁, hle₁, h₁⟩ := hn rfl
            rw [hs.body.run_loopEnd, ← hs.operators_loop] at h₁
            obtain ⟨s', x, he', hn'⟩ := ih bound₁ (by omega) h₁ hs
            refine ⟨s', x, .again hz he he', fun hx => ?_⟩
            obtain ⟨bound', hle, hr⟩ := hn' hx
            exact ⟨bound', by omega, hr⟩

theorem Exec.exists_reader_halts {x : Option Failure} (h : Exec flushEach ts s s' x)
    (hs : ts.IsSource) : ∃ o, Reader.Halts flushEach ⟨ts.operators, [], s⟩ o ∧
      EndsAlike s' (x.map Prod.snd) o.state o.error? := by
  rw [← List.append_nil ts.operators]
  cases x with
  | none => exact ⟨⟨s', none⟩, h.reader_halts hs ⟨1, rfl⟩, .done s'⟩
  | some e =>
    obtain ⟨s₁, crash, hc, ha⟩ := h.reader_crashes hs [] []
    exact ⟨_, hc, ha⟩

end Forest

/-- A run ends as the operators do. The cell pointers are the same unless the tape was left. -/
def Run.Matches (r : Run) (o : Outcome State Crash) : Prop :=
  r.machine.tape = o.state.tape ∧ r.machine.streams = o.state.streams ∧
    match r.error?, o.error? with
    | none, none => r.machine.dp = o.state.dp
    | some (.stream e), some (.stream e') => e = e' ∧ r.machine.dp = o.state.dp
    | some (.outOfRange ..), some .offTape => True
    | _, _ => False

theorem Outcome.finish_eq (o : Outcome State Crash) :
    o.finish = ⟨{ o.state with streams := o.state.streams.flush.2 },
      o.error? <|> o.state.streams.flush.1.map .stream⟩ := by
  rw [finish, Streams.deliver_eq_flush]

theorem Run.EndsWith.matches {r : Run} {p : Program} {s : State} {x : Option Failure}
    {o : Outcome State Crash} (h : r.EndsWith p s x)
    (ha : EndsAlike s (x.map Prod.snd) o.state o.error?) : r.Matches o.finish := by
  obtain ⟨ip, n, rfl, -⟩ := h
  rw [Outcome.finish_eq]
  obtain ⟨s', crash?⟩ := o
  cases x with
  | none =>
    cases ha
    refine ⟨rfl, rfl, ?_⟩
    cases hf : s'.streams.flush.1 <;> simp [Run.finish, hf]
  | some e =>
    obtain ⟨i, e⟩ := e
    cases ha with
    | offTape ht hs => exact ⟨ht, congrArg (·.flush.2) hs, trivial⟩
    | stream e => exact ⟨rfl, rfl, rfl, rfl⟩

namespace Program

/-- On all streams, a run of the program ends if and only if the operators do, and ends alike. -/
def Implements (p : Program) (ops : List Operator) : Prop :=
  ∀ (flushEach : Bool) (streams : Streams),
    ((∃ r, p.Ends flushEach (.onStreams streams) r) ↔
        ∃ o, Operator.Interprets flushEach ops streams o) ∧
      ∀ r o, p.Ends flushEach (.onStreams streams) r →
        Operator.Interprets flushEach ops streams o → r.Matches o

theorem isSource_forest {bytes : List UInt8} (hl : bytes.length < 2 ^ 63)
    (hm : mismatch? bytes = none) : (ofBytes bytes).forest.IsSource where
  matched := isMatched_forest _
  unmatched := isBalanced_iff.1 (isBalanced_ofBytes hl hm)
  emitted i hi := by
    rw [flatten_forest] at hi
    exact isEmitted_of_mem_ofBytes hl hi

theorem operators_forest {bytes : List UInt8} (hl : bytes.length < 2 ^ 63) :
    (ofBytes bytes).forest.operators = bytes.filterMap Operator.ofByte? := by
  rw [Forest.operators, flatten_forest, operators_ofBytes hl]

theorem linkJumps_implements {bytes : List UInt8} (hl : bytes.length < 2 ^ 63)
    (hm : mismatch? bytes = none) :
    (ofBytes bytes).linkJumps.Implements (bytes.filterMap Operator.ofByte?) := by
  have hs := isSource_forest hl hm
  have hb := isBalanced_ofBytes hl hm
  have hsize := size_ofBytes_lt hl
  rw [← operators_forest hl]
  intro flushEach streams
  constructor
  · constructor
    · rintro ⟨r, hr⟩
      obtain ⟨s', x, he, -⟩ := exists_exec_of_ends hb hsize hr
      obtain ⟨o, ho, -⟩ := he.exists_reader_halts hs
      exact ⟨o.finish, o, ho, rfl⟩
    · rintro ⟨_, o, ⟨bound, ho⟩, rfl⟩
      rw [← List.append_nil (Forest.operators _)] at ho
      obtain ⟨s', x, he, -⟩ := Forest.exists_exec_of_reader ho hs
      obtain ⟨r, hr, -⟩ := exists_ends_of_exec hb hsize he
      exact ⟨r, hr⟩
  · rintro r _ hr ⟨o, ho, rfl⟩
    obtain ⟨s', x, he, hw⟩ := exists_exec_of_ends hb hsize hr
    obtain ⟨o', ho', ha⟩ := he.exists_reader_halts hs
    obtain rfl := ho.unique ho'
    exact hw.matches ha

end Program

/-- An accepted text, unfolded, does what its operators say. -/
theorem plain_implements_operators :
    (∀ bytes : List UInt8, bytes.length < 2 ^ 63 → mismatch? bytes = none →
      (Program.ofBytes bytes).linkJumps.Implements (bytes.filterMap Operator.ofByte?)) ∧
    ∀ (code : String) (c : Compiled), code.utf8ByteSize < 2 ^ 63 → compilePlain code = .ok c →
      c.program.Implements ((operatorBytes code).filterMap Operator.ofByte?) := by
  constructor
  · intro bytes hl hm
    exact Program.linkJumps_implements hl hm
  · intro code c hl hc
    obtain ⟨hm, hp⟩ := compilePlain_eq_ok hc
    rw [hp]
    exact Program.linkJumps_implements (length_operatorBytes_lt hl) hm

/-- A text that copies its input, with a comment in it. The reference interpreter is evaluated on
two bytes, and the program follows. -/
theorem plain_implements_operators_echo :
    let p := (Program.ofBytes [44, 91, 46, 10, 44, 93]).linkJumps
    let ops : List Operator := [.read, .loopStart, .write, .read, .loopEnd]
    p.Implements ops ∧
      (∃ c, compilePlain ",[., ]" = .ok c ∧ c.program.Implements ops) ∧
      ∃ r o, p.Ends false (.start [72, 105]) r ∧
        Operator.Interprets false ops (.ofBytes [72, 105]) o ∧ r.Matches o ∧
        r.machine.streams.output = [72, 105] ∧ o.state.streams.output = [72, 105] ∧
        r.error? = none ∧ o.error? = none := by
  intro p ops
  have hp : p.Implements ops := plain_implements_operators.1 _ (by decide) (by decide)
  refine ⟨hp, ?_, ?_⟩
  · have hm : mismatch? (operatorBytes ",[., ]") = none := by decide
    have hops : (operatorBytes ",[., ]").filterMap Operator.ofByte? = ops := by decide
    obtain ⟨c, hc, -⟩ := exists_compilePlain hm
    refine ⟨c, hc, ?_⟩
    rw [← hops]
    exact plain_implements_operators.2 ",[., ]" c (by decide) hc
  · obtain ⟨hiff, hmatches⟩ := hp false (.ofBytes [72, 105])
    let start : Reader := { rest := ops, state := { streams := .ofBytes [72, 105] } }
    have hrun : (start.run false 20).map
        (fun o => (o.finish.error?, o.finish.state.streams.output)) =
          some (none, [72, 105]) := by decide
    obtain ⟨o, ho, heq⟩ := Option.map_eq_some_iff.1 hrun
    obtain ⟨he, hout⟩ := Prod.mk.inj heq
    have hi : Operator.Interprets false ops (.ofBytes [72, 105]) o.finish := ⟨o, ⟨20, ho⟩, rfl⟩
    obtain ⟨r, hr⟩ := hiff.2 ⟨_, hi⟩
    have hm := hmatches r _ hr hi
    refine ⟨r, _, hr, hi, hm, ?_, hout, ?_, he⟩
    · rw [hm.2.1, hout]
    · have h := hm.2.2
      rw [he] at h
      cases hr' : r.error? with
      | none => rfl
      | some e =>
        rw [hr'] at h
        cases e <;> exact h.elim

end Brainfuck
