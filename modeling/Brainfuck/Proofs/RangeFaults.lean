import Brainfuck.Proofs.Optimizer

/-! # Where folded programs leave the tape

A folded program leaves the tape if and only if the plain one does, but it may report another cell.
A countdown loop leaves the tape where its body first lands off it, while its multiplications
begin at the least offset. Nothing else can differ.
-/

namespace Brainfuck

open Forest

namespace Run

def MissedCell (r : Run) (target : Int64) : Prop :=
  ∃ ip, r.error? = some (.outOfRange ip target)

theorem Agrees.missedCell_iff {r r' : Run} (h : r.Agrees r') :
    (∃ t, r.MissedCell t) ↔ ∃ t, r'.MissedCell t := by
  obtain ⟨-, h⟩ := h
  split at h
  · rename_i he he'
    exact ⟨fun _ => ⟨_, _, he'⟩, fun _ => ⟨_, _, he⟩⟩
  · simp only [MissedCell, h.1]

theorem missedCell_finish_iff {s : State} {ip : UInt64} {x : Option Failure} {n : Nat}
    {t : Int64} : (finish ⟨⟨s, ip⟩, x.map fun e => .ofFault ip e.2, n⟩).MissedCell t ↔
      ∃ i, x = some (i, .outOfRange t) := by
  rw [MissedCell, finish_error?]
  cases x with
  | none => cases s.streams.flush.1 <;> simp
  | some e =>
    obtain ⟨i, e⟩ := e
    cases e <;> simp [RunError.ofFault]

end Run

/-- A countdown loop whose body, begun at `c`, lands off the tape first at `first` and leftmost at
`least`. -/
structure LandsOff (is : List Instr) (c : Cell) (first least : Int64) (body : List Instr) :
    Prop where
  loop : HoldsLoop is body
  countdown : ∃ e, Effect.ofBody? body = some e ∧ e.isCountdown
  first : (landings 0 body).find? c.isOff = some first
  least : least ∈ landings 0 body ∧ c.isOff least ∧
    ∀ o ∈ landings 0 body, c.isOff o → least ≤ o

theorem Effect.pairwise_others (e : Effect) : e.others.Pairwise (· < ·) := by
  refine List.Pairwise.filter _ (e.deltas.ordered_keys.imp ?_)
  exact Std.compare_eq_lt.1

theorem Effect.least_of_find?_others {e : Effect} {body : List Instr} {c : Cell} {o : Int64}
    (hb : ofBody? body = some e) (h : e.others.find? c.isOff = some o) :
    o ∈ landings 0 body ∧ c.isOff o ∧ ∀ o' ∈ landings 0 body, c.isOff o' → o ≤ o' := by
  obtain ⟨hoff, before, after, heq, hbefore⟩ := List.find?_eq_some_iff_append.1 h
  have hmem : o ∈ e.others := by simp [heq]
  refine ⟨((mem_others_iff hb o).1 hmem).1, hoff, fun o' ho' hoff' => ?_⟩
  have hmem' := (mem_others_iff hb o').2 ⟨ho', ne_zero_of_isOff hoff'⟩
  have hsorted := e.pairwise_others
  rw [heq] at hmem' hsorted
  rcases List.mem_append.1 hmem' with hin | hin
  · have hnot := hbefore o' hin
    simp [hoff'] at hnot
  · rcases List.mem_cons.1 hin with rfl | hin
    · exact Int64.le_refl _
    · exact Int64.le_of_lt (List.rel_of_pairwise_cons (List.pairwise_append.1 hsorted).2.1 hin)

theorem Instr.IsEmitted.opcode_ne_multiply {i : Instr} (h : i.IsEmitted) :
    i.opcode ≠ .multiply := by
  intro hi
  apply operators_ne_nil h
  simp [Instr.operators, hi]

namespace Program

variable {p : Program} {r r' : Run} {t t' : Int64}

/-- How the cells that a program and its folding have missed belong together, if the folding has
stopped at `i` and its cell pointer at `c`. -/
def MissedAlike (p : Program) (i : Instr) (c : Cell) (t t' : Int64) : Prop :=
  i.opcode ≠ .multiply ∧ t = t' ∨
    i.opcode = .multiply ∧ ∃ first least body, LandsOff p.toList c first least body ∧
      t = c.toWord + first ∧ t' = c.toWord + least ∧ (t = t' ↔ first = least)

theorem Counterparts.missedAlike (h : p.Counterparts r r')
    (hp : ∀ i ∈ p.toList, i.opcode ≠ .multiply) (ht : r.MissedCell t) (ht' : r'.MissedCell t') :
    ∃ i, r'.machine.fetch? p.foldLoops.program.linkJumps = some i ∧
      p.MissedAlike i r'.machine.dp t t' := by
  obtain ⟨s, x, s', x', ⟨ip, n, rfl, -⟩, ⟨ip', n', rfl, hf⟩, ha⟩ := h
  obtain ⟨i, rfl⟩ := Run.missedCell_finish_iff.1 ht
  obtain ⟨i', rfl⟩ := Run.missedCell_finish_iff.1 ht'
  refine ⟨i', hf _ rfl, ?_⟩
  cases ha with
  | failed hr =>
    cases hr with
    | same hi =>
      refine .inl ⟨?_, rfl⟩
      rcases hi with ⟨rfl, hi⟩ | hi
      · exact hp _ hi
      · exact hi
    | countdown hl hb hc _ hi _ ho ho' =>
      have hleast := Effect.least_of_find?_others hb ho'
      refine .inr ⟨hi, _, _, _, ⟨hl, ⟨_, hb, hc⟩, ho, hleast⟩, rfl, rfl, ?_⟩
      exact Int64.add_right_inj _

theorem foldLoops_missedAlike (hb : p.IsBalanced) (hl : p.size < 2 ^ 64)
    (hp : ∀ i ∈ p.toList, i.opcode ≠ .multiply) {flushEach : Bool} {s : State}
    (h : p.linkJumps.Ends flushEach ⟨s, 0⟩ r)
    (h' : p.foldLoops.program.linkJumps.Ends flushEach ⟨s, 0⟩ r')
    (ht : r.MissedCell t) (ht' : r'.MissedCell t') :
    ∃ i, r'.machine.fetch? p.foldLoops.program.linkJumps = some i ∧
      p.MissedAlike i r'.machine.dp t t' := by
  obtain ⟨r'', hr'', hc⟩ := exists_folded_ends hb hl h
  obtain rfl := h'.unique hr''
  exact hc.missedAlike hp ht ht'

theorem Agrees.exists_missedCell_iff {q : Program} (h : p.Agrees q) (flushEach : Bool)
    (streams : Streams) :
    (∃ r t, p.Ends flushEach (.onStreams streams) r ∧ r.MissedCell t) ↔
      ∃ r t, q.Ends flushEach (.onStreams streams) r ∧ r.MissedCell t := by
  obtain ⟨hiff, hag⟩ := h flushEach streams
  constructor
  · rintro ⟨r, t, hr, ht⟩
    obtain ⟨r', hr'⟩ := hiff.1 ⟨r, hr⟩
    obtain ⟨t', ht'⟩ := (hag r r' hr hr').missedCell_iff.1 ⟨t, ht⟩
    exact ⟨r', t', hr', ht'⟩
  · rintro ⟨r', t', hr', ht'⟩
    obtain ⟨r, hr⟩ := hiff.2 ⟨r', hr'⟩
    obtain ⟨t, ht⟩ := (hag r r' hr hr').missedCell_iff.2 ⟨t', ht'⟩
    exact ⟨r, t, hr, ht⟩

theorem exists_missedCell_of_run {flushEach : Bool} {bound : Nat}
    {m : Machine} {ip : UInt64} {t : Int64}
    (h : (p.run flushEach bound m).bind Run.error? = some (.outOfRange ip t)) :
    ∃ r, p.Ends flushEach m r ∧ r.MissedCell t := by
  obtain ⟨r, hr, he⟩ := Option.bind_eq_some_iff.1 h
  exact ⟨r, ⟨bound, hr⟩, ip, he⟩

end Program

/-- A source and its folding leave the tape together. They report the same cell, unless the folding
stops at a multiplication of a loop that lands off the tape elsewhere before it lands there. -/
theorem folding_missedCells (code : String) (c : Compiled) (hl : code.utf8ByteSize < 2 ^ 63)
    (h : compile code = .ok c) :
    ∃ c', compilePlain code = .ok c' ∧ ∀ (flushEach : Bool) (streams : Streams),
      ((∃ r t, c.program.Ends flushEach (.onStreams streams) r ∧ r.MissedCell t) ↔
        ∃ r t, c'.program.Ends flushEach (.onStreams streams) r ∧ r.MissedCell t) ∧
      ∀ r r' t t', c'.program.Ends flushEach (.onStreams streams) r → r.MissedCell t →
        c.program.Ends flushEach (.onStreams streams) r' → r'.MissedCell t' →
        ∃ i, r'.machine.fetch? c.program = some i ∧
          (Program.ofBytes (operatorBytes code)).MissedAlike i r'.machine.dp t t' := by
  obtain ⟨hm, hp⟩ := compile_eq_ok h
  obtain ⟨c', hc', hp'⟩ := exists_compilePlain hm
  have hlen := length_operatorBytes_lt hl
  have hb := isBalanced_ofBytes hlen hm
  have hsize := size_ofBytes_lt hlen
  have hmul : ∀ i ∈ (Program.ofBytes (operatorBytes code)).toList, i.opcode ≠ .multiply :=
    fun i hi => (isEmitted_of_mem_ofBytes hlen hi).opcode_ne_multiply
  refine ⟨c', hc', ?_⟩
  intro flushEach streams
  rw [hp, hp']
  constructor
  · exact (Program.foldLoops_agrees hb hsize).exists_missedCell_iff flushEach streams
  · intro r r' t t' hr ht hr' ht'
    exact Program.foldLoops_missedAlike hb hsize hmul hr hr' ht ht'

theorem folding_missedCells_copyLeft : ∃ (c : Compiled) (r' : Run) (i : Instr),
    "+[-<+>]".utf8ByteSize < 2 ^ 63 ∧ compile "+[-<+>]" = .ok c ∧
      c.program.Ends false (.start []) r' ∧ r'.MissedCell (-1) ∧
        Machine.fetch? c.program r'.machine = some i ∧
        (Program.ofBytes (operatorBytes "+[-<+>]")).MissedAlike i r'.machine.dp (-1) (-1) := by
  have hm : mismatch? (operatorBytes "+[-<+>]") = none := by decide
  obtain ⟨c, hc, hp⟩ := exists_compile hm
  obtain ⟨c', hc', h⟩ := folding_missedCells "+[-<+>]" c (by decide) hc
  obtain ⟨-, hp'⟩ := compilePlain_eq_ok hc'
  rw [Program.foldLoops_eq] at hp
  have hrun : (c'.program.run false 10 (.start [])).bind Run.error? =
      some (.outOfRange 3 (-1)) := by
    rw [hp']
    decide
  have hrun' : (c.program.run false 10 (.start [])).bind Run.error? =
      some (.outOfRange 1 (-1)) := by
    rw [hp]
    decide
  obtain ⟨r, hr, ht⟩ := Program.exists_missedCell_of_run hrun
  obtain ⟨r', hr', ht'⟩ := Program.exists_missedCell_of_run hrun'
  obtain ⟨i, hi, ha⟩ := (h false _).2 r r' _ _ hr ht hr' ht'
  exact ⟨c, r', i, by decide, hc, hr', ht', hi, ha⟩

/-- The body lands on `-1` first, but the multiplications begin at `-2`. -/
theorem folding_misses_other_cell : ∃ c c' r r',
    compile "+[-<+<+>>]" = .ok c ∧ compilePlain "+[-<+<+>>]" = .ok c' ∧
      c'.program.Ends false (.start []) r ∧ r.MissedCell (-1) ∧
        c.program.Ends false (.start []) r' ∧ r'.MissedCell (-2) := by
  have hm : mismatch? (operatorBytes "+[-<+<+>>]") = none := by decide
  obtain ⟨c, hc, hp⟩ := exists_compile hm
  obtain ⟨c', hc', hp'⟩ := exists_compilePlain hm
  rw [Program.foldLoops_eq] at hp
  have hrun : (c'.program.run false 10 (.start [])).bind Run.error? =
      some (.outOfRange 3 (-1)) := by
    rw [hp']
    decide
  have hrun' : (c.program.run false 10 (.start [])).bind Run.error? =
      some (.outOfRange 1 (-2)) := by
    rw [hp]
    decide
  obtain ⟨r, hr, ht⟩ := Program.exists_missedCell_of_run hrun
  obtain ⟨r', hr', ht'⟩ := Program.exists_missedCell_of_run hrun'
  exact ⟨c, c', r, r', hc, hc', hr, ht, hr', ht'⟩

end Brainfuck
