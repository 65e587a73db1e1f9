import Brainfuck.Proofs.Emission
import Brainfuck.Proofs.Folding
import Brainfuck.Proofs.Linking

/-! # Undoing a folding by its events

A program falls into pieces, which are folded apart: instructions that stay, and loops that give way
to their closed form. The events say where the closed forms begin and how long they are, so each of
them can be taken out of the folded program and its loop put back in.
-/

namespace Brainfuck

structure ClosedLoop where
  start : Instr
  body : List Instr
  stop : Instr
  form : List Instr
  opening : start.bracket? = some .opening
  closing : stop.bracket? = some .closing
  closed : closedForm? body = some form

namespace ClosedLoop

def toList (l : ClosedLoop) : List Instr :=
  l.start :: (l.body ++ [l.stop])

theorem length_form_le (l : ClosedLoop) : l.form.length + 2 ≤ l.toList.length := by
  have h := length_le_of_closedForm? l.closed
  simp only [toList, List.length_cons, List.length_append, List.length_nil]
  omega

end ClosedLoop

structure FoldedLoop extends ClosedLoop where
  position : Nat

namespace FoldedLoop

def limit (l : FoldedLoop) : Nat :=
  l.position + l.form.length

def Covers (l : FoldedLoop) (k : Nat) : Prop :=
  l.position ≤ k ∧ k < l.limit

instance (l : FoldedLoop) (k : Nat) : Decidable (l.Covers k) :=
  inferInstanceAs (Decidable (_ ∧ _))

def toFold (l : FoldedLoop) : Fold :=
  ⟨l.position, l.form.length⟩

def event (l : FoldedLoop) : Event :=
  .foldedLoop l.position l.form.length

/-- Puts the loop in the place of its closed form. -/
def restore (l : FoldedLoop) (is : List Instr) : List Instr :=
  is.take l.position ++ (l.toList ++ is.drop l.limit)

end FoldedLoop

inductive Piece where
  | kept (i : Instr)
  | folded (l : ClosedLoop)

namespace Piece

def before : Piece → List Instr
  | kept i => [i]
  | folded l => l.toList

def after : Piece → List Instr
  | kept i => [i]
  | folded l => l.form

/-- The loops among the pieces, if the first piece begins at `n` after folding. -/
def loops : Nat → List Piece → List FoldedLoop
  | _, [] => []
  | n, kept _ :: ps => loops (n + 1) ps
  | n, folded l :: ps => ⟨l, n⟩ :: loops (n + l.form.length) ps

theorem loops_append (n : Nat) (ps qs : List Piece) :
    loops n (ps ++ qs) = loops n ps ++ loops (n + (ps.flatMap after).length) qs := by
  induction ps generalizing n with
  | nil => rfl
  | cons piece ps ih =>
    cases piece with
    | kept i => simp [loops, after, ih, Nat.add_assoc, Nat.add_comm 1]
    | folded l => simp [loops, after, ih, Nat.add_assoc]

variable {n k : Nat} {ps : List Piece} {l : FoldedLoop} {i : Instr}

theorem bounds_of_mem_loops (hl : l ∈ loops n ps) :
    n ≤ l.position ∧ l.limit ≤ n + (ps.flatMap after).length := by
  induction ps generalizing n with
  | nil => cases hl
  | cons piece ps ih =>
    cases piece with
    | kept i =>
      have hrest := ih hl
      simp only [List.flatMap_cons, after, List.length_append, List.length_singleton]
      omega
    | folded l' =>
      simp only [List.flatMap_cons, after, List.length_append]
      rcases List.mem_cons.1 hl with rfl | hl
      · simp only [FoldedLoop.limit]
        omega
      · have hrest := ih hl
        omega

theorem pairwise_loops (n : Nat) (ps : List Piece) :
    (loops n ps).Pairwise fun l l' => l.limit ≤ l'.position := by
  induction ps generalizing n with
  | nil => exact .nil
  | cons piece ps ih =>
    cases piece with
    | kept i => exact ih _
    | folded l => exact List.pairwise_cons.2 ⟨fun l' hl' => (bounds_of_mem_loops hl').1, ih _⟩

theorem form_of_mem_loops (is : List Instr) (hl : l ∈ loops is.length ps) :
    ((is ++ ps.flatMap after).drop l.position).take l.form.length = l.form := by
  induction ps generalizing is with
  | nil => cases hl
  | cons piece ps ih =>
    rw [List.flatMap_cons, ← List.append_assoc]
    cases piece with
    | kept i => exact ih (is ++ [i]) (by simpa [loops, after] using hl)
    | folded l' =>
      rcases List.mem_cons.1 hl with rfl | hl
      · simp [after]
      · exact ih (is ++ l'.form) (by simpa [after] using hl)

/-- Restoring the last loop first leaves the places of the others as they were reported. -/
theorem foldr_restore_loops (is : List Instr) (ps : List Piece) :
    (loops is.length ps).foldr FoldedLoop.restore (is ++ ps.flatMap after) =
      is ++ ps.flatMap before := by
  induction ps generalizing is with
  | nil => rfl
  | cons piece ps ih =>
    cases piece with
    | kept i =>
      have hrest := ih (is ++ [i])
      simpa [loops, before, after] using hrest
    | folded l =>
      have hrest := ih (is ++ l.form)
      rw [List.length_append, List.append_assoc, List.append_assoc] at hrest
      simp only [loops, List.foldr_cons, List.flatMap_cons, after, hrest]
      simp [FoldedLoop.restore, FoldedLoop.limit, before]

theorem length_after_le (n : Nat) (ps : List Piece) :
    (ps.flatMap after).length + 2 * (loops n ps).length ≤ (ps.flatMap before).length := by
  induction ps generalizing n with
  | nil => exact Nat.le_refl _
  | cons piece ps ih =>
    simp only [List.flatMap_cons, List.length_append]
    cases piece with
    | kept i =>
      have hrest := ih (n + 1)
      simp only [loops, before, after, List.length_singleton]
      omega
    | folded l =>
      have hrest := ih (n + l.form.length)
      have hl := l.length_form_le
      simp only [loops, before, after, List.length_cons]
      omega

/-- What is not kept lies in the closed form of one loop. -/
theorem countP_covers_loops (hk : (ps.flatMap after)[k]? = some i)
    (hi : Piece.kept i ∉ ps) (n : Nat) :
    (loops n ps).countP (fun l => l.Covers (n + k)) = 1 := by
  induction ps generalizing n k with
  | nil => simp at hk
  | cons piece ps ih =>
    rw [List.mem_cons, not_or] at hi
    cases piece with
    | kept j =>
      cases k with
      | zero =>
        have hj : j = i := by simpa [after] using hk
        exact (hi.1 (hj ▸ rfl)).elim
      | succ k =>
        have hrest := ih (k := k) (by simpa [after] using hk) hi.2 (n + 1)
        rwa [show n + 1 + k = n + (k + 1) by omega] at hrest
    | folded l =>
      rw [List.flatMap_cons, after] at hk
      rw [loops, List.countP_cons]
      rcases Nat.lt_or_ge k l.form.length with hlt | hge
      · have hnone : (loops (n + l.form.length) ps).countP (fun l => l.Covers (n + k)) = 0 := by
          rw [List.countP_eq_zero]
          intro l' hl' hcov
          have hpos := (bounds_of_mem_loops hl').1
          have hle := (of_decide_eq_true hcov).1
          omega
        have hcov : FoldedLoop.Covers ⟨l, n⟩ (n + k) := ⟨by simp, by simpa [FoldedLoop.limit]⟩
        simp [hnone, hcov]
      · rw [List.getElem?_append_right hge] at hk
        have hrest := ih hk hi.2 (n + l.form.length)
        rw [show n + l.form.length + (k - l.form.length) = n + k by omega] at hrest
        have hcov : ¬ FoldedLoop.Covers ⟨l, n⟩ (n + k) := by
          simp only [FoldedLoop.Covers, FoldedLoop.limit]
          omega
        simp [hrest, hcov]

end Piece

open Piece

theorem Forest.exists_pieces {ts : Forest} (hm : ts.IsMatched) :
    ∃ ps : List Piece, ps.flatMap before = ts.flatten ∧ ps.flatMap after = ts.fold.flatten ∧
      ∀ n, (loops n ps).map FoldedLoop.toFold = ts.folds n := by
  induction ts with
  | nil => exact ⟨[], rfl, rfl, fun _ => rfl⟩
  | leaf i rest ih =>
    obtain ⟨ps, hb, ha, hf⟩ := ih hm.2
    refine ⟨kept i :: ps, ?_, ?_, fun n => hf (n + 1)⟩
    · simp [before, hb, flatten]
    · simp [after, ha, fold, flatten]
  | loop start body stop rest ihb ihr =>
    obtain ⟨hs, he, -, hbm, hrm⟩ := hm
    obtain ⟨ps, hb, ha, hf⟩ := ihr hrm
    cases hform : body.closedForm? with
    | some form =>
      obtain ⟨is, hl, hclosed⟩ := Option.bind_eq_some_iff.1 hform
      obtain rfl := eq_ofLeaves_of_leaves? hl
      refine ⟨folded ⟨start, is, stop, form, hs, he, hclosed⟩ :: ps, ?_, ?_, fun n => ?_⟩
      · simp [before, hb, flatten, ClosedLoop.toList]
      · simp [after, ha, fold, hform]
      · simp [loops, FoldedLoop.toFold, hf, folds, hform]
    | none =>
      obtain ⟨bs, hb', ha', hf'⟩ := ihb hbm
      refine ⟨kept start :: (bs ++ kept stop :: ps), ?_, ?_, fun n => ?_⟩
      · simp [before, hb, hb', flatten]
      · simp [after, ha, ha', fold, flatten, hform]
      · have hn : n + 1 + body.fold.size + 1 = n + body.fold.size + 2 := by omega
        simp [loops, loops_append, ha', hf, hf', folds, hform, hn]

namespace Program

/-- The loops say how `p` was folded into `q`. Their closed forms lie in `q` one behind the other,
and putting the loops back in their places, the last one first, gives `p`. -/
structure FoldsTo (p q : Program) (loops : List FoldedLoop) : Prop where
  apart : loops.Pairwise fun l l' => l.limit ≤ l'.position
  inside : ∀ l ∈ loops, l.limit ≤ q.size
  forms : ∀ l ∈ loops, (q.extract l.position l.limit).toList = l.form
  restored : loops.foldr FoldedLoop.restore q.toList = p.toList

theorem foldsTo_loops {p q : Program} {ps : List Piece} (hp : ps.flatMap before = p.toList)
    (hq : ps.flatMap after = q.toList) : p.FoldsTo q (loops 0 ps) where
  apart := pairwise_loops 0 ps
  inside := by
    intro l hl
    have hle := (bounds_of_mem_loops hl).2
    rwa [hq, Array.length_toList, Nat.zero_add] at hle
  forms := by
    intro l hl
    have hf := form_of_mem_loops [] hl
    rw [List.nil_append, hq] at hf
    rw [Array.toList_extract, List.extract_eq_take_drop, FoldedLoop.limit, Nat.add_sub_cancel_left]
    exact hf
  restored := by
    have hr := foldr_restore_loops [] ps
    rwa [List.nil_append, List.nil_append, hp, hq] at hr

theorem exists_pieces (p : Program) :
    ∃ ps : List Piece, ps.flatMap before = p.toList ∧
      ps.flatMap after = p.foldLoops.program.toList ∧
      p.foldLoops.events.toList = (loops 0 ps).map FoldedLoop.event ++
        [.foldingDone (if loops 0 ps = [] then 1 else 2)] := by
  obtain ⟨ps, hb, ha, hf⟩ := Forest.exists_pieces p.isMatched_forest
  refine ⟨ps, by simpa using hb, by simpa [foldLoops_eq] using ha, ?_⟩
  simp only [Folding.events, foldLoops_eq, ← hf 0, List.map_eq_nil_iff]
  simp [FoldedLoop.toFold, FoldedLoop.event, Function.comp_def]

end Program

def Opcode.closedForms : List Opcode :=
  [.multiply, .clear, .scanLeft, .scanRight]

theorem opcode_not_mem_closedForms {n : Nat} {op : Operator} {i : Instr} (hi : i ∈ op.instrs n) :
    i.opcode ∉ Opcode.closedForms := by
  cases op with
  | loopStart =>
    rw [(List.mem_replicate.1 hi).2]
    decide
  | loopEnd =>
    rw [(List.mem_replicate.1 hi).2]
    decide
  | _ =>
    rw [List.mem_singleton.1 hi]
    simp [Opcode.closedForms]

theorem kept_not_mem_pieces {bytes : List UInt8} {ps : List Piece} {i : Instr}
    (hb : ps.flatMap before = (Program.ofBytes bytes).toList)
    (hi : i.opcode ∈ Opcode.closedForms) : Piece.kept i ∉ ps := by
  intro hmem
  have hemit : i ∈ ps.flatMap before := List.mem_flatMap.2 ⟨_, hmem, List.mem_singleton_self i⟩
  rw [hb] at hemit
  obtain ⟨n, op, -, -, hop⟩ := exists_instrs_of_mem_ofBytes hemit
  exact opcode_not_mem_closedForms hop hi

/-- The events of folding say where each closed form begins and how long it is. With the loops that
stood there, this gives back the program. In a program that is compiled from a source, every
multiplication, clearing and scan lies in exactly one of the reported places, and every fold saves
at least two instructions. -/
theorem fold_events_undo_folding :
    (∀ p : Program, ∃ loops : List FoldedLoop,
      p.foldLoops.events.toList =
        loops.map FoldedLoop.event ++ [.foldingDone (if loops = [] then 1 else 2)] ∧
      p.FoldsTo p.foldLoops.program loops) ∧
    ∀ (code : String) (c : Compiled), compile code = .ok c →
      let operators := operatorBytes code
      let emitted := Program.ofBytes operators
      ∃ loops : List FoldedLoop,
        c.events.toList = loops.map FoldedLoop.event ++
          [.foldingDone (if loops = [] then 1 else 2),
            .compiled code.utf8ByteSize operators.length emitted.size c.program.size] ∧
        (∀ k i, c.program[k]? = some i → i.opcode ∈ Opcode.closedForms →
          loops.countP (fun l => l.Covers k) = 1) ∧
        c.program.size + 2 * loops.length ≤ emitted.size ∧ emitted.size ≤ operators.length ∧
          operators.length ≤ code.utf8ByteSize := by
  constructor
  · intro p
    obtain ⟨ps, hb, ha, he⟩ := p.exists_pieces
    exact ⟨loops 0 ps, he, Program.foldsTo_loops hb ha⟩
  · intro code c hc operators emitted
    obtain ⟨-, hp⟩ := compile_eq_ok hc
    obtain ⟨ps, hb, ha, he⟩ := emitted.exists_pieces
    refine ⟨loops 0 ps, ?_, ?_, ?_, size_ofBytes_le operators, length_operatorBytes_le code⟩
    · rw [events_of_compile hc, Array.toList_push, he, List.append_assoc]
      rfl
    · intro k i hk hi
      rw [hp] at hk
      obtain ⟨j, hk, hj⟩ := Program.exists_opcode_of_linkJumps hk
      rw [← Array.getElem?_toList, ← ha] at hk
      have hcount := countP_covers_loops hk (kept_not_mem_pieces hb (hj ▸ hi)) 0
      rwa [Nat.zero_add] at hcount
    · have hle := length_after_le 0 ps
      rw [ha, hb, Array.length_toList, Array.length_toList] at hle
      rwa [hp, Program.size_linkJumps]

theorem fold_events_undo_folding_clearLoop : ∃ (c : Compiled) (loops : List FoldedLoop),
    compile ",[-].[->+<]" = .ok c ∧ c.program[3]? = some (.multiply 1 1) ∧
      c.events.toList =
        [.foldedLoop 1 1, .foldedLoop 3 2] ++ [.foldingDone 2, .compiled 11 11 11 5] ∧
      loops.map FoldedLoop.event = [.foldedLoop 1 1, .foldedLoop 3 2] ∧
      loops.countP (fun l => l.Covers 3) = 1 := by
  have hm : mismatch? (operatorBytes ",[-].[->+<]") = none := by decide
  obtain ⟨c, hc, hp⟩ := exists_compile hm
  obtain ⟨loops, he, hcovers, -⟩ := fold_events_undo_folding.2 _ c hc
  have hevents := events_of_compile hc
  rw [Program.foldLoops_eq] at hp hevents
  have hi : c.program[3]? = some (.multiply 1 1) := by
    rw [hp]
    decide
  have hall : c.events.toList =
      [.foldedLoop 1 1, .foldedLoop 3 2] ++ [.foldingDone 2, .compiled 11 11 11 5] := by
    rw [hevents, hp, Folding.events, List.map_toArray]
    decide
  have hloops := List.append_inj_left' (he.symm.trans hall) rfl
  exact ⟨c, loops, hc, hi, hall, hloops, hcovers 3 _ hi (by decide)⟩

end Brainfuck
