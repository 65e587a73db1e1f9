import Mathlib.Data.Int.ModEq
import Mathlib.Data.List.Forall2
import Brainfuck.Jumps
import Brainfuck.Proofs.Halting
import Brainfuck.Proofs.Words

/-! # Values modulo 256

A value that is added to a cell, or that a cell is multiplied by, counts by its low byte alone.
Programs that agree up to multiples of 256 in such values have one reduced program in common, and a
program runs like its reduced program, so they all run alike.
-/

namespace Brainfuck

theorem lowByte_eq_iff {a b : Int64} :
    lowByte a = lowByte b ↔ a.toInt ≡ b.toInt [ZMOD 256] := by
  have ha := toNat_lowByte a
  have hb := toNat_lowByte b
  unfold Int.ModEq
  rw [← UInt8.toNat_inj]
  omega

/-- The word between 0 and 255 that differs by a multiple of 256. -/
def reduce (a : Int64) : Int64 :=
  .ofInt (a.toInt % 256)

theorem toInt_reduce (a : Int64) : (reduce a).toInt = a.toInt % 256 := by
  apply Int64.toInt_ofInt_of_le <;> omega

theorem reduce_eq_iff {a b : Int64} : reduce a = reduce b ↔ a.toInt ≡ b.toInt [ZMOD 256] := by
  rw [← Int64.toInt_inj, toInt_reduce, toInt_reduce, Int.ModEq]

@[simp] theorem lowByte_reduce (a : Int64) : lowByte (reduce a) = lowByte a := by
  rw [lowByte_eq_iff, toInt_reduce]
  exact Int.mod_modEq _ _

/-- The value is added to a cell, or is what a cell is multiplied by. -/
def Opcode.takesByte : Opcode → Bool
  | .add | .multiply => true
  | _ => false

namespace Instr

/-- Two instructions differ at most in values that count as bytes, and there by a multiple of
256. -/
structure Congruent (i j : Instr) : Prop where
  opcode_eq : i.opcode = j.opcode
  offset_eq : i.offset = j.offset
  value_modEq : i.value.toInt ≡ j.value.toInt [ZMOD 256]
  value_eq : i.opcode.takesByte = false → i.value = j.value

def reduced (i : Instr) : Instr :=
  if i.opcode.takesByte then i.withValue (reduce i.value) else i

variable {i j : Instr}

theorem opcode_reduced (i : Instr) : i.reduced.opcode = i.opcode := by
  unfold reduced
  split <;> rfl

theorem offset_reduced (i : Instr) : i.reduced.offset = i.offset := by
  unfold reduced
  split <;> rfl

theorem reduced_of_takesByte (h : i.opcode.takesByte) :
    i.reduced = i.withValue (reduce i.value) :=
  if_pos h

theorem reduced_of_takesByte_eq_false (h : i.opcode.takesByte = false) : i.reduced = i := by
  simp [reduced, h]

theorem congruent_iff : i.Congruent j ↔ i.reduced = j.reduced := by
  obtain ⟨op, v, o⟩ := i
  obtain ⟨op', v', o'⟩ := j
  constructor
  · rintro ⟨rfl, rfl, hm, he⟩
    cases hb : op.takesByte with
    | true =>
      have hv : reduce v = reduce v' := reduce_eq_iff.2 hm
      rw [reduced_of_takesByte hb, reduced_of_takesByte hb, withValue, withValue, hv]
    | false =>
      have hv : v = v' := he hb
      rw [hv]
  · intro h
    obtain rfl : op = op' := by simpa only [opcode_reduced] using congrArg opcode h
    obtain rfl : o = o' := by simpa only [offset_reduced] using congrArg offset h
    cases hb : op.takesByte with
    | true =>
      rw [reduced_of_takesByte hb, reduced_of_takesByte hb] at h
      refine ⟨rfl, rfl, reduce_eq_iff.1 (congrArg value h), ?_⟩
      intro hf
      cases hb.symm.trans hf
    | false =>
      rw [reduced_of_takesByte_eq_false hb, reduced_of_takesByte_eq_false hb] at h
      cases h
      exact ⟨rfl, rfl, rfl, fun _ => rfl⟩

instance : DecidableRel Congruent :=
  fun _ _ => decidable_of_iff' _ congruent_iff

theorem follows_reduced (i : Instr) (b : UInt8) (ip : UInt64) :
    i.reduced.follows b ip = i.follows b ip := by
  cases hi : i.opcode with
  | add | multiply => simp [follows, opcode_reduced, hi]
  | _ => rw [reduced_of_takesByte_eq_false (by rw [hi]; rfl)]

end Instr

theorem State.exec_reduced (flushEach : Bool) (i : Instr) (s : State) :
    s.exec flushEach i.reduced = s.exec flushEach i := by
  cases hi : i.opcode with
  | add | multiply =>
    have hb : i.opcode.takesByte := by rw [hi]; rfl
    rw [Instr.reduced_of_takesByte hb]
    simp [exec, hi, Instr.withValue]
  | _ => rw [Instr.reduced_of_takesByte_eq_false (by rw [hi]; rfl)]

theorem Machine.step_reduced (flushEach : Bool) (i : Instr) (m : Machine) :
    m.step flushEach i.reduced = m.step flushEach i := by
  simp only [step, State.exec_reduced, Instr.follows_reduced]

namespace Program

def Congruent (p q : Program) : Prop :=
  List.Forall₂ Instr.Congruent p.toList q.toList

def reduced (p : Program) : Program :=
  p.map Instr.reduced

variable {p q : Program}

theorem congruent_iff : p.Congruent q ↔ p.reduced = q.reduced := by
  have hR : Instr.Congruent = fun i j => i.reduced = j.reduced := by
    ext i j
    exact Instr.congruent_iff
  rw [Congruent, hR, ← Array.toList_inj, reduced, reduced, Array.toList_map, Array.toList_map,
    ← List.forall₂_eq_eq_eq, List.forall₂_map_left_iff, List.forall₂_map_right_iff]

theorem fetch?_reduced (p : Program) (m : Machine) :
    m.fetch? p.reduced = (m.fetch? p).map Instr.reduced :=
  Array.getElem?_map

theorem execute_reduced (p : Program) (flushEach : Bool) (bound n : Nat) (m : Machine) :
    p.reduced.execute flushEach bound n m = p.execute flushEach bound n m := by
  induction bound generalizing n m with
  | zero => rfl
  | succ bound ih =>
    unfold execute
    rw [fetch?_reduced]
    cases m.fetch? p with
    | none => rfl
    | some i => simp only [Option.map_some, Machine.step_reduced, ih]

theorem run_reduced (p : Program) (flushEach : Bool) (bound : Nat) (m : Machine) :
    p.reduced.run flushEach bound m = p.run flushEach bound m := by
  rw [run, run, execute_reduced]

theorem run_eq_of_congruent (h : p.Congruent q) (flushEach : Bool) (bound : Nat) (m : Machine) :
    p.run flushEach bound m = q.run flushEach bound m := by
  rw [← run_reduced p, ← run_reduced q, congruent_iff.1 h]

theorem Session.of_congruent {flushEach : Bool} {m : Machine} {rs : List Run}
    (hs : p.Session flushEach m rs) (h : p.Congruent q) : q.Session flushEach m rs := by
  induction rs generalizing m with
  | nil => trivial
  | cons r rs ih =>
    obtain ⟨⟨bound, hb⟩, hs⟩ := hs
    rw [run_eq_of_congruent h] at hb
    exact ⟨⟨bound, hb⟩, ih hs⟩

end Program

/-- What is added to a cell, and what a cell is multiplied by, matters only modulo 256. Programs
that agree up to that end in the same runs, with all that the machine, its streams and the count of
instructions hold then, and so does a program in which all such values are reduced beforehand. -/
theorem values_matter_modulo_byte (p : Program) :
    (∀ q, p.Congruent q → ∀ flushEach,
      (∀ bound m, p.run flushEach bound m = q.run flushEach bound m) ∧
      ∀ m rs, p.Session flushEach m rs ↔ q.Session flushEach m rs) ∧
    ∀ flushEach bound m, p.reduced.run flushEach bound m = p.run flushEach bound m := by
  constructor
  · intro q h flushEach
    have h' : q.Congruent p := Program.congruent_iff.2 (Program.congruent_iff.1 h).symm
    constructor
    · exact Program.run_eq_of_congruent h flushEach
    · intro m rs
      exact ⟨fun hs => hs.of_congruent h, fun hs => hs.of_congruent h'⟩
  · exact Program.run_reduced p

/-- The values are far apart and of either sign, and one multiplication adds to its own counter. -/
theorem values_matter_modulo_byte_extremes :
    let p : Program := #[{ opcode := .read, value := 2 }, { opcode := .jumpIfZero, value := 5 },
      { opcode := .add, value := -1 }, .multiply 0 (-3), .multiply 1 .minValue,
      { opcode := .jumpUnlessZero, value := 1 }]
    let q : Program := #[{ opcode := .read, value := 2 }, { opcode := .jumpIfZero, value := 5 },
      { opcode := .add, value := .maxValue }, .multiply 0 253, .multiply 1 0,
      { opcode := .jumpUnlessZero, value := 1 }]
    p ≠ q ∧ p.Congruent q ∧
      ∀ m rs, p.Session true m rs ↔ q.Session true m rs := by
  intro p q
  have h : p.Congruent q := by
    unfold Program.Congruent
    decide
  exact ⟨by decide, h, ((values_matter_modulo_byte p).1 q h true).2⟩

end Brainfuck
