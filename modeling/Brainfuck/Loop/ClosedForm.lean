import Brainfuck.Instr
import Std.Data.TreeMap

/-! # Closed forms of loops

A loop whose body only adds and moves often has the effect of a few instructions without a
jump. If the body returns to the cell where it began and takes one from it, the loop runs as
many times as the cell holds, and every other cell gains a multiple of that number. An odd
step repeated on one cell always reaches zero. A step of one cell repeated is a scan.
-/

namespace Brainfuck

/-- What one pass through a straight loop body does: where the pointer ends, and what is added
to every cell that is changed or landed on, both relative to the start. -/
structure Effect where
  shift : Int64 := 0
  deltas : Std.TreeMap Int64 Int64 := {}

namespace Effect

/-- Adds `d` at the current place, which gets an entry even if `d` is zero. -/
def bump (e : Effect) (d : Int64) : Effect :=
  { e with deltas := e.deltas.insert e.shift (e.deltas.getD e.shift 0 + d) }

def step? (e : Effect) (i : Instr) : Option Effect :=
  match i.opcode with
  | .add => some (e.bump i.value)
  | .move => some ({ e with shift := e.shift + i.value }.bump 0)
  | _ => none

/-- The effect of a body, if it only adds and moves. -/
def ofBody? (body : List Instr) : Option Effect :=
  body.foldlM step? {}

/-- The body ends where it began, on a cell that loses one. -/
def isCountdown (e : Effect) : Bool :=
  e.shift == 0 && e.deltas[(0 : Int64)]? == some (-1)

/-- One multiplication for every other cell of the effect, by ascending offset. A cell that
gains nothing keeps its multiplication, which still checks that the cell exists. -/
def multiplications (e : Effect) : List Instr :=
  (e.deltas.toList.filter (·.1 ≠ 0)).map fun (offset, factor) => .multiply offset factor

end Effect

/-- The closed form of a loop that repeats one instruction. -/
def Instr.closedForm? (i : Instr) : Option Instr :=
  match i.opcode with
  | .add => if i.value % 2 ≠ 0 then some .clear else none
  | .move =>
    if i.value = -1 then some { opcode := .scanLeft }
    else if i.value = 1 then some { opcode := .scanRight }
    else none
  | _ => none

/-- The instructions that do what the loop with the given body does, where they are known. -/
def closedForm? (body : List Instr) : Option (List Instr) :=
  match Effect.ofBody? body with
  | none => none
  | some e =>
    if e.isCountdown then some (e.multiplications ++ [.clear])
    else
      match body with
      | [i] => i.closedForm?.map ([·])
      | _ => none

namespace Effect

theorem size_bump_le (e : Effect) (d : Int64) : (e.bump d).deltas.size ≤ e.deltas.size + 1 :=
  Std.TreeMap.size_insert_le

theorem size_step?_le {e e' : Effect} {i : Instr} (h : e.step? i = some e') :
    e'.deltas.size ≤ e.deltas.size + 1 := by
  unfold step? at h
  split at h <;> cases h <;> exact size_bump_le ..

theorem size_foldlM_le {body : List Instr} {e e' : Effect} (h : body.foldlM step? e = some e') :
    e'.deltas.size ≤ e.deltas.size + body.length := by
  induction body generalizing e with
  | nil =>
    cases h
    exact Nat.le_refl _
  | cons i body ih =>
    rw [List.foldlM_cons] at h
    obtain ⟨e₁, h₁, h⟩ := Option.bind_eq_some_iff.1 h
    have := size_step?_le h₁
    have := ih h
    simp only [List.length_cons]
    omega

theorem size_ofBody?_le {body : List Instr} {e : Effect} (h : ofBody? body = some e) :
    e.deltas.size ≤ body.length := by
  have := size_foldlM_le h
  simpa using this

theorem length_multiplications_lt {e : Effect} (h : e.isCountdown) :
    e.multiplications.length < e.deltas.size := by
  have hmem : ((0 : Int64), (-1 : Int64)) ∈ e.deltas.toList := by
    simp only [isCountdown, Bool.and_eq_true, beq_iff_eq] at h
    exact Std.TreeMap.mem_toList_iff_getElem?_eq_some.2 h.2
  have hle := List.length_filter_le (fun kd : Int64 × Int64 => decide (kd.1 ≠ 0)) e.deltas.toList
  have hne : (e.deltas.toList.filter fun kd => decide (kd.1 ≠ 0)).length ≠
      e.deltas.toList.length := by
    intro heq
    simpa using List.length_filter_eq_length_iff.1 heq _ hmem
  simp only [multiplications, List.length_map]
  rw [← Std.TreeMap.length_toList]
  omega

end Effect

/-- A closed form is never longer than the body, so folding a loop saves its two jumps. -/
theorem length_le_of_closedForm? {body form : List Instr} (h : closedForm? body = some form) :
    form.length ≤ body.length := by
  unfold closedForm? at h
  split at h
  · cases h
  · rename_i e he
    split at h
    · rename_i hc
      cases h
      have := Effect.size_ofBody?_le he
      have := Effect.length_multiplications_lt hc
      simp only [List.length_append, List.length_singleton]
      omega
    · split at h
      · obtain ⟨_, _, rfl⟩ := Option.map_eq_some_iff.1 h
        exact Nat.le_refl _
      · cases h

theorem closedForm?_nil : closedForm? [] = none := by
  simp [closedForm?, Effect.ofBody?, Effect.isCountdown]

end Brainfuck
