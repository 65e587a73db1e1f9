/-! # The tape

A tape of 30000 byte cells, addressed by cells that lie on it. Addresses are computed in 64-bit
words, and a word off the tape is no cell.
-/

namespace Brainfuck

abbrev tapeLength : Nat := 30000

abbrev Cell := Fin tapeLength

abbrev Tape := Vector UInt8 tapeLength

namespace Cell

def first : Cell := ⟨0, by decide⟩

def last : Cell := ⟨tapeLength - 1, by decide⟩

def toWord (c : Cell) : Int64 :=
  .ofNat c.val

def ofWord? (target : Int64) : Option Cell :=
  if h : 0 ≤ target.toInt ∧ target.toInt < tapeLength then
    some ⟨target.toInt.toNat, by omega⟩
  else none

end Cell

namespace Tape

def blank : Tape :=
  .replicate tapeLength 0

def peek (t : Tape) (c : Cell) : UInt8 :=
  t[c]

def poke (t : Tape) (c : Cell) (b : UInt8) : Tape :=
  t.set c b

variable {t u : Tape}

theorem peek_poke (t : Tape) (c d : Cell) (b : UInt8) :
    (t.poke c b).peek d = if d = c then b else t.peek d := by
  simp [peek, poke, Vector.getElem_set, Fin.ext_iff, eq_comm]

@[simp] theorem peek_poke_self (t : Tape) (c : Cell) (b : UInt8) : (t.poke c b).peek c = b := by
  rw [peek_poke, if_pos rfl]

@[simp] theorem poke_poke (t : Tape) (c : Cell) (b b' : UInt8) :
    (t.poke c b).poke c b' = t.poke c b' :=
  Vector.set_set ..

@[simp] theorem poke_peek (t : Tape) (c : Cell) : t.poke c (t.peek c) = t :=
  Vector.set_getElem_self _

theorem ext_of_peek (h : ∀ c, t.peek c = u.peek c) : t = u :=
  Vector.ext fun n hn => h ⟨n, hn⟩

/-- The nearest zero cell at or left of `c`. -/
def zeroLeft? (t : Tape) : Cell → Option Cell
  | ⟨0, h⟩ => if t.peek ⟨0, h⟩ = 0 then some ⟨0, h⟩ else none
  | ⟨n + 1, h⟩ =>
    if t.peek ⟨n + 1, h⟩ = 0 then some ⟨n + 1, h⟩ else zeroLeft? t ⟨n, Nat.lt_of_succ_lt h⟩
termination_by c => c.val

/-- The nearest zero cell at or right of `c`. -/
def zeroRight? (t : Tape) (c : Cell) : Option Cell :=
  if t.peek c = 0 then some c
  else if h : c.val + 1 < tapeLength then zeroRight? t ⟨c.val + 1, h⟩
  else none
termination_by tapeLength - c.val

theorem zeroLeft?_eq_none_iff {c : Cell} : t.zeroLeft? c = none ↔ ∀ d ≤ c, t.peek d ≠ 0 := by
  fun_induction zeroLeft? t c with
  | case1 h hz =>
    simp only [reduceCtorEq, false_iff]
    exact fun hall => hall ⟨0, h⟩ (Nat.le_refl _) hz
  | case2 h hz =>
    simp only [true_iff]
    intro d hd
    obtain rfl : d = ⟨0, h⟩ := Fin.ext (Nat.le_zero.1 hd)
    exact hz
  | case3 n h hz =>
    simp only [reduceCtorEq, false_iff]
    exact fun hall => hall ⟨n + 1, h⟩ (Nat.le_refl _) hz
  | case4 n h hz ih =>
    rw [ih]
    constructor
    · intro hall d hd
      rcases Nat.lt_or_eq_of_le hd with hlt | heq
      · exact hall d (Nat.le_of_lt_succ hlt)
      · obtain rfl : d = ⟨n + 1, h⟩ := Fin.ext heq
        exact hz
    · intro hall d hd
      exact hall d (Nat.le_succ_of_le hd)

theorem zeroRight?_eq_none_iff {c : Cell} : t.zeroRight? c = none ↔ ∀ d ≥ c, t.peek d ≠ 0 := by
  fun_induction zeroRight? t c with
  | case1 c hz =>
    simp only [reduceCtorEq, false_iff]
    exact fun hall => hall c (Nat.le_refl _) hz
  | case2 c hz h ih =>
    rw [ih]
    constructor
    · intro hall d hd
      rcases Nat.lt_or_eq_of_le hd with hlt | heq
      · exact hall d hlt
      · obtain rfl : d = c := Fin.ext heq.symm
        exact hz
    · intro hall d hd
      exact hall d (Nat.le_of_succ_le hd)
  | case3 c hz h =>
    simp only [true_iff]
    intro d hd
    obtain rfl : d = c := Fin.ext (Nat.le_antisymm (by omega) hd)
    exact hz

end Tape

end Brainfuck
