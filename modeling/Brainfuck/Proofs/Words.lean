import Mathlib.Data.Int.GCD
import Mathlib.Data.Nat.Prime.Basic
import Brainfuck.Machine.State

/-! # Words as addresses and as bytes

A word is the address of at most one cell. To take the low byte of a word commutes with adding,
and an odd byte has a multiple that cancels any other.
-/

namespace Brainfuck

def OnTape (a : Int) : Prop :=
  0 ≤ a ∧ a < tapeLength

namespace Cell

theorem toInt_toWord (c : Cell) : c.toWord.toInt = c.val := by
  have h : c.val < 30000 := c.isLt
  rw [toWord, Int64.toInt_ofNat_of_lt (by omega)]

theorem ofWord?_eq_some_iff {w : Int64} {c : Cell} : ofWord? w = some c ↔ w = c.toWord := by
  constructor
  · intro h
    unfold ofWord? at h
    split at h
    · cases h
      apply Int64.toInt_inj.1
      rw [toInt_toWord]
      simp only
      omega
    · cases h
  · rintro rfl
    have h := c.isLt
    have ht := c.toInt_toWord
    unfold ofWord?
    rw [dif_pos ⟨by omega, by omega⟩]
    simp only [ht, Int.toNat_natCast, Fin.eta]

@[simp] theorem ofWord?_toWord (c : Cell) : ofWord? c.toWord = some c :=
  ofWord?_eq_some_iff.2 rfl

/-- The sum in words leads to a cell only if the exact sum does, since an address that wraps is
far off the tape on either side. -/
theorem ofWord?_add_eq_some_iff_toInt {c d : Cell} {v : Int64} :
    ofWord? (c.toWord + v) = some d ↔ (c.val : Int) + v.toInt = d.val := by
  have hc : c.val < 30000 := c.isLt
  have hd : d.val < 30000 := d.isLt
  have hle := v.le_toInt
  have hlt := v.toInt_lt
  rw [ofWord?_eq_some_iff, ← Int64.toInt_inj, Int64.toInt_add, toInt_toWord, toInt_toWord,
    Int.bmod_def]
  split <;> omega

theorem onTape (c : Cell) : OnTape c.val :=
  ⟨Int.natCast_nonneg _, Int.ofNat_lt.2 c.isLt⟩

theorem ofWord?_eq_none_iff {w : Int64} : ofWord? w = none ↔ ¬ OnTape w.toInt := by
  unfold ofWord? OnTape
  split
  · rename_i h
    exact iff_of_false nofun (not_not_intro h)
  · rename_i h
    exact iff_of_true rfl h

theorem ofWord?_add_eq_none_iff {c : Cell} {v : Int64} :
    ofWord? (c.toWord + v) = none ↔ ¬ OnTape (c.val + v.toInt) := by
  rw [Option.eq_none_iff_forall_ne_some]
  constructor
  · rintro h ⟨h₀, h₁⟩
    apply h ⟨((c.val : Int) + v.toInt).toNat, by omega⟩
    rw [ofWord?_add_eq_some_iff_toInt]
    simp only
    omega
  · intro h d hd
    rw [ofWord?_add_eq_some_iff_toInt] at hd
    rw [hd] at h
    exact h d.onTape

theorem toWord_inj {c d : Cell} : c.toWord = d.toWord ↔ c = d := by
  constructor
  · intro h
    have hc := ofWord?_toWord c
    rw [h, ofWord?_toWord] at hc
    exact (Option.some.inj hc).symm
  · rintro rfl
    rfl

end Cell

theorem lowByte_add (a b : Int64) : lowByte (a + b) = lowByte a + lowByte b := by
  simp [lowByte]

@[simp] theorem lowByte_zero : lowByte 0 = 0 := rfl

theorem lowByte_neg_one : lowByte (-1) = -1 := rfl

theorem toNat_lowByte (a : Int64) : ((lowByte a).toNat : Int) = a.toInt % 256 := by
  have hb : a.toInt = a.toBitVec.toInt := rfl
  have hn : (lowByte a).toNat = a.toBitVec.toNat % 256 := UInt64.toNat_toUInt8 _
  rw [hb, BitVec.toInt_eq_toNat_cond, hn]
  split <;> omega

theorem odd_lowByte {a : Int64} (h : a % 2 ≠ 0) : (lowByte a).toNat % 2 = 1 := by
  have hd : ¬ (2 : Int) ∣ a.toInt := by
    intro hd
    apply h
    apply Int64.toInt_inj.1
    rw [Int64.toInt_mod]
    exact Int.tmod_eq_zero_of_dvd hd
  have hn := toNat_lowByte a
  omega

/-- A step by an odd byte, repeated, ends at zero. -/
theorem exists_add_mul_eq_zero {b : UInt8} (hb : b.toNat % 2 = 1) (c : UInt8) :
    ∃ k : Nat, c + .ofNat k * b = 0 := by
  have hco : Nat.Coprime b.toNat 256 :=
    Nat.Coprime.pow_right 8 (Nat.coprime_two_right.2 (Nat.odd_iff.2 hb))
  obtain ⟨m, -, hm⟩ := Nat.exists_mul_mod_eq_one_of_coprime hco (by decide)
  have hinv : b * .ofNat m = 1 := by
    apply UInt8.toNat_inj.1
    simpa using hm
  refine ⟨(-c * .ofNat m).toNat, ?_⟩
  rw [UInt8.ofNat_toNat]
  grind

end Brainfuck
