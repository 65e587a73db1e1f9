import Mathlib.Order.Bounds.Basic
import Brainfuck.Proofs.Addresses

/-! # Scans

A scan moves one cell at a time as long as the current cell is not zero. So it stops on the nearest
zero cell of its side, which may be the one that it starts on, or it leaves the tape if there is no
such cell. It ends in either case, after as many moves as there are cells at most.
-/

namespace Brainfuck

namespace Cell

variable {c : Cell}

theorem eq_first_of_ofWord? (h : ofWord? (c.toWord + -1) = none) : c = .first := by
  have hc := ofWord?_add_eq_none_iff.1 h
  have hv : (-1 : Int64).toInt = -1 := rfl
  have hlt := c.isLt
  apply Fin.ext
  simp only [OnTape, first] at hc ⊢
  omega

theorem eq_last_of_ofWord? (h : ofWord? (c.toWord + 1) = none) : c = .last := by
  have hc := ofWord?_add_eq_none_iff.1 h
  have hv : (1 : Int64).toInt = 1 := rfl
  have hlt := c.isLt
  apply Fin.ext
  simp only [OnTape, last] at hc ⊢
  omega

end Cell

namespace Tape

variable {t : Tape} {c d : Cell}

theorem zeroLeft?_of_zero (h : t.peek c = 0) : t.zeroLeft? c = some c := by
  obtain ⟨_ | n, hc⟩ := c
  · rw [zeroLeft?, if_pos h]
  · rw [zeroLeft?, if_pos h]

theorem zeroLeft?_of_ne_zero (h : t.peek c ≠ 0) (hd : c.val = d.val + 1) :
    t.zeroLeft? c = t.zeroLeft? d := by
  obtain ⟨n, hc⟩ := c
  obtain rfl : n = d.val + 1 := hd
  rw [zeroLeft?, if_neg h]

theorem zeroLeft?_first (h : t.peek .first ≠ 0) : t.zeroLeft? .first = none := by
  rw [Cell.first, zeroLeft?]
  exact if_neg h

theorem zeroRight?_of_zero (h : t.peek c = 0) : t.zeroRight? c = some c := by
  rw [zeroRight?, if_pos h]

theorem zeroRight?_of_ne_zero (h : t.peek c ≠ 0) (hd : d.val = c.val + 1) :
    t.zeroRight? c = t.zeroRight? d := by
  obtain ⟨n, hn⟩ := d
  obtain rfl : n = c.val + 1 := hd
  rw [zeroRight?, if_neg h, dif_pos hn]

theorem zeroRight?_last (h : t.peek .last ≠ 0) : t.zeroRight? .last = none := by
  rw [zeroRight?, if_neg h, dif_neg (by decide)]

theorem isGreatest_of_zeroLeft? (h : t.zeroLeft? c = some d) :
    IsGreatest {x | x ≤ c ∧ t.peek x = 0} d := by
  fun_induction zeroLeft? t c with
  | case1 hc hz | case3 n hc hz =>
    cases h
    exact ⟨⟨Nat.le_refl _, hz⟩, fun x hx => hx.1⟩
  | case2 => cases h
  | case4 n hc hz ih =>
    obtain ⟨⟨hle, hd⟩, hub⟩ := ih h
    refine ⟨⟨Nat.le_succ_of_le hle, hd⟩, ?_⟩
    rintro x ⟨hx, hxz⟩
    rcases Nat.lt_or_eq_of_le hx with hlt | heq
    · exact hub ⟨Nat.le_of_lt_succ hlt, hxz⟩
    · obtain rfl : x = ⟨n + 1, hc⟩ := Fin.ext heq
      exact (hz hxz).elim

theorem isLeast_of_zeroRight? (h : t.zeroRight? c = some d) :
    IsLeast {x | c ≤ x ∧ t.peek x = 0} d := by
  fun_induction zeroRight? t c with
  | case1 c hz =>
    cases h
    exact ⟨⟨Nat.le_refl _, hz⟩, fun x hx => hx.1⟩
  | case2 c hz hc ih =>
    obtain ⟨⟨hle, hd⟩, hlb⟩ := ih h
    refine ⟨⟨Nat.le_of_succ_le hle, hd⟩, ?_⟩
    rintro x ⟨hx, hxz⟩
    rcases Nat.lt_or_eq_of_le hx with hlt | heq
    · exact hlb ⟨hlt, hxz⟩
    · obtain rfl : x = c := Fin.ext heq.symm
      exact (hz hxz).elim
  | case3 => cases h

end Tape

namespace State

/-- The loop of a scan, by moves of `v`: how many moves it makes, one that leaves the tape
included, and how it ends. -/
inductive Scan (v : Int64) : Nat → State → Outcome State Fault → Prop where

  | stop {s : State} : s.cell = 0 → Scan v 0 s ⟨s, none⟩

  | move {s : State} {c : Cell} {n : Nat} {out : Outcome State Fault} : s.cell ≠ 0 →
      Cell.ofWord? (s.dp.toWord + v) = some c → Scan v n { s with dp := c } out →
      Scan v (n + 1) s out

  | leave {s : State} : s.cell ≠ 0 → Cell.ofWord? (s.dp.toWord + v) = none →
      Scan v 1 s ⟨s, some (.outOfRange (s.dp.toWord + v))⟩

/-- The instruction does what the first round of the loop does, and then goes on. -/
structure Unrolls (flushEach : Bool) (i : Instr) (v : Int64) : Prop where
  stop : ∀ s : State, s.cell = 0 → s.exec flushEach i = ⟨s, none⟩
  move : ∀ (s : State) (c : Cell), s.cell ≠ 0 → Cell.ofWord? (s.dp.toWord + v) = some c →
    s.exec flushEach i = State.exec flushEach i { s with dp := c }
  leave : ∀ s : State, s.cell ≠ 0 → Cell.ofWord? (s.dp.toWord + v) = none →
    s.exec flushEach i = ⟨s, some (.outOfRange (s.dp.toWord + v))⟩

variable {i : Instr} {s : State} {c : Cell} {v : Int64} {flushEach : Bool}

/-- A loop whose moves lower a measure makes no more of them than the measure allows. -/
theorem Unrolls.exists_scan (h : Unrolls flushEach i v) (μ : Cell → Nat) (hpos : ∀ c, 0 < μ c)
    (hμ : ∀ c d, Cell.ofWord? (c.toWord + v) = some d → μ d < μ c) (s : State) :
    ∃ n ≤ μ s.dp, Scan v n s (s.exec flushEach i) := by
  induction hk : μ s.dp using Nat.strong_induction_on generalizing s with
  | h k ih =>
    by_cases hz : s.cell = 0
    · rw [h.stop s hz]
      exact ⟨0, Nat.zero_le k, .stop hz⟩
    · cases hc : Cell.ofWord? (s.dp.toWord + v) with
      | none =>
        rw [h.leave s hz hc]
        exact ⟨1, hk ▸ hpos s.dp, .leave hz hc⟩
      | some c =>
        have hlt : μ c < k := hk ▸ hμ s.dp c hc
        obtain ⟨n, hn, hs⟩ := ih (μ c) hlt { s with dp := c } rfl
        rw [h.move s c hz hc]
        exact ⟨n + 1, by omega, .move hz hc hs⟩

theorem exec_scanLeft (hi : i.opcode = .scanLeft) (flushEach : Bool) (s : State) :
    s.exec flushEach i =
      match s.tape.zeroLeft? s.dp with
      | some c => ⟨{ s with dp := c }, none⟩
      | none => ⟨{ s with dp := .first }, some (.outOfRange (-1))⟩ := by
  simp only [exec, hi]
  rfl

theorem exec_scanRight (hi : i.opcode = .scanRight) (flushEach : Bool) (s : State) :
    s.exec flushEach i =
      match s.tape.zeroRight? s.dp with
      | some c => ⟨{ s with dp := c }, none⟩
      | none => ⟨{ s with dp := .last }, some (.outOfRange 30000)⟩ := by
  simp only [exec, hi]
  rfl

theorem unrolls_left (hi : i.opcode = .scanLeft) : Unrolls flushEach i (-1) where
  stop s hz := by
    rw [exec_scanLeft hi, Tape.zeroLeft?_of_zero hz]
  move s c hz hc := by
    have hd := Cell.ofWord?_add_eq_some_iff_toInt.1 hc
    have hv : (-1 : Int64).toInt = -1 := rfl
    rw [exec_scanLeft hi, exec_scanLeft hi, Tape.zeroLeft?_of_ne_zero hz (d := c) (by omega)]
  leave s hz hc := by
    obtain ⟨tape, dp, streams⟩ := s
    obtain rfl := Cell.eq_first_of_ofWord? hc
    have hw : Cell.first.toWord + -1 = -1 := by decide
    rw [exec_scanLeft hi, Tape.zeroLeft?_first hz, hw]

theorem unrolls_right (hi : i.opcode = .scanRight) : Unrolls flushEach i 1 where
  stop s hz := by
    rw [exec_scanRight hi, Tape.zeroRight?_of_zero hz]
  move s c hz hc := by
    have hd := Cell.ofWord?_add_eq_some_iff_toInt.1 hc
    have hv : (1 : Int64).toInt = 1 := rfl
    rw [exec_scanRight hi, exec_scanRight hi, Tape.zeroRight?_of_ne_zero hz (d := c) (by omega)]
  leave s hz hc := by
    obtain ⟨tape, dp, streams⟩ := s
    obtain rfl := Cell.eq_last_of_ofWord? hc
    have hw : Cell.last.toWord + 1 = 30000 := by decide
    rw [exec_scanRight hi, Tape.zeroRight?_last hz, hw]

theorem exists_scan_left (hi : i.opcode = .scanLeft) (flushEach : Bool) (s : State) :
    ∃ n ≤ s.dp.val + 1, Scan (-1) n s (s.exec flushEach i) := by
  refine (unrolls_left hi).exists_scan (fun c => c.val + 1) (fun _ => Nat.succ_pos _) ?_ s
  intro c d hd
  have hd := Cell.ofWord?_add_eq_some_iff_toInt.1 hd
  have hv : (-1 : Int64).toInt = -1 := rfl
  omega

theorem exists_scan_right (hi : i.opcode = .scanRight) (flushEach : Bool) (s : State) :
    ∃ n ≤ tapeLength - s.dp.val, Scan 1 n s (s.exec flushEach i) := by
  refine (unrolls_right hi).exists_scan (fun c => tapeLength - c.val)
    (fun c => Nat.sub_pos_of_lt c.isLt) ?_ s
  intro c d hd
  have hd := Cell.ofWord?_add_eq_some_iff_toInt.1 hd
  have hv : (1 : Int64).toInt = 1 := rfl
  have hlt := d.isLt
  omega

end State

namespace Program

/-- The next instruction is completed, which leaves the second machine and counts as one. -/
def Completes (p : Program) (flushEach : Bool) (m m' : Machine) : Prop :=
  p.Next flushEach m m' ∧
    ∀ bound n, p.execute flushEach (bound + 1) n m = p.execute flushEach bound (n + 1) m'

variable {p : Program} {flushEach : Bool} {m : Machine} {i : Instr} {s' : State} {t : Int64}

theorem completes_of_exec (hf : m.fetch? p = some i) (hb : i.bracket? = none)
    (h : m.exec flushEach i = ⟨s', none⟩) : p.Completes flushEach m ⟨s', m.ip + 1⟩ := by
  have hj : ¬ i.Jumps m.cell := Instr.not_jumps_of_bracket?_eq_none hb m.cell
  have hs := Machine.step_of_exec hj h m.ip
  exact ⟨⟨i, hf, hs⟩, execute_succ hf hs⟩

theorem stops_of_exec (hf : m.fetch? p = some i)
    (h : m.exec flushEach i = ⟨s', some (.outOfRange t)⟩) :
    p.Stops flushEach m ⟨s', m.ip⟩ (some (.outOfRange m.ip t)) :=
  .failed hf (Machine.step_fault h m.ip)

end Program

/-- A scan goes to the nearest zero cell on its side and does nothing else, or it fails beyond the
end of the tape. It is a loop that ends after as many moves as the tape has cells at most. -/
theorem scans_stop_at_nearest_zero (p : Program) (flushEach : Bool) (m : Machine) (i : Instr)
    (hf : m.fetch? p = some i) :
    (i.opcode = .scanRight →
      ((∃ c ≥ m.dp, m.tape.peek c = 0) → ∃ c, IsLeast {c | m.dp ≤ c ∧ m.tape.peek c = 0} c ∧
        p.Completes flushEach m { m with dp := c, ip := m.ip + 1 }) ∧
      ((∀ c ≥ m.dp, m.tape.peek c ≠ 0) →
        p.Stops flushEach m { m with dp := .last } (some (.outOfRange m.ip 30000))) ∧
      ∃ n ≤ 30000, State.Scan 1 n m.toState (m.exec flushEach i)) ∧
    (i.opcode = .scanLeft →
      ((∃ c ≤ m.dp, m.tape.peek c = 0) → ∃ c, IsGreatest {c | c ≤ m.dp ∧ m.tape.peek c = 0} c ∧
        p.Completes flushEach m { m with dp := c, ip := m.ip + 1 }) ∧
      ((∀ c ≤ m.dp, m.tape.peek c ≠ 0) →
        p.Stops flushEach m { m with dp := .first } (some (.outOfRange m.ip (-1)))) ∧
      ∃ n ≤ 30000, State.Scan (-1) n m.toState (m.exec flushEach i)) := by
  constructor
  · intro hi
    have hb : i.bracket? = none := by simp [Instr.bracket?, hi, Opcode.bracket?]
    refine ⟨?_, ?_, ?_⟩
    · rintro ⟨d, hd, hz⟩
      have hne : m.tape.zeroRight? m.dp ≠ none :=
        fun h => Tape.zeroRight?_eq_none_iff.1 h d hd hz
      obtain ⟨c, hc⟩ := Option.ne_none_iff_exists'.1 hne
      refine ⟨c, Tape.isLeast_of_zeroRight? hc, Program.completes_of_exec hf hb ?_⟩
      rw [State.exec_scanRight hi, hc]
    · intro hall
      apply Program.stops_of_exec hf
      rw [State.exec_scanRight hi, Tape.zeroRight?_eq_none_iff.2 hall]
    · obtain ⟨n, hn, hs⟩ := State.exists_scan_right hi flushEach m.toState
      exact ⟨n, Nat.le_trans hn (Nat.sub_le _ _), hs⟩
  · intro hi
    have hb : i.bracket? = none := by simp [Instr.bracket?, hi, Opcode.bracket?]
    refine ⟨?_, ?_, ?_⟩
    · rintro ⟨d, hd, hz⟩
      have hne : m.tape.zeroLeft? m.dp ≠ none :=
        fun h => Tape.zeroLeft?_eq_none_iff.1 h d hd hz
      obtain ⟨c, hc⟩ := Option.ne_none_iff_exists'.1 hne
      refine ⟨c, Tape.isGreatest_of_zeroLeft? hc, Program.completes_of_exec hf hb ?_⟩
      rw [State.exec_scanLeft hi, hc]
    · intro hall
      apply Program.stops_of_exec hf
      rw [State.exec_scanLeft hi, Tape.zeroLeft?_eq_none_iff.2 hall]
    · obtain ⟨n, hn, hs⟩ := State.exists_scan_left hi flushEach m.toState
      exact ⟨n, Nat.le_trans hn m.dp.isLt, hs⟩

/-- To the right of the two cells that are not zero there is a zero cell, and to their left there is
none. -/
theorem scans_stop_at_nearest_zero_between :
    let right : Program := #[{ opcode := .scanRight }]
    let left : Program := #[{ opcode := .scanLeft }]
    let m : Machine := { tape := (Tape.blank.poke 0 1).poke 1 255, dp := 1 }
    m.fetch? right = some { opcode := .scanRight } ∧ (∃ c ≥ m.dp, m.tape.peek c = 0) ∧
      (∃ c, IsLeast {c | m.dp ≤ c ∧ m.tape.peek c = 0} c ∧
        right.Completes true m { m with dp := c, ip := 1 }) ∧
    m.fetch? left = some { opcode := .scanLeft } ∧ (∀ c ≤ m.dp, m.tape.peek c ≠ 0) ∧
      left.Stops true m { m with dp := .first } (some (.outOfRange 0 (-1))) := by
  intro right left m
  have hr : m.fetch? right = some { opcode := .scanRight } := rfl
  have hl : m.fetch? left = some { opcode := .scanLeft } := rfl
  have hz : ∃ c ≥ m.dp, m.tape.peek c = 0 := ⟨2, by decide, by decide⟩
  have hall : ∀ c ≤ m.dp, m.tape.peek c ≠ 0 := by
    intro c hc
    have hle : c.val ≤ 1 := hc
    rcases Nat.le_one_iff_eq_zero_or_eq_one.1 hle with h | h
    · obtain rfl : c = 0 := Fin.ext h
      decide
    · obtain rfl : c = 1 := Fin.ext h
      decide
  obtain ⟨hright, -⟩ := scans_stop_at_nearest_zero right true m _ hr
  obtain ⟨-, hleft⟩ := scans_stop_at_nearest_zero left true m _ hl
  exact ⟨hr, hz, (hright rfl).1 hz, hl, hall, (hleft rfl).2.1 hall⟩

end Brainfuck
