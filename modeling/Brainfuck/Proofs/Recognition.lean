import Mathlib.Algebra.Ring.Int.Parity
import Mathlib.Data.List.Sort
import Brainfuck.Proofs.RangeFaults

/-! # Which loops have a closed form

The map of an effect is kept instruction by instruction. What it comes to is said here by sums over
the prefixes of a body: where each instruction finds the pointer, and what is added there. These
sums decide whether a loop has a closed form, and they are the words of its multiplications.
-/

namespace Brainfuck

/-- The sum of the moves, which is where the pointer is after the body. -/
def netShift (body : List Instr) : Int64 :=
  ((body.filter fun i => i.opcode = .move).map Instr.value).sum

def gain (body : List Instr) (o : Int64) : Int64 :=
  ((body.zipIdx.filter fun (i, k) => i.opcode = .add ∧ netShift (body.take k) = o).map
    fun (i, _) => i.value).sum

/-- Something is added at the offset `o`, or a move ends there. -/
def Touches (body : List Instr) (o : Int64) : Prop :=
  ∃ k i, body[k]? = some i ∧
    (i.opcode = .add ∧ netShift (body.take k) = o ∨
      i.opcode = .move ∧ netShift (body.take (k + 1)) = o)

structure CountsDown (body : List Instr) : Prop where
  shift : netShift body = 0
  gain : gain body 0 = -1

inductive IsClosedForm (body : List Instr) : List Instr → Prop where
  /-- One multiplication for every touched offset but the start, by ascending offset. -/
  | countdown {os : List Int64} (hs : ∀ i ∈ body, i.opcode = .add ∨ i.opcode = .move)
      (hc : CountsDown body) (hos : os.Pairwise (· < ·))
      (hmem : ∀ o, o ∈ os ↔ o ≠ 0 ∧ Touches body o) :
      IsClosedForm body (os.map (fun o => .multiply o (gain body o)) ++ [.clear])
  | oddStep {i : Instr} (hb : body = [i]) (hi : i.opcode = .add) (hv : Odd i.value.toInt) :
      IsClosedForm body [.clear]
  | scanLeft {i : Instr} (hb : body = [i]) (hi : i.opcode = .move) (hv : i.value = -1) :
      IsClosedForm body [{ opcode := .scanLeft }]
  | scanRight {i : Instr} (hb : body = [i]) (hi : i.opcode = .move) (hv : i.value = 1) :
      IsClosedForm body [{ opcode := .scanRight }]

variable {body form : List Instr} {i : Instr} {o : Int64} {e : Effect}

/-! ## Sums over prefixes -/

theorem netShift_concat (body : List Instr) (i : Instr) :
    netShift (body ++ [i]) = netShift body + if i.opcode = .move then i.value else 0 := by
  rw [netShift, List.filter_append, List.map_append, List.sum_append, netShift]
  by_cases hi : i.opcode = .move
  · simp [hi]
  · simp [hi]

theorem gain_concat (body : List Instr) (i : Instr) (o : Int64) : gain (body ++ [i]) o =
    gain body o + if i.opcode = .add ∧ netShift body = o then i.value else 0 := by
  have hp : ∀ x ∈ body.zipIdx,
      decide (x.1.opcode = .add ∧ netShift ((body ++ [i]).take x.2) = o) =
        decide (x.1.opcode = .add ∧ netShift (body.take x.2) = o) := by
    intro x hx
    have hlt : x.2 < body.length := by simpa using List.snd_lt_add_of_mem_zipIdx hx
    rw [List.take_append_of_le_length (Nat.le_of_lt hlt)]
  rw [gain, List.zipIdx_append, List.filter_append, List.map_append, List.sum_append,
    List.filter_congr hp, gain]
  by_cases hi : i.opcode = .add ∧ netShift body = o
  · simp [hi]
  · simp [hi]

theorem touches_concat_iff : Touches (body ++ [i]) o ↔ Touches body o ∨
    i.opcode = .add ∧ netShift body = o ∨ i.opcode = .move ∧ netShift (body ++ [i]) = o := by
  constructor
  · rintro ⟨k, j, hk, h⟩
    have hle : k ≤ body.length :=
      Nat.le_of_lt_succ (by simpa using (List.getElem?_eq_some_iff.1 hk).1)
    rcases Nat.eq_or_lt_of_le hle with rfl | hlt
    · obtain rfl : i = j := by simpa using hk
      refine .inr ?_
      rwa [List.take_left, List.take_of_length_le (by simp)] at h
    · rw [List.getElem?_append_left hlt] at hk
      rw [List.take_append_of_le_length hle, List.take_append_of_le_length hlt] at h
      exact .inl ⟨k, j, hk, h⟩
  · rintro (⟨k, j, hk, h⟩ | h)
    · have hlt : k < body.length := (List.getElem?_eq_some_iff.1 hk).1
      refine ⟨k, j, by rwa [List.getElem?_append_left hlt], ?_⟩
      rwa [List.take_append_of_le_length (Nat.le_of_lt hlt), List.take_append_of_le_length hlt]
    · refine ⟨body.length, i, by simp, ?_⟩
      rwa [List.take_left, List.take_of_length_le (by simp)]

/-! ## What the map of an effect comes to -/

namespace Effect

structure Sums (e : Effect) (body : List Instr) : Prop where
  shift : e.shift = netShift body
  mem : ∀ o, o ∈ e.deltas ↔ Touches body o
  getD : ∀ o, e.deltas.getD o 0 = gain body o

theorem Sums.step? {e' : Effect} (h : e.Sums body) (hs : e.step? i = some e') :
    e'.Sums (body ++ [i]) := by
  rcases opcode_of_step? hs with hi | hi
  · cases (step?_add hi e).symm.trans hs
    refine ⟨?_, fun o => ?_, fun o => ?_⟩
    · simp [netShift_concat, hi, h.shift]
    · simp [mem_bump, touches_concat_iff, hi, h.mem, h.shift, or_comm, eq_comm]
    · simp [getD_bump, gain_concat, hi, h.getD, h.shift, eq_comm]
  · cases (step?_move hi e).symm.trans hs
    refine ⟨?_, fun o => ?_, fun o => ?_⟩
    · simp [netShift_concat, hi, h.shift]
    · simp [mem_bump, touches_concat_iff, netShift_concat, hi, h.mem, h.shift, or_comm, eq_comm]
    · simp [getD_bump, gain_concat, hi, h.getD]

theorem ofBody?_concat (body : List Instr) (i : Instr) :
    ofBody? (body ++ [i]) = (ofBody? body).bind fun e => e.step? i := by
  rw [ofBody?, List.foldlM_append]
  cases h : ofBody? body <;> simp [ofBody?] at h <;> simp [h]

theorem sums_of_ofBody? (h : ofBody? body = some e) : e.Sums body := by
  induction body using List.reverseRecOn generalizing e with
  | nil =>
    cases h
    refine ⟨rfl, fun o => ?_, fun o => ?_⟩
    · simp [Touches]
    · simp [gain]
  | append_singleton body i ih =>
    rw [ofBody?_concat] at h
    obtain ⟨e₁, h₁, h⟩ := Option.bind_eq_some_iff.1 h
    exact (ih h₁).step? h

theorem exists_ofBody?_iff :
    (∃ e, ofBody? body = some e) ↔ ∀ i ∈ body, i.opcode = .add ∨ i.opcode = .move := by
  induction body using List.reverseRecOn with
  | nil => simp [ofBody?]
  | append_singleton body i ih =>
    rw [ofBody?_concat, List.forall_mem_append, List.forall_mem_singleton, ← ih]
    constructor
    · rintro ⟨e', h⟩
      obtain ⟨e, he, hs⟩ := Option.bind_eq_some_iff.1 h
      exact ⟨⟨e, he⟩, opcode_of_step? hs⟩
    · rintro ⟨⟨e, he⟩, hi | hi⟩
      · exact ⟨_, Option.bind_eq_some_iff.2 ⟨e, he, step?_add hi e⟩⟩
      · exact ⟨_, Option.bind_eq_some_iff.2 ⟨e, he, step?_move hi e⟩⟩

theorem Sums.isCountdown_iff (h : e.Sums body) : e.isCountdown ↔ CountsDown body := by
  rw [Effect.isCountdown_iff]
  constructor
  · rintro ⟨hs, hz⟩
    refine ⟨h.shift.symm.trans hs, ?_⟩
    rw [← h.getD, Std.TreeMap.getD_eq_getD_getElem?, hz, Option.getD_some]
  · rintro ⟨hs, hz⟩
    refine ⟨h.shift.trans hs, ?_⟩
    rw [← h.getD, Std.TreeMap.getD_eq_getD_getElem?] at hz
    cases hd : e.deltas[(0 : Int64)]? with
    | none =>
      rw [hd] at hz
      cases hz
    | some d =>
      rw [hd] at hz
      exact congrArg some hz

theorem Sums.mem_others_iff (h : e.Sums body) : o ∈ e.others ↔ o ≠ 0 ∧ Touches body o := by
  rw [mem_others, h.mem, and_comm]

theorem Sums.multiplications (h : e.Sums body) :
    e.multiplications = e.others.map fun o => .multiply o (gain body o) := by
  simp only [multiplications_eq, h.getD]

end Effect

theorem odd_toInt_iff {v : Int64} : Odd v.toInt ↔ v % 2 ≠ 0 := by
  rw [← Int.not_even_iff_odd, even_iff_two_dvd, Int.dvd_iff_tmod_eq_zero, not_iff_not,
    ← Int64.toInt_inj, Int64.toInt_mod]
  rfl

/-! ## Recognition -/

theorem isClosedForm_of_closedForm? (h : closedForm? body = some form) :
    IsClosedForm body form := by
  rcases closedForm?_cases h with ⟨e, he, hc, rfl⟩ | ⟨i, j, rfl, hj, rfl⟩
  · have hsum := Effect.sums_of_ofBody? he
    rw [hsum.multiplications]
    exact .countdown (Effect.exists_ofBody?_iff.1 ⟨e, he⟩) (hsum.isCountdown_iff.1 hc)
      e.pairwise_others fun o => hsum.mem_others_iff
  · rcases Instr.closedForm?_cases hj with ⟨hi, hv, rfl⟩ | ⟨hi, hv, rfl⟩ | ⟨hi, hv, rfl⟩
    · exact .oddStep rfl hi (odd_toInt_iff.2 hv)
    · exact .scanLeft rfl hi hv
    · exact .scanRight rfl hi hv

theorem closedForm?_of_countsDown {os : List Int64}
    (hs : ∀ i ∈ body, i.opcode = .add ∨ i.opcode = .move) (hc : CountsDown body)
    (hos : os.Pairwise (· < ·)) (hmem : ∀ o, o ∈ os ↔ o ≠ 0 ∧ Touches body o) :
    closedForm? body = some (os.map (fun o => .multiply o (gain body o)) ++ [.clear]) := by
  obtain ⟨e, he⟩ := Effect.exists_ofBody?_iff.2 hs
  have hsum := Effect.sums_of_ofBody? he
  have hothers : os = e.others :=
    hos.eq_of_mem_iff e.pairwise_others fun o => (hmem o).trans hsum.mem_others_iff.symm
  simp only [closedForm?, he, hsum.isCountdown_iff.2 hc, reduceIte, hsum.multiplications, hothers]

theorem closedForm?_singleton (hi : i.opcode = .add ∨ i.opcode = .move)
    (hc : ¬ CountsDown [i]) : closedForm? [i] = i.closedForm?.map ([·]) := by
  obtain ⟨e, he⟩ := Effect.exists_ofBody?_iff.2 (List.forall_mem_singleton.2 hi)
  have hc : ¬ e.isCountdown := mt (Effect.sums_of_ofBody? he).isCountdown_iff.1 hc
  rw [closedForm?, he]
  simp only [hc]
  rfl

theorem touches_add_iff (hi : i.opcode = .add) : Touches [i] o ↔ o = 0 := by
  have h : Touches ([] ++ [i]) o ↔ _ := touches_concat_iff
  simpa [hi, Touches, netShift, eq_comm] using h

theorem not_countsDown_move (hi : i.opcode = .move) : ¬ CountsDown [i] := by
  rintro ⟨-, hg⟩
  have h := gain_concat [] i 0
  simp [hi, gain] at h hg

theorem IsClosedForm.closedForm? (h : IsClosedForm body form) :
    Brainfuck.closedForm? body = some form := by
  cases h with
  | countdown hs hc hos hmem => exact closedForm?_of_countsDown hs hc hos hmem
  | @oddStep i hb hi hv =>
    subst hb
    by_cases hc : CountsDown [i]
    · -- A single step by minus one counts down, too, and touches no other cell.
      exact closedForm?_of_countsDown (List.forall_mem_singleton.2 (.inl hi)) hc .nil
        fun o => by simp [touches_add_iff hi]
    · rw [closedForm?_singleton (.inl hi) hc, Instr.closedForm?, hi]
      simp [odd_toInt_iff.1 hv]
  | scanLeft hb hi hv =>
    subst hb
    rw [closedForm?_singleton (.inr hi) (not_countsDown_move hi), Instr.closedForm?, hi]
    simp [hv]
  | scanRight hb hi hv =>
    subst hb
    rw [closedForm?_singleton (.inr hi) (not_countsDown_move hi), Instr.closedForm?, hi]
    simp [hv]

theorem closedForm?_eq_some_iff : closedForm? body = some form ↔ IsClosedForm body form :=
  ⟨isClosedForm_of_closedForm?, IsClosedForm.closedForm?⟩

/-- A body has a closed form if and only if it adds and moves only and counts down, or is one odd
step, or is one move to a neighbour. The closed form is the one of its shape, and is never longer
than the body. -/
theorem closed_forms_are_exact (body : List Instr) :
    ((closedForm? body).isSome ↔ (∀ i ∈ body, i.opcode = .add ∨ i.opcode = .move) ∧
      (CountsDown body ∨
        (∃ i, body = [i] ∧ i.opcode = .add ∧ Odd i.value.toInt) ∨
        ∃ i, body = [i] ∧ i.opcode = .move ∧ (i.value = -1 ∨ i.value = 1))) ∧
    ∀ form, (closedForm? body = some form ↔ IsClosedForm body form) ∧
      (closedForm? body = some form → form.length ≤ body.length) := by
  refine ⟨?_, fun form => ⟨closedForm?_eq_some_iff, length_le_of_closedForm?⟩⟩
  rw [Option.isSome_iff_exists]
  constructor
  · rintro ⟨form, h⟩
    cases closedForm?_eq_some_iff.1 h with
    | countdown hs hc => exact ⟨hs, .inl hc⟩
    | @oddStep i hb hi hv =>
      subst hb
      exact ⟨List.forall_mem_singleton.2 (.inl hi), .inr (.inl ⟨i, rfl, hi, hv⟩)⟩
    | @scanLeft i hb hi hv =>
      subst hb
      exact ⟨List.forall_mem_singleton.2 (.inr hi), .inr (.inr ⟨i, rfl, hi, .inl hv⟩)⟩
    | @scanRight i hb hi hv =>
      subst hb
      exact ⟨List.forall_mem_singleton.2 (.inr hi), .inr (.inr ⟨i, rfl, hi, .inr hv⟩)⟩
  · rintro ⟨hs, hc | ⟨i, hb, hi, hv⟩ | ⟨i, hb, hi, hv | hv⟩⟩
    · obtain ⟨e, he⟩ := Effect.exists_ofBody?_iff.2 hs
      have hsum := Effect.sums_of_ofBody? he
      exact ⟨_, closedForm?_of_countsDown hs hc e.pairwise_others fun o => hsum.mem_others_iff⟩
    · exact ⟨_, (IsClosedForm.oddStep hb hi hv).closedForm?⟩
    · exact ⟨_, (IsClosedForm.scanLeft hb hi hv).closedForm?⟩
    · exact ⟨_, (IsClosedForm.scanRight hb hi hv).closedForm?⟩

/-- The body is `->>>-<+++<<`. It lands on offset 3, 2 and 1. -/
theorem closed_forms_are_exact_landing :
    let body : List Instr := [{ opcode := .add, value := -1 }, { opcode := .move, value := 3 },
      { opcode := .add, value := -1 }, { opcode := .move, value := -1 },
      { opcode := .move, value := -1 }, { opcode := .add, value := 3 },
      { opcode := .move, value := -1 }]
    let form : List Instr := [.multiply 1 3, .multiply 2 0, .multiply 3 (-1), .clear]
    (closedForm? body).isSome ∧ CountsDown body ∧ IsClosedForm body form ∧
      closedForm? body = some form ∧ form.length ≤ body.length := by
  intro body form
  have hf : closedForm? body = some form := by decide
  obtain ⟨hsome, hform⟩ := closed_forms_are_exact body
  have hs : ∀ i ∈ body, i.opcode = .add ∨ i.opcode = .move := by decide
  have hc : CountsDown body := ⟨by decide, by decide⟩
  exact ⟨hsome.2 ⟨hs, .inl hc⟩, hc, (hform form).1.1 hf, hf, (hform form).2 hf⟩

end Brainfuck
