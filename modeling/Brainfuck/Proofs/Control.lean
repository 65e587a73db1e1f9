import Mathlib.Algebra.Group.Nat.Defs
import Brainfuck.Proofs.Execution
import Brainfuck.Proofs.Halting
import Brainfuck.Proofs.Linking

/-! # Jumps follow the structure

A linked program is executed like its forest. Both brackets of a loop have the same effect:
they lead into the body or behind the loop, as the current cell says.
-/

namespace Brainfuck

namespace Program

def HasAt (p : Program) (n : Nat) (is : List Instr) : Prop :=
  is <+: p.toList.drop n

variable {p : Program} {n : Nat} {i : Instr} {is js : List Instr}

theorem HasAt.head (h : p.HasAt n (i :: is)) : p[n]? = some i := by
  obtain ⟨t, ht⟩ := h
  have hn : (p.toList.drop n)[0]? = some i := by simp [← ht]
  simpa using hn

theorem HasAt.left (h : p.HasAt n (is ++ js)) : p.HasAt n is :=
  (List.prefix_append _ _).trans h

theorem HasAt.right (h : p.HasAt n (is ++ js)) : p.HasAt (n + is.length) js := by
  obtain ⟨t, ht⟩ := h
  refine ⟨t, ?_⟩
  rw [← List.drop_drop, ← ht, List.append_assoc, List.drop_left]

theorem HasAt.tail (h : p.HasAt n (i :: is)) : p.HasAt (n + 1) is := by
  rw [← List.singleton_append] at h
  exact h.right

theorem fetch?_ofNat (s : State) (hn : n < 2 ^ 64) :
    Machine.fetch? p ⟨s, .ofNat n⟩ = p[n]? := by
  rw [Machine.fetch?, UInt64.toNat_ofNat_of_lt' hn]

end Program

theorem Instr.bracket?_eq_opening_iff {i : Instr} :
    i.bracket? = some .opening ↔ i.opcode = .jumpIfZero := by
  unfold Instr.bracket? Opcode.bracket?
  split <;> simp_all

theorem Instr.bracket?_eq_closing_iff {i : Instr} :
    i.bracket? = some .closing ↔ i.opcode = .jumpUnlessZero := by
  unfold Instr.bracket? Opcode.bracket?
  split <;> simp_all

/-- The instruction is a jump, and it is taken if the current cell holds `cell`. -/
def Instr.Jumps (i : Instr) (cell : UInt8) : Prop :=
  i.opcode = .jumpIfZero ∧ cell = 0 ∨ i.opcode = .jumpUnlessZero ∧ cell ≠ 0

theorem Instr.not_jumps_of_bracket?_eq_none {i : Instr} (h : i.bracket? = none) (cell : UInt8) :
    ¬ i.Jumps cell := by
  rintro (⟨hi, -⟩ | ⟨hi, -⟩)
  · cases h.symm.trans (bracket?_eq_opening_iff.2 hi)
  · cases h.symm.trans (bracket?_eq_closing_iff.2 hi)

theorem Instr.follows_of_not_jumps {i : Instr} {cell : UInt8} (h : ¬ i.Jumps cell) (ip : UInt64) :
    i.follows cell ip = ip := by
  unfold follows
  split
  · rename_i hi
    exact if_neg fun hc => h (.inl ⟨hi, hc⟩)
  · rename_i hi
    exact if_neg fun hc => h (.inr ⟨hi, hc⟩)
  · rfl

namespace Machine

variable {flushEach : Bool} {i : Instr} {s s' : State}

theorem step_start (hi : i.bracket? = some .opening) (s : State) (n k : Nat) :
    Machine.step flushEach (i.withValue (.ofNat k)) ⟨s, .ofNat n⟩ =
      ⟨⟨s, .ofNat (if s.cell = 0 then k + 1 else n + 1)⟩, none⟩ := by
  rw [Instr.bracket?_eq_opening_iff] at hi
  by_cases hc : s.cell = 0 <;> simp [step, Instr.withValue, Instr.follows, State.exec, hi, hc]

theorem step_stop (hi : i.bracket? = some .closing) (s : State) (n k : Nat) :
    Machine.step flushEach (i.withValue (.ofNat n)) ⟨s, .ofNat k⟩ =
      ⟨⟨s, .ofNat (if s.cell = 0 then k + 1 else n + 1)⟩, none⟩ := by
  rw [Instr.bracket?_eq_closing_iff] at hi
  by_cases hc : s.cell = 0 <;> simp [step, Instr.withValue, Instr.follows, State.exec, hi, hc]

theorem step_of_exec (hj : ¬ i.Jumps s.cell) (h : s.exec flushEach i = ⟨s', none⟩) (ip : UInt64) :
    Machine.step flushEach i ⟨s, ip⟩ = ⟨⟨s', ip + 1⟩, none⟩ := by
  simp only [step, h, Instr.follows_of_not_jumps hj]

theorem step_leaf (hi : i.bracket? = none) (h : s.exec flushEach i = ⟨s', none⟩) (n : Nat) :
    Machine.step flushEach i ⟨s, .ofNat n⟩ = ⟨⟨s', .ofNat (n + 1)⟩, none⟩ := by
  rw [step_of_exec (Instr.not_jumps_of_bracket?_eq_none hi _) h, UInt64.ofNat_add]
  rfl

theorem step_fault {e : Fault} (h : s.exec flushEach i = ⟨s', some e⟩) (ip : UInt64) :
    Machine.step flushEach i ⟨s, ip⟩ = ⟨⟨s', ip⟩, some (.ofFault ip e)⟩ := by
  simp only [step, h]

end Machine

namespace Forest

variable {p : Program} {flushEach : Bool} {ts us : Forest} {start stop i : Instr} {n : Nat}
  {s s' : State} {m : Machine} {e? : Option RunError}

/-- The linked code of a forest from index `n` on, in which every bracket belongs to a loop. -/
structure CodeAt (p : Program) (n : Nat) (ts : Forest) : Prop where
  code : p.HasAt n (ts.link n).flatten
  lt : n + ts.size < 2 ^ 64
  matched : ts.IsMatched
  unmatched : ts.unmatched = []

namespace CodeAt

theorem leaf (h : CodeAt p n (leaf i us)) :
    p[n]? = some i ∧ i.bracket? = none ∧ CodeAt p (n + 1) us := by
  obtain ⟨hc, hl, hm, hu⟩ := h
  obtain ⟨hi, hr⟩ : i.bracket? = none ∧ us.unmatched = [] := by
    simpa [Forest.unmatched] using hu
  refine ⟨hc.head, hi, hc.tail, ?_, hm.2, hr⟩
  rw [size_leaf] at hl
  omega

theorem body (h : CodeAt p n (loop start ts stop us)) : CodeAt p (n + 1) ts := by
  obtain ⟨hc, hl, ⟨_, _, hu, hm, _⟩, _⟩ := h
  refine ⟨hc.tail.left, ?_, hm, hu⟩
  rw [size_loop] at hl
  omega

theorem rest (h : CodeAt p n (loop start ts stop us)) :
    CodeAt p (n + ts.size + 2) us := by
  obtain ⟨hc, hl, ⟨_, _, _, _, hm⟩, hu⟩ := h
  have hc := hc.tail.right.tail
  rw [length_flatten, size_link, show n + 1 + ts.size + 1 = n + ts.size + 2 by omega] at hc
  refine ⟨hc, ?_, hm, hu⟩
  rw [size_loop] at hl
  omega

theorem at_start (h : CodeAt p n (loop start ts stop us)) :
    start.bracket? = some .opening ∧ p[n]? = some (start.withValue (.ofNat (n + ts.size + 1))) :=
  ⟨h.matched.1, h.code.head⟩

theorem at_stop (h : CodeAt p n (loop start ts stop us)) :
    stop.bracket? = some .closing ∧ p[n + ts.size + 1]? = some (stop.withValue (.ofNat n)) := by
  have hc := h.code.tail.right
  rw [length_flatten, size_link, show n + 1 + ts.size = n + ts.size + 1 by omega] at hc
  exact ⟨h.matched.2.1, hc.head⟩

theorem step_start (h : CodeAt p n (loop start ts stop us)) (flushEach : Bool) (s : State) :
    ∃ i, Machine.fetch? p ⟨s, .ofNat n⟩ = some i ∧ Machine.step flushEach i ⟨s, .ofNat n⟩ =
      ⟨⟨s, .ofNat (if s.cell = 0 then n + ts.size + 2 else n + 1)⟩, none⟩ := by
  obtain ⟨hs, hp⟩ := h.at_start
  have hl := h.lt
  refine ⟨_, ?_, Machine.step_start hs s n (n + ts.size + 1)⟩
  rw [Program.fetch?_ofNat s (by omega), hp]

theorem step_stop (h : CodeAt p n (loop start ts stop us)) (flushEach : Bool) (s : State) :
    ∃ i, Machine.fetch? p ⟨s, .ofNat (n + ts.size + 1)⟩ = some i ∧
      Machine.step flushEach i ⟨s, .ofNat (n + ts.size + 1)⟩ =
        ⟨⟨s, .ofNat (if s.cell = 0 then n + ts.size + 2 else n + 1)⟩, none⟩ := by
  obtain ⟨he, hp⟩ := h.at_stop
  have hl := h.lt
  rw [size_loop] at hl
  refine ⟨_, ?_, Machine.step_stop he s n (n + ts.size + 1)⟩
  rw [Program.fetch?_ofNat s (by omega), hp]

/-- To arrive at the end of a loop is to arrive at its start. -/
theorem execute_stop (h : CodeAt p n (loop start ts stop us)) (s : State) (bound k : Nat) :
    p.execute flushEach bound k ⟨s, .ofNat (n + ts.size + 1)⟩ =
      p.execute flushEach bound k ⟨s, .ofNat n⟩ := by
  obtain ⟨i, hf, hs⟩ := h.step_start flushEach s
  obtain ⟨j, hf', hs'⟩ := h.step_stop flushEach s
  cases bound with
  | zero => rfl
  | succ bound => rw [Program.execute_succ hf hs, Program.execute_succ hf' hs']

theorem halts_stop_iff (h : CodeAt p n (loop start ts stop us)) :
    p.Halts flushEach ⟨s, .ofNat (n + ts.size + 1)⟩ m e? ↔
      p.Halts flushEach ⟨s, .ofNat n⟩ m e? := by
  simp only [Program.Halts, h.execute_stop]

theorem halts_exit_iff (h : CodeAt p n (loop start ts stop us)) (hz : s.cell = 0) :
    p.Halts flushEach ⟨s, .ofNat n⟩ m e? ↔
      p.Halts flushEach ⟨s, .ofNat (n + ts.size + 2)⟩ m e? := by
  obtain ⟨i, hf, hs⟩ := h.step_start flushEach s
  rw [if_pos hz] at hs
  exact Program.halts_step_iff hf hs

theorem halts_enter_iff (h : CodeAt p n (loop start ts stop us)) (hz : s.cell ≠ 0) :
    p.Halts flushEach ⟨s, .ofNat n⟩ m e? ↔ p.Halts flushEach ⟨s, .ofNat (n + 1)⟩ m e? := by
  obtain ⟨i, hf, hs⟩ := h.step_start flushEach s
  rw [if_neg hz] at hs
  exact Program.halts_step_iff hf hs

end CodeAt

theorem Exec.halts_iff (h : Exec flushEach ts s s' none) (hc : CodeAt p n ts) :
    p.Halts flushEach ⟨s, .ofNat n⟩ m e? ↔ p.Halts flushEach ⟨s', .ofNat (n + ts.size)⟩ m e? := by
  generalize hx : (none : Option Failure) = x at h
  induction h generalizing n with
  | nil => rfl
  | @leaf i rest s s₁ s' x hi _ ih =>
    obtain ⟨hf, hb, hc⟩ := hc.leaf
    have hl := hc.lt
    rw [← Program.fetch?_ofNat s (by omega)] at hf
    rw [Program.halts_step_iff hf (Machine.step_leaf hb hi n), ih hc hx, size_leaf,
      Nat.add_right_comm, Nat.add_assoc]
  | fault => cases hx
  | @exit start stop body rest s s' x hz _ ih =>
    rw [hc.halts_exit_iff hz, ih hc.rest hx, size_loop,
      show n + body.size + 2 + rest.size = n + (body.size + rest.size + 2) by omega]
  | @again start stop body rest s s₁ s' x hz _ _ ihb ih =>
    rw [hc.halts_enter_iff hz, ihb hc.body rfl, Nat.add_right_comm, hc.halts_stop_iff, ih hc hx]
  | fail => cases hx

theorem Exec.halts_of_some {e : Fault} (h : Exec flushEach ts s s' (some (i, e)))
    (hc : CodeAt p n ts) :
    ∃ k, p[k]? = some i ∧ k < n + ts.size ∧
      p.Halts flushEach ⟨s, .ofNat n⟩ ⟨s', .ofNat k⟩ (some (.ofFault (.ofNat k) e)) := by
  generalize hx : some (i, e) = x at h
  induction h generalizing n with
  | nil => cases hx
  | @leaf i rest s s₁ s' x hi _ ih =>
    obtain ⟨hf, hb, hc⟩ := hc.leaf
    have hl := hc.lt
    obtain ⟨k, hk, hlt, hh⟩ := ih hc hx
    rw [← Program.fetch?_ofNat s (by omega)] at hf
    refine ⟨k, hk, by rw [size_leaf]; omega, ?_⟩
    exact (Program.halts_step_iff hf (Machine.step_leaf hb hi n)).2 hh
  | @fault i rest s s' e hi =>
    cases hx
    obtain ⟨hf, _, hc⟩ := hc.leaf
    have hl := hc.lt
    refine ⟨n, hf, by rw [size_leaf]; omega, ?_⟩
    rw [← Program.fetch?_ofNat s (by omega)] at hf
    exact Program.halts_of_error hf (Machine.step_fault hi _)
  | exit hz _ ih =>
    obtain ⟨k, hk, hlt, hh⟩ := ih hc.rest hx
    exact ⟨k, hk, by rw [size_loop]; omega, (hc.halts_exit_iff hz).2 hh⟩
  | again hz hb _ _ ih =>
    obtain ⟨k, hk, hlt, hh⟩ := ih hc hx
    refine ⟨k, hk, hlt, ?_⟩
    rw [hc.halts_enter_iff hz, hb.halts_iff hc.body, Nat.add_right_comm, hc.halts_stop_iff]
    exact hh
  | fail hz _ ih =>
    obtain ⟨k, hk, hlt, hh⟩ := ih hc.body hx
    exact ⟨k, hk, by rw [size_loop]; omega, (hc.halts_enter_iff hz).2 hh⟩

/-- Execution that ends does so in or behind a forest that it enters, and in the second case
needs no larger bound from there. -/
theorem exists_exec_of_execute {bound k : Nat} {r : Run}
    (h : p.execute flushEach bound k ⟨s, .ofNat n⟩ = some r) (hc : CodeAt p n ts) :
    ∃ s' x, Exec flushEach ts s s' x ∧ (x = none →
      ∃ bound' k', bound' ≤ bound ∧
        p.execute flushEach bound' k' ⟨s', .ofNat (n + ts.size)⟩ = some r) := by
  induction bound using Nat.strongRecOn generalizing ts s n k with
  | ind bound ih =>
    cases ts with
    | nil => exact ⟨s, none, .nil, fun _ => ⟨bound, k, Nat.le_refl _, h⟩⟩
    | leaf i rest =>
      obtain ⟨hf, hb, hr⟩ := hc.leaf
      have hl := hr.lt
      rw [← Program.fetch?_ofNat s (by omega)] at hf
      cases bound with
      | zero => cases h
      | succ bound =>
        cases hx : s.exec flushEach i with
        | mk s₁ x =>
          cases x with
          | some e => exact ⟨s₁, some (i, e), .fault hx, nofun⟩
          | none =>
            rw [Program.execute_succ hf (Machine.step_leaf hb hx n)] at h
            obtain ⟨s', x, he, hn⟩ := ih bound (by omega) h hr
            refine ⟨s', x, .leaf hx he, fun hx => ?_⟩
            obtain ⟨bound', k', hle, hr'⟩ := hn hx
            rw [Nat.add_assoc, Nat.add_comm 1] at hr'
            exact ⟨bound', k', by omega, hr'⟩
    | loop start body stop rest =>
      obtain ⟨i, hf, hs⟩ := hc.step_start flushEach s
      cases bound with
      | zero => cases h
      | succ bound =>
        rw [Program.execute_succ hf hs] at h
        by_cases hz : s.cell = 0
        · rw [if_pos hz] at h
          obtain ⟨s', x, he, hn⟩ := ih bound (by omega) h hc.rest
          refine ⟨s', x, .exit hz he, fun hx => ?_⟩
          obtain ⟨bound', k', hle, hr'⟩ := hn hx
          rw [size_loop, show n + (body.size + rest.size + 2) = n + body.size + 2 + rest.size by
            omega]
          exact ⟨bound', k', by omega, hr'⟩
        · rw [if_neg hz] at h
          obtain ⟨s₁, x, he, hn⟩ := ih bound (by omega) h hc.body
          cases x with
          | some e => exact ⟨s₁, some e, .fail hz he, nofun⟩
          | none =>
            obtain ⟨bound₁, k₁, hle, h₁⟩ := hn rfl
            rw [Nat.add_right_comm, hc.execute_stop] at h₁
            obtain ⟨s', x, he', hn'⟩ := ih bound₁ (by omega) h₁ hc
            refine ⟨s', x, .again hz he he', fun hx => ?_⟩
            obtain ⟨bound', k', hle', hr'⟩ := hn' hx
            exact ⟨bound', k', by omega, hr'⟩

end Forest

/-- A run that ended where an execution of the program's forest did. A failed instruction is the
one that the run stopped at. -/
def Run.EndsWith (r : Run) (p : Program) (s : State) (x : Option Failure) : Prop :=
  ∃ ip n, r = .finish ⟨⟨s, ip⟩, x.map fun e => .ofFault ip e.2, n⟩ ∧
    ∀ e ∈ x, p[ip.toNat]? = some e.1

namespace Program

open Forest

variable {p : Program} {flushEach : Bool} {s s' : State} {x : Option Failure} {r : Run}

theorem codeAt_forest (hb : p.IsBalanced) (hl : p.size < 2 ^ 64) :
    CodeAt p.linkJumps 0 p.forest where
  code := by
    rw [HasAt, linkJumps_eq]
    exact List.prefix_rfl
  lt := by
    have hs := p.size_forest
    omega
  matched := p.isMatched_forest
  unmatched := isBalanced_iff.1 hb

theorem exists_ends_of_exec (hb : p.IsBalanced) (hl : p.size < 2 ^ 64)
    (h : Exec flushEach p.forest s s' x) :
    ∃ r, p.linkJumps.Ends flushEach ⟨s, 0⟩ r ∧ r.EndsWith p.linkJumps s' x := by
  have hc := codeAt_forest hb hl
  have hlt := hc.lt
  cases x with
  | none =>
    have hf : Machine.fetch? p.linkJumps ⟨s', .ofNat (0 + p.forest.size)⟩ = none := by
      rw [fetch?_ofNat s' hlt, Array.getElem?_eq_none_iff, size_linkJumps, ← size_forest]
      omega
    obtain ⟨n, hr⟩ := ((h.halts_iff hc).2 (halts_of_fetch?_eq_none hf)).ends
    exact ⟨_, hr, _, n, rfl, nofun⟩
  | some e =>
    obtain ⟨k, hk, hlt', hh⟩ := h.halts_of_some hc
    obtain ⟨n, hr⟩ := hh.ends
    have hk64 : k < 2 ^ 64 := by omega
    refine ⟨_, hr, _, n, rfl, ?_⟩
    rintro e' ⟨⟩
    rwa [UInt64.toNat_ofNat_of_lt' hk64]

theorem exists_exec_of_ends (hb : p.IsBalanced) (hl : p.size < 2 ^ 64)
    (h : p.linkJumps.Ends flushEach ⟨s, 0⟩ r) :
    ∃ s' x, Exec flushEach p.forest s s' x ∧ r.EndsWith p.linkJumps s' x := by
  obtain ⟨m, e?, n, ⟨bound, k, hk⟩, rfl⟩ := h.halts
  obtain ⟨s', x, he, -⟩ := exists_exec_of_execute hk (codeAt_forest hb hl)
  obtain ⟨r, hr, hw⟩ := exists_ends_of_exec hb hl he
  exact ⟨s', x, he, h.unique hr ▸ hw⟩

end Program

end Brainfuck
