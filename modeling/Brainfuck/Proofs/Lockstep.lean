import Mathlib.Data.List.Forall2
import Brainfuck.Proofs.Reachability
import Brainfuck.Proofs.Repetition

/-! # Lockstep

A program runs on two machines that differ in their streams only. As long as the streams answer
alike the machines do the same, call by call. So the machines part, if at all, in the midst of an
instruction and at streams that are still related.
-/

namespace Brainfuck

/-- Until they part, related streams answer alike and stay related. After which bytes the program
flushes may differ. -/
structure Streams.Lockstep (flushEach flushEach' : Bool) (R : Streams → Streams → Prop)
    (Parts : Opcode → Streams → Streams → Prop) : Prop where
  read : ∀ s u : Streams, R s u →
    Parts .read s u ∨ u.read.1 = s.read.1 ∧ R s.read.2 u.read.2
  put : ∀ (s u : Streams) (b : UInt8), R s u →
    Parts .write s u ∨ (u.put flushEach' b).1 = (s.put flushEach b).1 ∧
      R (s.put flushEach b).2 (u.put flushEach' b).2

/-- The instruction, carried out in `s` and on the streams `u`, comes to streams that part. -/
def State.Parts (flushEach flushEach' : Bool) (R : Streams → Streams → Prop)
    (Parts : Opcode → Streams → Streams → Prop) (i : Instr) (s : State) (u : Streams) : Prop :=
  (i.opcode = .read ∨ i.opcode = .write) ∧ ∃ s₁ u₁, Partway flushEach i s s₁ ∧
    Partway flushEach' i { s with streams := u } { s₁ with streams := u₁ } ∧
      R s₁.streams u₁ ∧ Parts i.opcode s₁.streams u₁

def Program.Parts (p : Program) (flushEach flushEach' : Bool) (R : Streams → Streams → Prop)
    (Parts : Opcode → Streams → Streams → Prop) (m : Machine) (u : Streams) : Prop :=
  ∃ op mid u₁, p.Calls flushEach op m mid ∧
    p.Calls flushEach' op (m.withStreams u) (mid.withStreams u₁) ∧ R mid.streams u₁ ∧
      Parts op mid.streams u₁

def Run.withStreams (r : Run) (u : Streams) : Run :=
  { r with machine := r.machine.withStreams u }

namespace Streams.Lockstep

variable {flushEach flushEach' : Bool} {R : Streams → Streams → Prop}
  {Parts : Opcode → Streams → Streams → Prop} {s u : Streams}

theorem flip (h : Lockstep flushEach flushEach' R Parts) :
    Lockstep flushEach' flushEach (fun u s => R s u) fun op u s => Parts op s u where
  read u s hR := (h.read s u hR).imp_right fun ⟨hr, hR'⟩ => ⟨hr.symm, hR'⟩
  put u s b hR := (h.put s u b hR).imp_right fun ⟨hp, hR'⟩ => ⟨hp.symm, hR'⟩

theorem putMany (h : Lockstep flushEach flushEach' R Parts) (b : UInt8) (n : Nat) (hR : R s u) :
    (∃ k < n, ∃ s₁ u₁, s.putMany flushEach b k = (none, s₁) ∧
      u.putMany flushEach' b k = (none, u₁) ∧ R s₁ u₁ ∧ Parts .write s₁ u₁) ∨
    ∃ e? s₁ u₁, s.putMany flushEach b n = (e?, s₁) ∧ u.putMany flushEach' b n = (e?, u₁) ∧
      R s₁ u₁ := by
  induction n generalizing s u with
  | zero => exact .inr ⟨none, s, u, rfl, rfl, hR⟩
  | succ n ih =>
    rcases h.put s u b hR with hp | ⟨he, hR'⟩
    · exact .inl ⟨0, Nat.succ_pos n, s, u, rfl, rfl, hR, hp⟩
    · cases hs : s.put flushEach b with
      | mk e? s' =>
        cases hu : u.put flushEach' b with
        | mk e?' u' =>
          rw [hs, hu] at he hR'
          obtain rfl : e?' = e? := he
          cases e?' with
          | some e => exact .inr ⟨some e, s', u', by simp [Streams.putMany, hs],
              by simp [Streams.putMany, hu], hR'⟩
          | none =>
            rcases ih hR' with ⟨k, hk, s₁, u₁, hs₁, hu₁, hR₁, hp⟩ | ⟨e?, s₁, u₁, hs₁, hu₁, hR₁⟩
            · refine .inl ⟨k + 1, Nat.succ_lt_succ hk, s₁, u₁, ?_, ?_, hR₁, hp⟩
              · simpa [Streams.putMany, hs] using hs₁
              · simpa [Streams.putMany, hu] using hu₁
            · refine .inr ⟨e?, s₁, u₁, ?_, ?_, hR₁⟩
              · simpa [Streams.putMany, hs] using hs₁
              · simpa [Streams.putMany, hu] using hu₁

theorem readMany (h : Lockstep flushEach flushEach' R Parts) (n : Nat) (b : UInt8) (hR : R s u) :
    (∃ k < n, ∃ c s₁ u₁, s.readMany k b = (none, c, s₁) ∧ u.readMany k b = (none, c, u₁) ∧
      R s₁ u₁ ∧ Parts .read s₁ u₁) ∨
    ∃ e? c s₁ u₁, s.readMany n b = (e?, c, s₁) ∧ u.readMany n b = (e?, c, u₁) ∧ R s₁ u₁ := by
  induction n generalizing s u b with
  | zero => exact .inr ⟨none, b, s, u, rfl, rfl, hR⟩
  | succ n ih =>
    rcases h.read s u hR with hp | ⟨he, hR'⟩
    · exact .inl ⟨0, Nat.succ_pos n, b, s, u, rfl, rfl, hR, hp⟩
    · cases hs : s.read with
      | mk result s' =>
        cases hu : u.read with
        | mk result' u' =>
          rw [hs, hu] at he hR'
          obtain rfl : result' = result := he
          cases result' with
          | error e => exact .inr ⟨some e, b, s', u', by simp [Streams.readMany, hs],
              by simp [Streams.readMany, hu], hR'⟩
          | ok b' =>
            rcases ih b' hR' with
              ⟨k, hk, c, s₁, u₁, hs₁, hu₁, hR₁, hp⟩ | ⟨e?, c, s₁, u₁, hs₁, hu₁, hR₁⟩
            · refine .inl ⟨k + 1, Nat.succ_lt_succ hk, c, s₁, u₁, ?_, ?_, hR₁, hp⟩
              · simpa [Streams.readMany, hs] using hs₁
              · simpa [Streams.readMany, hu] using hu₁
            · refine .inr ⟨e?, c, s₁, u₁, ?_, ?_, hR₁⟩
              · simpa [Streams.readMany, hs] using hs₁
              · simpa [Streams.readMany, hu] using hu₁

/-- An instruction does the same on both sides, unless they part in it. -/
theorem exec (h : Lockstep flushEach flushEach' R Parts) (i : Instr) {s : State} {u : Streams}
    (hR : R s.streams u) :
    s.Parts flushEach flushEach' R Parts i u ∨
    ∃ u₁, State.exec flushEach' i { s with streams := u } =
        ⟨{ (s.exec flushEach i).state with streams := u₁ }, (s.exec flushEach i).error?⟩ ∧
      R (s.exec flushEach i).state.streams u₁ := by
  have hlt := repetitions_lt i.value
  by_cases hr : i.opcode = .read
  · rcases h.readMany (repetitions i.value) s.cell hR with
      ⟨k, hk, c, s₁, u₁, hs₁, hu₁, hR₁, hp⟩ | ⟨e?, c, s₁, u₁, hs₁, hu₁, hR₁⟩
    · have hi : (i.withValue (.ofNat k)).opcode = .read := hr
      have hkk : repetitions (.ofNat k) = k := repetitions_ofNat (by omega)
      refine .inl ⟨.inl hr, { s with tape := s.tape.poke s.dp c, streams := s₁ }, u₁, ⟨k, hk, ?_⟩,
        ⟨k, hk, ?_⟩, hR₁, hr ▸ hp⟩
      · rw [State.exec_read hi, Instr.withValue, hkk, hs₁]
        rfl
      · rw [State.exec_read hi, Instr.withValue, hkk]
        simp only [State.cell] at hu₁ ⊢
        rw [hu₁]
        rfl
    · refine .inr ⟨u₁, ?_⟩
      rw [State.exec_read hr flushEach, State.exec_read hr flushEach', hs₁]
      simp only [State.cell] at hu₁ ⊢
      rw [hu₁]
      exact ⟨rfl, hR₁⟩
  · by_cases hw : i.opcode = .write
    · rcases h.putMany s.cell (repetitions i.value) hR with
        ⟨k, hk, s₁, u₁, hs₁, hu₁, hR₁, hp⟩ | ⟨e?, s₁, u₁, hs₁, hu₁, hR₁⟩
      · have hi : (i.withValue (.ofNat k)).opcode = .write := hw
        have hkk : repetitions (.ofNat k) = k := repetitions_ofNat (by omega)
        refine .inl ⟨.inr hw, { s with streams := s₁ }, u₁, ⟨k, hk, ?_⟩, ⟨k, hk, ?_⟩, hR₁, hw ▸ hp⟩
        · rw [State.exec_write hi, Instr.withValue, hkk, hs₁]
          rfl
        · rw [State.exec_write hi, Instr.withValue, hkk]
          simp only [State.cell] at hu₁ ⊢
          rw [hu₁]
          rfl
      · refine .inr ⟨u₁, ?_⟩
        rw [State.exec_write hw flushEach, State.exec_write hw flushEach', hs₁]
        simp only [State.cell] at hu₁ ⊢
        rw [hu₁]
        exact ⟨rfl, hR₁⟩
    · refine .inr ⟨u, State.exec_withStreams hr hw flushEach flushEach' s u, ?_⟩
      rwa [State.streams_exec hr hw]

theorem step (h : Lockstep flushEach flushEach' R Parts) (i : Instr) {m : Machine} {u : Streams}
    (hR : R m.streams u) :
    m.toState.Parts flushEach flushEach' R Parts i u ∨
    ∃ u₁, (m.withStreams u).step flushEach' i =
        ⟨(m.step flushEach i).state.withStreams u₁, (m.step flushEach i).error?⟩ ∧
      R (m.step flushEach i).state.streams u₁ := by
  obtain ⟨s, ip⟩ := m
  rcases h.exec i hR with hp | ⟨u₁, hx, hR₁⟩
  · exact .inl hp
  · refine .inr ⟨u₁, ?_⟩
    cases he : s.exec flushEach i with
    | mk s' fault? =>
      rw [he] at hx hR₁
      cases fault? with
      | none =>
        simp only [Machine.withStreams, Machine.step, hx, he]
        exact ⟨rfl, hR₁⟩
      | some fault =>
        simp only [Machine.withStreams, Machine.step, hx, he]
        exact ⟨trivial, hR₁⟩

variable {p : Program} {m m₁ : Machine} {u₁ : Streams} {i : Instr} {r : Run} {bound n : Nat}

theorem parts_of_steps (hs : p.Steps flushEach m m₁)
    (hs' : p.Steps flushEach' (m.withStreams u) (m₁.withStreams u₁)) (hf : m₁.fetch? p = some i)
    (hp : m₁.toState.Parts flushEach flushEach' R Parts i u₁) :
    p.Parts flushEach flushEach' R Parts m u := by
  obtain ⟨hi, s₂, u₂, hx, hx', hR, hp⟩ := hp
  exact ⟨i.opcode, ⟨s₂, m₁.ip⟩, u₂, ⟨hi, m₁, i, hs, hf, rfl, hx, rfl⟩,
    ⟨hi, m₁.withStreams u₁, i, hs', hf, rfl, hx', rfl⟩, hR, hp⟩

/-- Completed instructions of one machine are completed by the other, unless they part. -/
theorem steps (h : Lockstep flushEach flushEach' R Parts) (hs : p.Steps flushEach m m₁)
    (hR : R m.streams u) :
    p.Parts flushEach flushEach' R Parts m u ∨
    ∃ u₁, p.Steps flushEach' (m.withStreams u) (m₁.withStreams u₁) ∧ R m₁.streams u₁ := by
  induction hs with
  | refl => exact .inr ⟨u, .refl, hR⟩
  | @tail m₁ m₂ hs hn ih =>
    rcases ih with hp | ⟨u₁, hs', hR₁⟩
    · exact .inl hp
    · obtain ⟨i, hf, hx⟩ := hn
      rcases h.step i hR₁ with hp | ⟨u₂, hx', hR₂⟩
      · exact .inl (parts_of_steps hs hs' hf hp)
      · rw [hx] at hx' hR₂
        exact .inr ⟨u₂, .tail hs' ⟨i, hf, hx'⟩, hR₂⟩

/-- An execution that ends on one machine ends alike on the other, unless they part. -/
theorem execute (h : Lockstep flushEach flushEach' R Parts)
    (hx : p.execute flushEach bound n m = some r) (hR : R m.streams u) :
    p.Parts flushEach flushEach' R Parts m u ∨
    ∃ u₁, p.execute flushEach' bound n (m.withStreams u) = some (r.withStreams u₁) ∧
      R r.machine.streams u₁ := by
  induction bound generalizing n m u with
  | zero => cases hx
  | succ bound ih =>
    unfold Program.execute at hx ⊢
    have hf' : (m.withStreams u).fetch? p = m.fetch? p := rfl
    rw [hf']
    split at hx
    · cases hx
      exact .inr ⟨u, rfl, hR⟩
    · rename_i i hf
      rcases h.step i hR with hp | ⟨u₁, hs', hR₁⟩
      · exact .inl (parts_of_steps .refl .refl hf hp)
      · split at hx
        · rename_i hs
          rw [hs] at hs' hR₁
          cases hx
          exact .inr ⟨u₁, by simp [hs']; rfl, hR₁⟩
        · rename_i m₁ hs
          rw [hs] at hs' hR₁
          rcases ih hx hR₁ with ⟨op, mid, u₂, hc, hc', hp⟩ | ⟨u₂, hx₂, hR₂⟩
          · exact .inl ⟨op, mid, u₂, hc.head ⟨i, hf, hs⟩, hc'.head ⟨i, hf, hs'⟩, hp⟩
          · exact .inr ⟨u₂, by simpa [hs'] using hx₂, hR₂⟩

/-- A run that ends on one machine ends alike on the other, unless they part. -/
theorem ends {R' : Streams → Streams → Prop} (h : Lockstep flushEach flushEach' R Parts)
    (hfl : ∀ s u, R s u → u.flush.1 = s.flush.1 ∧ R' s.flush.2 u.flush.2)
    (hr : p.Ends flushEach m r) (hR : R m.streams u) :
    p.Parts flushEach flushEach' R Parts m u ∨
    ∃ u₁, p.Ends flushEach' (m.withStreams u) (r.withStreams u₁) ∧
      R' r.machine.streams u₁ := by
  obtain ⟨bound, hb⟩ := hr
  obtain ⟨r₀, hx, rfl⟩ := Option.map_eq_some_iff.1 hb
  refine (h.execute hx hR).imp_right ?_
  rintro ⟨u₁, hx₁, hR₁⟩
  obtain ⟨he, hR₂⟩ := hfl _ _ hR₁
  refine ⟨u₁.flush.2, ⟨bound, Option.map_eq_some_iff.2 ⟨_, hx₁, ?_⟩⟩, hR₂⟩
  have he' : (r₀.error? <|> u₁.flush.1.map RunError.stream) =
      (r₀.error? <|> r₀.machine.streams.flush.1.map RunError.stream) := by rw [he]
  exact congrArg (Run.mk _ · _) he'

/-! ## Streams that never part -/

theorem not_parts : ¬ p.Parts flushEach flushEach' R (fun _ _ _ => False) m u := by
  rintro ⟨_, _, _, _, _, _, hp⟩
  exact hp

/-- Sessions on the two machines end alike, run by run. -/
theorem session {rs : List Run} (h : Lockstep flushEach flushEach' R fun _ _ _ => False)
    (hfl : ∀ s u, R s u → u.flush.1 = s.flush.1 ∧ R s.flush.2 u.flush.2)
    (hrs : p.Session flushEach m rs) (hR : R m.streams u) :
    ∃ rs', p.Session flushEach' (m.withStreams u) rs' ∧
      List.Forall₂ (fun r r' => ∃ u₁, r' = r.withStreams u₁ ∧ R r.machine.streams u₁) rs rs' := by
  induction rs generalizing m u with
  | nil => exact ⟨[], trivial, .nil⟩
  | cons r rs ih =>
    obtain ⟨hr, hrs⟩ := hrs
    obtain ⟨u₁, hr', hR₁⟩ := (h.ends hfl hr hR).resolve_left not_parts
    obtain ⟨rs', hrs', hall⟩ := ih hrs hR₁
    exact ⟨r.withStreams u₁ :: rs', ⟨hr', hrs'⟩, .cons ⟨u₁, rfl, hR₁⟩ hall⟩

/-- The same sessions are possible on the two machines, and their runs are related. -/
theorem sessions {Q : Run → Run → Prop} (h : Lockstep flushEach flushEach' R fun _ _ _ => False)
    (hfl : ∀ s u, R s u → u.flush.1 = s.flush.1 ∧ R s.flush.2 u.flush.2)
    (hQ : ∀ r u, R r.machine.streams u → Q r (r.withStreams u)) (hR : R m.streams u) :
    (∀ rs, p.Session flushEach m rs →
      ∃ rs', p.Session flushEach' (m.withStreams u) rs' ∧ List.Forall₂ Q rs rs') ∧
    ∀ rs', p.Session flushEach' (m.withStreams u) rs' →
      ∃ rs, p.Session flushEach m rs ∧ List.Forall₂ Q rs rs' := by
  constructor
  · intro rs hrs
    obtain ⟨rs', hrs', hall⟩ := h.session hfl hrs hR
    refine ⟨rs', hrs', hall.imp ?_⟩
    rintro r _ ⟨u, rfl, hu⟩
    exact hQ r u hu
  · intro rs' hrs'
    obtain ⟨rs, hrs, hall⟩ :=
      h.flip.session (fun u s h => ⟨(hfl s u h).1.symm, (hfl s u h).2⟩) hrs' hR
    refine ⟨rs, hrs, hall.flip.imp ?_⟩
    rintro _ r' ⟨s, rfl, hs⟩
    exact hQ (r'.withStreams s) r'.machine.streams hs

end Streams.Lockstep

end Brainfuck
