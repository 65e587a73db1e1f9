import Brainfuck.Proofs.Folding
import Brainfuck.Proofs.Passes
import Brainfuck.Proofs.Scans

/-! # Closed forms do what loops do

A loop with a closed form always ends. The closed form then leaves the same state, or it fails as
the loop does. Only the multiplications may fail elsewhere, since they do not check the cells in
the order in which the body lands on them.
-/

namespace Brainfuck

namespace Effect

variable {flushEach : Bool} {e : Effect} {s s' s₁ s₂ : State} {body : List Instr} {o : Int64}
  {start stop : Instr}

theorem isCountdown_iff : e.isCountdown ↔ e.shift = 0 ∧ e.deltas[(0 : Int64)]? = some (-1) := by
  simp [isCountdown]

theorem getD_zero_of_isCountdown (h : e.isCountdown) : e.deltas.getD 0 0 = -1 := by
  rw [Std.TreeMap.getD_eq_getD_getElem?, (isCountdown_iff.1 h).2]
  rfl

/-- Every cell gains its delta as often as the current cell counts. -/
structure Drains (e : Effect) (s s' : State) : Prop where
  dp : s'.dp = s.dp
  streams : s'.streams = s.streams
  tape : ∀ d : Cell,
    s'.tape.peek d = s.tape.peek d + s.cell * lowByte (e.deltas.getD (s.dp.offsetTo d) 0)

theorem Drains.unique (h₁ : e.Drains s s₁) (h₂ : e.Drains s s₂) : s₁ = s₂ := by
  apply State.ext_of_peek
  · rw [h₁.dp, h₂.dp]
  · rw [h₁.streams, h₂.streams]
  · intro d
    rw [h₁.tape, h₂.tape]

theorem Drains.refl (hc : s.cell = 0) : e.Drains s s where
  dp := rfl
  streams := rfl
  tape d := by simp [hc]

theorem Leads.dp_of_isCountdown (hl : e.Leads s.dp s.tape s₁) (h : e.isCountdown) :
    s₁.dp = s.dp := by
  have hw := hl.dp
  rw [(isCountdown_iff.1 h).1] at hw
  exact Cell.toWord_inj.1 (by simpa using hw)

theorem Leads.cell_of_isCountdown (hl : e.Leads s.dp s.tape s₁) (h : e.isCountdown) :
    s₁.cell = s.cell - 1 := by
  have ht := hl.tape s.dp
  rw [Cell.offsetTo_self, getD_zero_of_isCountdown h] at ht
  simp only [State.cell, hl.dp_of_isCountdown h, ht, lowByte_neg_one]
  exact (UInt8.sub_eq_add_neg ..).symm

theorem Drains.of_leads (hd : e.Drains s₁ s') (h : e.isCountdown) (hl : e.Leads s.dp s.tape s₁)
    (hs : s₁.streams = s.streams) : e.Drains s s' := by
  constructor
  · rw [hd.dp, hl.dp_of_isCountdown h]
  · rw [hd.streams, hs]
  · intro d
    rw [hd.tape, hl.tape, hl.cell_of_isCountdown h, hl.dp_of_isCountdown h]
    grind

open Forest

theorem exec_countdown (hb : ofBody? body = some e) (hc : e.isCountdown) (s : State)
    (hn : s.cell = 0 ∨ (landings 0 body).find? s.dp.isOff = none) :
    ∃ s', Exec flushEach (loop start (ofLeaves body) stop nil) s s' none ∧ e.Drains s s' := by
  -- The induction is on the content of the current cell, which every pass takes one from.
  induction hk : s.cell.toNat generalizing s with
  | zero =>
    have hz : s.cell = 0 := UInt8.toNat_inj.1 hk
    exact ⟨s, .exit hz .nil, .refl hz⟩
  | succ k ih =>
    have hz : s.cell ≠ 0 := by
      intro h
      simp [h] at hk
    obtain ⟨s₁, he, hl, hs⟩ := (Leads.refl s).exec flushEach hb (hn.resolve_left hz)
    have hk₁ : s₁.cell.toNat = k := by
      have h1 : (1 : UInt8).toNat = 1 := rfl
      have hlt := s.cell.toNat_lt
      rw [hl.cell_of_isCountdown hc, UInt8.toNat_sub, h1]
      omega
    rw [← hl.dp_of_isCountdown hc] at hn
    obtain ⟨s', he', hd⟩ := ih s₁ (.inr (hn.resolve_left hz)) hk₁
    exact ⟨s', .again hz he he', hd.of_leads hc hl hs⟩

theorem exec_multiplications (hc : e.isCountdown) (s : State)
    (hn : s.cell = 0 ∨ e.others.find? s.dp.isOff = none) :
    ∃ s', Exec flushEach (ofLeaves (e.multiplications ++ [.clear])) s s' none ∧ e.Drains s s' := by
  rw [multiplications_eq, ofLeaves_append]
  by_cases hz : s.cell = 0
  · have he := exec_multiply_of_zero flushEach hz e.others fun o => e.deltas.getD o 0
    refine ⟨_, he.append_of_none (.leaf (State.exec_clear flushEach s) .nil), rfl, rfl, fun d => ?_⟩
    rw [Tape.peek_poke]
    split
    · rename_i hd
      subst hd
      change 0 = s.cell + s.cell * _
      simp [hz]
    · simp [hz]
  · obtain ⟨s₁, he, hdp, hs, ht⟩ := exec_multiply flushEach hz e.nodup_others
      e.zero_notMem_others (hn.resolve_left hz) fun o => e.deltas.getD o 0
    refine ⟨_, he.append_of_none (.leaf (State.exec_clear flushEach s₁) .nil), hdp, hs, fun d => ?_⟩
    rw [Tape.peek_poke, hdp]
    split
    · rename_i hd
      subst hd
      rw [Cell.offsetTo_self, getD_zero_of_isCountdown hc, lowByte_neg_one]
      change 0 = s.cell + s.cell * -1
      grind
    · rename_i hd
      rw [ht d]
      split
      · rfl
      · rename_i hd'
        have hmem : s.dp.offsetTo d ∉ e.deltas := fun h =>
          hd' (mem_others.2 ⟨h, fun h0 => hd (Cell.offsetTo_eq_zero_iff.1 h0)⟩)
        simp [Std.TreeMap.getD_eq_fallback hmem]

theorem mem_others_iff (hb : ofBody? body = some e) (o : Int64) :
    o ∈ e.others ↔ o ∈ landings 0 body ∧ o ≠ 0 := by
  rw [mem_others, and_congr_left_iff]
  intro ho
  simpa using mem_foldlM_iff hb fun h => (ho h).elim

theorem ne_zero_of_isOff {c : Cell} (h : c.isOff o) : o ≠ 0 := by
  rintro rfl
  rw [Cell.isOff_eq_false_iff.2 ⟨c, by simp⟩] at h
  cases h

/-- A body lands off the tape if and only if a multiplication does. -/
theorem find?_others_eq_none_iff (hb : ofBody? body = some e) (c : Cell) :
    e.others.find? c.isOff = none ↔ (landings 0 body).find? c.isOff = none := by
  simp only [List.find?_eq_none, mem_others_iff hb]
  constructor
  · intro h o ho hoff
    exact h o ⟨ho, ne_zero_of_isOff hoff⟩ hoff
  · rintro h o ⟨ho, -⟩
    exact h o ho

end Effect

namespace Forest

variable {flushEach : Bool} {i start stop : Instr} {s : State}

theorem exec_loop_of_zero (hz : s.cell = 0) (body : Forest) :
    Exec flushEach (loop start body stop nil) s { s with tape := s.tape.poke s.dp 0 } none := by
  have hs : s.tape.poke s.dp 0 = s.tape := by
    rw [← hz]
    exact Tape.poke_peek ..
  rw [hs]
  exact .exit hz .nil

theorem exec_loop_of_add_mul (hi : i.opcode = .add) (k : Nat) (s : State)
    (hk : s.cell + .ofNat k * lowByte i.value = 0) :
    Exec flushEach (loop start (leaf i nil) stop nil) s
      { s with tape := s.tape.poke s.dp 0 } none := by
  induction k generalizing s with
  | zero => exact exec_loop_of_zero (by simpa using hk) _
  | succ k ih =>
    by_cases hz : s.cell = 0
    · exact exec_loop_of_zero hz _
    · have hk' : s.cell + lowByte i.value + .ofNat k * lowByte i.value = 0 := by
        have h1 : UInt8.ofNat (k + 1) = .ofNat k + 1 := UInt8.ofNat_add k 1
        rw [h1] at hk
        grind
      have hc := s.cell_poke s.dp (s.cell + lowByte i.value)
      rw [if_pos rfl] at hc
      have h := ih { s with tape := s.tape.poke s.dp (s.cell + lowByte i.value) } (by rwa [hc])
      rw [Tape.poke_poke] at h
      exact .again hz (.leaf (State.exec_add hi flushEach s) .nil) h

/-- A loop with an odd step clears its cell. -/
theorem exec_odd_loop (hi : i.opcode = .add) (hv : i.value % 2 ≠ 0) (s : State) :
    Exec flushEach (loop start (leaf i nil) stop nil) s
      { s with tape := s.tape.poke s.dp 0 } none := by
  obtain ⟨k, hk⟩ := exists_add_mul_eq_zero (odd_lowByte hv) s.cell
  exact exec_loop_of_add_mul hi k s hk

/-- A loop with one move is a scan. -/
theorem exec_move_loop (hi : i.opcode = .move) {n : Nat} {out : Outcome State Fault}
    (h : State.Scan i.value n s out) :
    Exec flushEach (loop start (leaf i nil) stop nil) s out.state (out.error?.map (i, ·)) := by
  induction h with
  | stop hz => exact .exit hz .nil
  | move hz hc _ ih => exact .again hz (.leaf (State.exec_move_of_some hi flushEach hc) .nil) ih
  | leave hz hc => exact .fail hz (.fault (State.exec_move_of_none hi flushEach hc))

/-! ## Failures before and after folding -/

def HoldsLoop (is body : List Instr) : Prop :=
  ∃ start stop, start.bracket? = some .opening ∧ stop.bracket? = some .closing ∧
    start :: (body ++ [stop]) <:+: is

/-- How a failure comes back after folding. It is the same fault, possibly of a scan instead of a
move; or else the body of a countdown first left the tape at `o`, but `o'` is multiplied first. -/
inductive Counterpart (is : List Instr) : State → Failure → State → Failure → Prop where

  | same {i i' : Instr} {s : State} {e : Fault} :
      i' = i ∧ i ∈ is ∨ i'.opcode ≠ .multiply → Counterpart is s (i, e) s (i', e)

  | countdown {body : List Instr} {e : Effect} {i i' : Instr} {s s' : State} {o o' : Int64} :
      HoldsLoop is body → Effect.ofBody? body = some e → e.isCountdown →
      i ∈ body → i'.opcode = .multiply → s.streams = s'.streams →
      (landings 0 body).find? s'.dp.isOff = some o → e.others.find? s'.dp.isOff = some o' →
      Counterpart is s (i, .outOfRange (s'.dp.toWord + o)) s'
        (i', .outOfRange (s'.dp.toWord + o'))

variable {is body form : List Instr} {e : Effect} {ts : Forest}

theorem exec_singleton {s' : State} {e? : Option Fault} (h : s.exec flushEach i = ⟨s', e?⟩) :
    Exec flushEach (ofLeaves [i]) s s' (e?.map (i, ·)) := by
  cases e? with
  | none => exact .leaf h .nil
  | some e => exact .fault h

theorem agree_same {i' : Instr} (hi : i'.opcode ≠ .multiply) (s : State) (e? : Option Fault) :
    Agree (Counterpart is) s (e?.map (i, ·)) s (e?.map (i', ·)) := by
  cases e? with
  | none => exact .done s
  | some e => exact .failed (.same (.inr hi))

theorem exists_agree_of_isCountdown (hp : HoldsLoop is body) (hb : Effect.ofBody? body = some e)
    (hc : e.isCountdown) (s : State) : ∃ s₁ e₁ s₂ e₂,
      Exec flushEach (loop start (ofLeaves body) stop nil) s s₁ e₁ ∧
        Exec flushEach (ofLeaves (e.multiplications ++ [.clear])) s s₂ e₂ ∧
          Agree (Counterpart is) s₁ e₁ s₂ e₂ := by
  by_cases hn : s.cell = 0 ∨ (landings 0 body).find? s.dp.isOff = none
  · obtain ⟨s₁, h₁, hd₁⟩ := Effect.exec_countdown hb hc s hn
    rw [← Effect.find?_others_eq_none_iff hb] at hn
    obtain ⟨s₂, h₂, hd₂⟩ := Effect.exec_multiplications hc s hn
    obtain rfl := hd₁.unique hd₂
    exact ⟨s₁, none, s₁, none, h₁, h₂, .done s₁⟩
  · rw [not_or] at hn
    obtain ⟨hz, hf⟩ := hn
    obtain ⟨o, ho⟩ := Option.ne_none_iff_exists'.1 hf
    rw [← Effect.find?_others_eq_none_iff hb] at hf
    obtain ⟨o', ho'⟩ := Option.ne_none_iff_exists'.1 hf
    obtain ⟨s₁, i, hi, h₁, hs₁⟩ := (Effect.Leads.refl s).exec_fault flushEach hb ho
    obtain ⟨s₂, h₂, hdp, hs₂⟩ := exec_multiply_fault flushEach hz e.zero_notMem_others ho'
      fun o => e.deltas.getD o 0
    rw [← Effect.multiplications_eq] at h₂
    rw [← hdp] at ho ho' h₁ h₂
    have h₃ : Exec flushEach (ofLeaves _ ++ ofLeaves [.clear]) s s₂ _ := h₂.append_of_some
    rw [← ofLeaves_append] at h₃
    exact ⟨s₁, _, s₂, _, .fail hz h₁, h₃,
      .failed (.countdown hp hb hc hi rfl (hs₁.trans hs₂.symm) ho ho')⟩

theorem exists_agree_of_closedForm? (hp : HoldsLoop is body)
    (h : Brainfuck.closedForm? body = some form) (s : State) : ∃ s₁ e₁ s₂ e₂,
      Exec flushEach (loop start (ofLeaves body) stop nil) s s₁ e₁ ∧
        Exec flushEach (ofLeaves form) s s₂ e₂ ∧ Agree (Counterpart is) s₁ e₁ s₂ e₂ := by
  rcases closedForm?_cases h with ⟨e, hb, hc, rfl⟩ | ⟨i, j, rfl, hj, rfl⟩
  · exact exists_agree_of_isCountdown hp hb hc s
  · rcases Instr.closedForm?_cases hj with ⟨hi, hv, rfl⟩ | ⟨hi, hv, rfl⟩ | ⟨hi, hv, rfl⟩
    · exact ⟨_, none, _, none, exec_odd_loop hi hv s, .leaf (State.exec_clear ..) .nil, .done _⟩
    · obtain ⟨n, -, hs⟩ := State.exists_scan_left (i := { opcode := .scanLeft }) rfl flushEach s
      exact ⟨_, _, _, _, exec_move_loop hi (hv ▸ hs), exec_singleton rfl,
        agree_same (by decide) _ _⟩
    · obtain ⟨n, -, hs⟩ := State.exists_scan_right (i := { opcode := .scanRight }) rfl flushEach s
      exact ⟨_, _, _, _, exec_move_loop hi (hv ▸ hs), exec_singleton rfl,
        agree_same (by decide) _ _⟩

/-! ## Folding preserves execution -/

theorem refines_fold (flushEach : Bool) (hm : ts.IsMatched) (hi : ts.flatten <:+: is) :
    Refines flushEach (Counterpart is) ts ts.fold ∧
      Refines flushEach (fun s' e' s e => Counterpart is s e s' e') ts.fold ts := by
  induction ts with
  | nil => exact ⟨.nil, .nil⟩
  | leaf i rest ih =>
    have hrest : rest.flatten <:+: is := (List.suffix_cons i _).isInfix.trans hi
    obtain ⟨h₁, h₂⟩ := ih hm.2 hrest
    have hmem : i ∈ is := hi.subset List.mem_cons_self
    refine ⟨h₁.leaf ?_, h₂.leaf ?_⟩
    · exact fun s e => .same (.inl ⟨rfl, hmem⟩)
    · exact fun s e => .same (.inl ⟨rfl, hmem⟩)
  | loop start body stop rest ihb ihr =>
    obtain ⟨hs, he, _, hbm, hrm⟩ := hm
    have hbody : body.flatten <:+: is := by
      refine List.IsInfix.trans ⟨[start], stop :: rest.flatten, ?_⟩ hi
      simp [flatten]
    have hrest : rest.flatten <:+: is := by
      refine List.IsInfix.trans ⟨start :: (body.flatten ++ [stop]), [], ?_⟩ hi
      simp [flatten]
    obtain ⟨h₁, h₂⟩ := ihr hrm hrest
    unfold fold
    split
    · rename_i form hf
      obtain ⟨ls, hl, hform⟩ := Option.bind_eq_some_iff.1 hf
      obtain rfl := eq_ofLeaves_of_leaves? hl
      have hp : HoldsLoop is ls := by
        refine ⟨start, stop, hs, he, List.IsInfix.trans ⟨[], rest.flatten, ?_⟩ hi⟩
        simp [flatten]
      obtain ⟨h₃, h₄⟩ := refines_of_exists_agree (exists_agree_of_closedForm? hp hform)
      exact ⟨h₃.append h₁, h₄.append h₂⟩
    · obtain ⟨h₃, h₄⟩ := ihb hbm hbody
      exact ⟨h₃.loop h₁, h₄.loop h₂⟩

end Forest

end Brainfuck
