import Brainfuck.Loop.ClosedForm
import Brainfuck.Proofs.Execution
import Brainfuck.Proofs.Instructions
import Brainfuck.Proofs.Words

/-! # Passes through straight bodies

One pass through a straight body either leaves the tape at the first offset it lands on that is
no cell, or it has the effect that was computed for the body.
-/

namespace Brainfuck

namespace Cell

def offsetTo (c d : Cell) : Int64 :=
  d.toWord - c.toWord

def isOff (c : Cell) (o : Int64) : Bool :=
  (ofWord? (c.toWord + o)).isNone

variable {c d d' : Cell} {o : Int64}

theorem toWord_add_eq_iff : c.toWord + o = d.toWord ↔ o = c.offsetTo d := by
  unfold offsetTo
  constructor <;> intro h <;> grind

theorem offsetTo_inj : c.offsetTo d = c.offsetTo d' ↔ d = d' := by
  rw [← toWord_add_eq_iff, offsetTo, ← toWord_inj]
  constructor <;> intro h <;> grind

theorem offsetTo_eq_zero_iff : c.offsetTo d = 0 ↔ d = c := by
  rw [eq_comm, ← toWord_add_eq_iff, Int64.add_zero, toWord_inj, eq_comm]

@[simp] theorem offsetTo_self (c : Cell) : c.offsetTo c = 0 :=
  offsetTo_eq_zero_iff.2 rfl

theorem ofWord?_add_eq_some_iff : ofWord? (c.toWord + o) = some d ↔ o = c.offsetTo d := by
  rw [ofWord?_eq_some_iff, toWord_add_eq_iff]

theorem isOff_eq_false_iff : c.isOff o = false ↔ ∃ d, o = c.offsetTo d := by
  simp only [isOff, Option.isNone_eq_false_iff, Option.isSome_iff_exists,
    ofWord?_add_eq_some_iff]

theorem ofWord?_of_isOff (h : c.isOff o = true) : ofWord? (c.toWord + o) = none := by
  simpa [isOff] using h

end Cell

/-- The offsets that a body lands on, in order, if it begins at offset `o`. -/
def landings : Int64 → List Instr → List Int64
  | _, [] => []
  | o, i :: is =>
    if i.opcode = .move then (o + i.value) :: landings (o + i.value) is else landings o is

namespace Effect

variable {flushEach : Bool} {e e' : Effect} {c : Cell} {t : Tape} {s : State} {i : Instr}
  {body : List Instr} {o : Int64}

@[simp] theorem shift_bump (e : Effect) (d : Int64) : (e.bump d).shift = e.shift := rfl

theorem mem_bump {d : Int64} : o ∈ (e.bump d).deltas ↔ o = e.shift ∨ o ∈ e.deltas := by
  rw [bump, Std.TreeMap.mem_insert, Std.LawfulEqCmp.compare_eq_iff_eq, eq_comm]

theorem getD_bump (e : Effect) (d o : Int64) :
    (e.bump d).deltas.getD o 0 = e.deltas.getD o 0 + if o = e.shift then d else 0 := by
  simp only [bump, Std.TreeMap.getD_insert, Std.LawfulEqCmp.compare_eq_iff_eq]
  by_cases h : e.shift = o
  · simp [h]
  · simp [h, Ne.symm h]

theorem step?_add (hi : i.opcode = .add) (e : Effect) : e.step? i = some (e.bump i.value) := by
  simp [step?, hi]

theorem step?_move (hi : i.opcode = .move) (e : Effect) :
    e.step? i = some ({ e with shift := e.shift + i.value }.bump 0) := by
  simp [step?, hi]

theorem opcode_of_step? (h : e.step? i = some e') : i.opcode = .add ∨ i.opcode = .move := by
  unfold step? at h
  split at h
  · exact .inl ‹_›
  · exact .inr ‹_›
  · cases h

/-- The offsets of an effect are the places where its body begins and lands. -/
theorem mem_foldlM_iff (h : body.foldlM step? e = some e') (hs : o = e.shift → o ∈ e.deltas) :
    o ∈ e'.deltas ↔ o ∈ e.deltas ∨ o ∈ landings e.shift body := by
  induction body generalizing e with
  | nil =>
    cases h
    simp [landings]
  | cons i body ih =>
    rw [List.foldlM_cons] at h
    obtain ⟨e₁, h₁, h⟩ := Option.bind_eq_some_iff.1 h
    rcases opcode_of_step? h₁ with hi | hi
    · cases (step?_add hi e).symm.trans h₁
      have hbump : o ∈ (e.bump i.value).deltas ↔ o ∈ e.deltas := by
        rw [mem_bump, or_iff_right_of_imp hs]
      rw [ih h fun ho => hbump.2 (hs ho), hbump]
      simp [landings, hi, bump]
    · cases (step?_move hi e).symm.trans h₁
      rw [ih h fun ho => mem_bump.2 (.inl ho), mem_bump]
      simp only [bump, landings, hi, reduceIte, List.mem_cons]
      tauto

structure Leads (e : Effect) (c : Cell) (t : Tape) (s : State) : Prop where
  dp : s.dp.toWord = c.toWord + e.shift
  tape : ∀ d : Cell, s.tape.peek d = t.peek d + lowByte (e.deltas.getD (c.offsetTo d) 0)

theorem Leads.refl (s : State) : Leads {} s.dp s.tape s where
  dp := by simp
  tape := by simp

theorem Leads.bump (h : e.Leads c t s) (v : Int64) :
    (e.bump v).Leads c t { s with tape := s.tape.poke s.dp (s.tape.peek s.dp + lowByte v) } where
  dp := h.dp
  tape d := by
    have hd : c.offsetTo d = e.shift ↔ d = s.dp := by
      rw [eq_comm, ← Cell.toWord_add_eq_iff, ← h.dp, Cell.toWord_inj, eq_comm]
    simp only [getD_bump, hd, Tape.peek_poke]
    split
    · rename_i hc
      rw [lowByte_add, ← UInt8.add_assoc, ← h.tape]
      simp only [hc]
    · simpa using h.tape d

theorem Leads.move (h : e.Leads c t s) {v : Int64} {d : Cell} (hd : d.toWord = s.dp.toWord + v) :
    ({ e with shift := e.shift + v }.bump 0).Leads c t { s with dp := d } where
  dp := by
    rw [hd, h.dp]
    exact Int64.add_assoc ..
  tape d := by
    rw [getD_bump]
    simpa using h.tape d

open Forest

/-- A pass that stays on the tape. -/
theorem Leads.exec (h : e.Leads c t s) (flushEach : Bool) (hb : body.foldlM step? e = some e')
    (hn : (landings e.shift body).find? c.isOff = none) :
    ∃ s', Exec flushEach (ofLeaves body) s s' none ∧ e'.Leads c t s' ∧ s'.streams = s.streams := by
  induction body generalizing e s with
  | nil =>
    cases hb
    exact ⟨s, .nil, h, rfl⟩
  | cons i body ih =>
    rw [List.foldlM_cons] at hb
    obtain ⟨e₁, h₁, hb⟩ := Option.bind_eq_some_iff.1 hb
    rcases opcode_of_step? h₁ with hi | hi
    · cases (step?_add hi e).symm.trans h₁
      obtain ⟨s', he, hl, hs⟩ := ih (h.bump i.value) hb (by simpa [landings, hi] using hn)
      exact ⟨s', .leaf (State.exec_add hi flushEach s) he, hl, hs⟩
    · cases (step?_move hi e).symm.trans h₁
      simp only [landings, hi, reduceIte, List.find?_cons] at hn
      split at hn
      · cases hn
      · rename_i hoff
        obtain ⟨d, hd⟩ := Cell.isOff_eq_false_iff.1 hoff
        have hw : s.dp.toWord + i.value = d.toWord := by
          rw [h.dp, Int64.add_assoc, Cell.toWord_add_eq_iff, hd]
        obtain ⟨s', he, hl, hs⟩ := ih (h.move hw.symm) hb hn
        have hm := State.exec_move_of_some hi flushEach (Cell.ofWord?_eq_some_iff.2 hw)
        exact ⟨s', .leaf hm he, hl, hs⟩

/-- A pass that leaves the tape where the body first lands off it. -/
theorem Leads.exec_fault (h : e.Leads c t s) (flushEach : Bool)
    (hb : body.foldlM step? e = some e') (ho : (landings e.shift body).find? c.isOff = some o) :
    ∃ s', ∃ i ∈ body,
      Exec flushEach (ofLeaves body) s s' (some (i, .outOfRange (c.toWord + o))) ∧
        s'.streams = s.streams := by
  induction body generalizing e s with
  | nil => cases ho
  | cons i body ih =>
    rw [List.foldlM_cons] at hb
    obtain ⟨e₁, h₁, hb⟩ := Option.bind_eq_some_iff.1 hb
    rcases opcode_of_step? h₁ with hi | hi
    · cases (step?_add hi e).symm.trans h₁
      obtain ⟨s', j, hj, he, hs⟩ := ih (h.bump i.value) hb (by simpa [landings, hi] using ho)
      exact ⟨s', j, List.mem_cons_of_mem i hj, .leaf (State.exec_add hi flushEach s) he, hs⟩
    · cases (step?_move hi e).symm.trans h₁
      simp only [landings, hi, reduceIte, List.find?_cons] at ho
      have hw : s.dp.toWord + i.value = c.toWord + (e.shift + i.value) := by
        rw [h.dp, Int64.add_assoc]
      split at ho
      · rename_i hoff
        cases ho
        have hm := State.exec_move_of_none hi flushEach (hw ▸ Cell.ofWord?_of_isOff hoff)
        rw [hw] at hm
        exact ⟨s, i, List.mem_cons_self, .fault hm, rfl⟩
      · rename_i hoff
        obtain ⟨d, hd⟩ := Cell.isOff_eq_false_iff.1 hoff
        rw [hd, Cell.toWord_add_eq_iff.2 rfl] at hw
        obtain ⟨s', j, hj, he, hs⟩ := ih (h.move hw.symm) hb ho
        have hm := State.exec_move_of_some hi flushEach (Cell.ofWord?_eq_some_iff.2 hw)
        exact ⟨s', j, List.mem_cons_of_mem i hj, .leaf hm he, hs⟩

/-- The offsets of an effect but its own place, by ascending offset. -/
def others (e : Effect) : List Int64 :=
  e.deltas.keys.filter (· ≠ 0)

theorem mem_others : o ∈ e.others ↔ o ∈ e.deltas ∧ o ≠ 0 := by
  simp [others]

theorem zero_notMem_others (e : Effect) : 0 ∉ e.others :=
  fun h => (mem_others.1 h).2 rfl

theorem nodup_others (e : Effect) : e.others.Nodup :=
  List.Pairwise.filter _ e.deltas.nodup_keys

theorem multiplications_eq (e : Effect) :
    e.multiplications = e.others.map fun o => .multiply o (e.deltas.getD o 0) := by
  rw [others, ← Std.TreeMap.map_fst_toList_eq_keys, List.filter_map, List.map_map, multiplications]
  apply List.map_congr_left
  rintro ⟨o, f⟩ hx
  have hf := Std.TreeMap.mem_toList_iff_getElem?_eq_some.1 (List.mem_filter.1 hx).1
  simp [Std.TreeMap.getD_eq_getD_getElem?, hf]

end Effect

/-- Another cell does not change the count. -/
theorem State.cell_poke_of_offsetTo {s : State} {c : Cell} (h : 0 ≠ s.dp.offsetTo c) (b : UInt8) :
    cell { s with tape := s.tape.poke c b } = s.cell := by
  have hne : s.dp ≠ c := by
    rintro rfl
    exact h (Cell.offsetTo_self _).symm
  rw [cell_poke, if_neg hne]

namespace Forest

variable {flushEach : Bool} {s : State} {os : List Int64} {o : Int64}

theorem exec_multiply_of_zero (flushEach : Bool) (hc : s.cell = 0) (os : List Int64)
    (g : Int64 → Int64) :
    Exec flushEach (ofLeaves (os.map fun o => .multiply o (g o))) s s none := by
  induction os with
  | nil => exact .nil
  | cons o os ih => exact .leaf (State.exec_multiply_of_zero flushEach hc o (g o)) ih

/-- Multiplications that stay on the tape. -/
theorem exec_multiply (flushEach : Bool) (hc : s.cell ≠ 0) (hd : os.Nodup) (h0 : 0 ∉ os)
    (hn : os.find? s.dp.isOff = none) (g : Int64 → Int64) :
    ∃ s', Exec flushEach (ofLeaves (os.map fun o => .multiply o (g o))) s s' none ∧
      s'.dp = s.dp ∧ s'.streams = s.streams ∧ ∀ d : Cell, s'.tape.peek d = s.tape.peek d +
        if s.dp.offsetTo d ∈ os then s.cell * lowByte (g (s.dp.offsetTo d)) else 0 := by
  induction os generalizing s with
  | nil => exact ⟨s, .nil, rfl, rfl, by simp⟩
  | cons o os ih =>
    obtain ⟨ho, hos⟩ := List.nodup_cons.1 hd
    simp only [List.find?_cons] at hn
    split at hn
    · cases hn
    · rename_i hoff
      obtain ⟨c, rfl⟩ := Cell.isOff_eq_false_iff.1 hoff
      rw [List.mem_cons, not_or] at h0
      have hc' := State.cell_poke_of_offsetTo h0.1
        (s.tape.peek c + s.cell * lowByte (g (s.dp.offsetTo c)))
      obtain ⟨s', he, hdp, hs, ht⟩ := ih (hc'.trans_ne hc) hos h0.2 hn
      refine ⟨s', .leaf ?_ he, hdp, hs, fun d => ?_⟩
      · exact State.exec_multiply_of_some flushEach hc (Cell.ofWord?_add_eq_some_iff.2 rfl) _
      · rw [ht d, hc']
        simp only [Tape.peek_poke, List.mem_cons, Cell.offsetTo_inj]
        by_cases hdc : d = c
        · subst hdc
          simp [ho]
        · simp [hdc]

/-- Multiplications that leave the tape. -/
theorem exec_multiply_fault (flushEach : Bool) (hc : s.cell ≠ 0) (h0 : 0 ∉ os)
    (ho : os.find? s.dp.isOff = some o) (g : Int64 → Int64) :
    ∃ s', Exec flushEach (ofLeaves (os.map fun o => .multiply o (g o))) s s'
        (some (.multiply o (g o), .outOfRange (s.dp.toWord + o))) ∧
      s'.dp = s.dp ∧ s'.streams = s.streams := by
  induction os generalizing s with
  | nil => cases ho
  | cons o' os ih =>
    simp only [List.find?_cons] at ho
    split at ho
    · rename_i hoff
      cases ho
      have hm := State.exec_multiply_of_none flushEach hc (Cell.ofWord?_of_isOff hoff) (g o)
      exact ⟨s, .fault hm, rfl, rfl⟩
    · rename_i hoff
      obtain ⟨c, rfl⟩ := Cell.isOff_eq_false_iff.1 hoff
      rw [List.mem_cons, not_or] at h0
      have hc' := State.cell_poke_of_offsetTo h0.1
        (s.tape.peek c + s.cell * lowByte (g (s.dp.offsetTo c)))
      obtain ⟨s', he, hdp, hs⟩ := ih (hc'.trans_ne hc) h0.2 ho
      refine ⟨s', .leaf ?_ he, hdp, hs⟩
      exact State.exec_multiply_of_some flushEach hc (Cell.ofWord?_add_eq_some_iff.2 rfl) _

end Forest

end Brainfuck
