import Brainfuck.Proofs.ClosedForms

/-! # Folding reaches a fixed point

What a sweep puts in the place of a loop is not straight, so it does not make the loop around it
foldable, and a loop that the sweep keeps has been seen with its final body. One sweep therefore
leaves nothing to fold, and a second one only finds that out.
-/

namespace Brainfuck

open Forest

def Program.IsNormal (p : Program) : Prop :=
  ∀ body, HoldsLoop p.toList body → closedForm? body = none

namespace Forest

variable {ts : Forest} {is js body : List Instr}

theorem HoldsLoop.mono (h : HoldsLoop is body) (hi : is <:+: js) : HoldsLoop js body := by
  obtain ⟨start, stop, hs, he, hb⟩ := h
  exact ⟨start, stop, hs, he, hb.trans hi⟩

/-- A loop that is replaced has not been changed before. -/
theorem exists_holdsLoop_of_folds {n : Nat} (hm : ts.IsMatched) (h : ts.folds n ≠ []) :
    ∃ body, HoldsLoop ts.flatten body ∧ Brainfuck.closedForm? body ≠ none := by
  induction ts generalizing n with
  | nil => exact (h rfl).elim
  | leaf i rest ih =>
    obtain ⟨body, hl, hb⟩ := ih hm.2 h
    exact ⟨body, hl.mono (List.suffix_cons i _).isInfix, hb⟩
  | loop start body stop rest ihb ihr =>
    obtain ⟨hs, he, -, hbm, hrm⟩ := hm
    cases hf : body.closedForm? with
    | some form =>
      obtain ⟨is, hl, hform⟩ := Option.bind_eq_some_iff.1 hf
      obtain rfl := eq_ofLeaves_of_leaves? hl
      refine ⟨is, ⟨start, stop, hs, he, ⟨[], rest.flatten, ?_⟩⟩, by simp [hform]⟩
      simp [flatten]
    | none =>
      simp only [folds, hf, ne_eq, List.append_eq_nil_iff, not_and_or] at h
      rcases h with h | h
      · obtain ⟨is, hl, hc⟩ := ihb hbm h
        exact ⟨is, hl.mono ⟨[start], stop :: rest.flatten, by simp [flatten]⟩, hc⟩
      · obtain ⟨is, hl, hc⟩ := ihr hrm h
        exact ⟨is, hl.mono ⟨start :: (body.flatten ++ [stop]), [], by simp [flatten]⟩, hc⟩

theorem fold_eq_self {n : Nat} (h : ts.folds n = []) : ts.fold = ts := by
  induction ts generalizing n with
  | nil => rfl
  | leaf i rest ih => rw [fold, ih h]
  | loop start body stop rest ihb ihr =>
    cases hf : body.closedForm? with
    | some form => simp [folds, hf] at h
    | none =>
      simp only [folds, hf, List.append_eq_nil_iff] at h
      simp only [fold, hf, ihb h.1, ihr h.2]

end Forest

namespace Sweep

variable {s : Sweep} {i : Instr} {is body : List Instr}

/-- A step copies the instruction, or the instruction closes a loop that is replaced. -/
theorem step_cases (s : Sweep) (i : Instr) :
    ((s.step i).buffer = s.buffer.push i ∧ (s.step i).folds = s.folds) ∨
    ∃ start rest form, i.bracket? = some .closing ∧ s.waiting = start :: rest ∧
      closedFormFrom? s.buffer start = some form ∧
      s.step i = ⟨s.buffer.shrink start ++ form.toArray, rest,
        s.folds.push ⟨start, form.length⟩⟩ := by
  fun_cases step s i with
  | case5 => exact .inr ⟨_, _, _, ‹_›, rfl, ‹_›, rfl⟩
  | _ => exact .inl ⟨rfl, rfl⟩

/-- Replacing a loop saves its brackets at least. -/
theorem step_saves (s : Sweep) (i : Instr) :
    ((s.step i).buffer = s.buffer.push i ∧ (s.step i).folds = s.folds) ∨
    ((s.step i).folds.size = s.folds.size + 1 ∧
      (s.step i).buffer.size + 2 ≤ (s.buffer.push i).size) := by
  refine (step_cases s i).imp_right ?_
  rintro ⟨start, rest, form, -, -, hf, hs⟩
  have hlt := length_lt_of_closedFormFrom? hf
  rw [hs]
  refine ⟨Array.size_push .., ?_⟩
  simp only [Array.size_push, Array.size_append, Array.size_shrink, List.size_toArray]
  omega

theorem size_folds_le_foldl (is : List Instr) (s : Sweep) :
    s.folds.size ≤ (is.foldl step s).folds.size := by
  induction is generalizing s with
  | nil => exact Nat.le_refl _
  | cons i is ih =>
    refine Nat.le_trans ?_ (ih (s.step i))
    rcases step_saves s i with ⟨-, hf⟩ | ⟨hf, -⟩
    · rw [hf]
    · omega

theorem foldl_step_of_no_bracket (h : ∀ i ∈ is, i.bracket? = none) (buffer : Program)
    (waiting : List Nat) (folds : Array Fold) :
    is.foldl step ⟨buffer, waiting, folds⟩ = ⟨buffer ++ is.toArray, waiting, folds⟩ := by
  induction is generalizing buffer with
  | nil => simp
  | cons i is ih =>
    obtain ⟨hi, his⟩ := List.forall_mem_cons.1 h
    have hs : step ⟨buffer, waiting, folds⟩ i = ⟨buffer.push i, waiting, folds⟩ := by
      simp only [step, hi]
    rw [List.foldl_cons, hs, ih his]
    simp

theorem foldl_step_of_closedForm? {start stop : Instr} {form : List Instr}
    (hs : start.bracket? = some .opening) (he : stop.bracket? = some .closing)
    (hf : closedForm? body = some form) (s : Sweep) :
    (start :: (body ++ [stop])).foldl step s =
      ⟨s.buffer ++ form.toArray, s.waiting, s.folds.push ⟨s.buffer.size, form.length⟩⟩ := by
  obtain ⟨buffer, waiting, folds⟩ := s
  rw [List.foldl_cons, List.foldl_append, step_start hs,
    foldl_step_of_no_bracket (bracket?_eq_none_of_mem_body hf), List.foldl_cons, List.foldl_nil,
    step_stop_of_some he hf]

/-- A loop with a closed form is replaced wherever it stands. -/
theorem folds_ne_of_holdsLoop {p : Program} (hl : HoldsLoop p.toList body)
    (hb : closedForm? body ≠ none) : (ofProgram p).folds ≠ #[] := by
  -- Whatever the sweep has done before the loop, it folds the loop, and folds are never taken back.
  obtain ⟨start, stop, hs, he, before, after, hp⟩ := hl
  obtain ⟨form, hf⟩ := Option.ne_none_iff_exists'.1 hb
  have hle := size_folds_le_foldl after
    ((start :: (body ++ [stop])).foldl step (before.foldl step {}))
  have hall : after.foldl step ((start :: (body ++ [stop])).foldl step (before.foldl step {})) =
      ofProgram p := by
    rw [ofProgram, ← Array.foldl_toList, ← hp, List.foldl_append, List.foldl_append]
  rw [hall, foldl_step_of_closedForm? hs he hf, Array.size_push] at hle
  intro hnil
  simp [hnil] at hle

theorem ofProgram_eq (p : Program) :
    ofProgram p = ⟨p.forest.fold.flatten.toArray, p.forest.fold.unmatchedAt .opening 0,
      (p.forest.folds 0).toArray⟩ := by
  have h := ofProgram_flatten p.isMatched_forest
  rwa [Program.flatten_forest] at h

theorem folds_eq_nil_iff {p : Program} : (ofProgram p).folds = #[] ↔ p.IsNormal := by
  constructor
  · intro h body hl
    by_contra hb
    exact folds_ne_of_holdsLoop hl hb h
  · intro h
    rw [ofProgram_eq]
    by_contra hne
    obtain ⟨body, hl, hb⟩ := exists_holdsLoop_of_folds (n := 0) p.isMatched_forest
      (by simpa using hne)
    rw [Program.flatten_forest] at hl
    exact hb (h body hl)

theorem ofProgram_buffer (p : Program) :
    (ofProgram (ofProgram p).buffer).buffer = (ofProgram p).buffer ∧
      (ofProgram (ofProgram p).buffer).folds = #[] := by
  have hm := p.isMatched_forest
  have h := ofProgram_flatten (isMatched_fold hm)
  rw [ofProgram_eq p, h, fold_fold hm, folds_fold hm]
  exact ⟨rfl, rfl⟩

end Sweep

namespace Program

variable {p : Program}

theorem IsNormal.foldLoops_eq (h : p.IsNormal) : p.foldLoops = ⟨p, #[], 1⟩ := by
  have hf := Sweep.folds_eq_nil_iff.2 h
  rw [Sweep.ofProgram_eq] at hf
  have hnil : p.forest.folds 0 = [] := by simpa using hf
  rw [Program.foldLoops_eq, fold_eq_self hnil, hnil, flatten_forest]
  simp

theorem foldLoops_eq_of_not_isNormal (h : ¬ p.IsNormal) :
    p.foldLoops = ⟨(Sweep.ofProgram p).buffer, (Sweep.ofProgram p).folds, 2⟩ := by
  rw [← Sweep.folds_eq_nil_iff, Sweep.ofProgram_eq] at h
  have hnil : p.forest.folds 0 ≠ [] := by simpa using h
  rw [Program.foldLoops_eq, Sweep.ofProgram_eq, if_neg hnil]

theorem program_foldLoops (p : Program) : p.foldLoops.program = (Sweep.ofProgram p).buffer := by
  rw [Program.foldLoops_eq, Sweep.ofProgram_eq]

end Program

/-- After one sweep no loop is left that has a closed form, so a second sweep changes nothing.
Folding takes one sweep if there was nothing to fold, and two otherwise. The last part is about
every step of a sweep: it copies an instruction, or it replaces a loop by at least two instructions
less. -/
theorem sweep_reaches_fixed_point (p : Program) :
    let swept := Sweep.ofProgram p
    ((Sweep.ofProgram swept.buffer).buffer = swept.buffer ∧
      (Sweep.ofProgram swept.buffer).folds = #[] ∧ swept.buffer.IsNormal) ∧
    ((p.IsNormal ∧ p.foldLoops = ⟨p, #[], 1⟩) ∨
      (¬ p.IsNormal ∧ swept.folds ≠ #[] ∧ p.foldLoops = ⟨swept.buffer, swept.folds, 2⟩)) ∧
    p.foldLoops.program = swept.buffer ∧
    p.foldLoops.program.foldLoops = ⟨p.foldLoops.program, #[], 1⟩ ∧
    ∀ (s : Sweep) (i : Instr),
      ((s.step i).buffer = s.buffer.push i ∧ (s.step i).folds = s.folds) ∨
      ((s.step i).folds.size = s.folds.size + 1 ∧
        (s.step i).buffer.size + 2 ≤ (s.buffer.push i).size) := by
  intro swept
  obtain ⟨hbuffer, hfolds⟩ := Sweep.ofProgram_buffer p
  have hnormal : swept.buffer.IsNormal := Sweep.folds_eq_nil_iff.1 hfolds
  refine ⟨⟨hbuffer, hfolds, hnormal⟩, ?_, p.program_foldLoops, ?_, Sweep.step_saves⟩
  · by_cases h : p.IsNormal
    · exact .inl ⟨h, h.foldLoops_eq⟩
    · exact .inr ⟨h, mt Sweep.folds_eq_nil_iff.1 h, Program.foldLoops_eq_of_not_isNormal h⟩
  · rw [p.program_foldLoops]
    exact hnormal.foldLoops_eq

end Brainfuck
