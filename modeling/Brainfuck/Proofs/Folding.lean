import Brainfuck.Loop.Sweep
import Brainfuck.Proofs.Forest

/-! # Folding rewrites the forest

A sweep replaces exactly those loops of the forest that consist of leaves and whose body has a
closed form, and rewrites the bodies of the others. A closed form is not straight, so no further
sweep finds anything to fold.
-/

namespace Brainfuck

/-! ## Closed forms and straight bodies -/

namespace Effect

theorem isStraight_of_step? {e e' : Effect} {i : Instr} (h : e.step? i = some e') :
    i.isStraight := by
  unfold step? at h
  split at h
  · rename_i hi
    rw [Instr.isStraight, hi]
    rfl
  · rename_i hi
    rw [Instr.isStraight, hi]
    rfl
  · cases h

theorem isStraight_of_foldlM {body : List Instr} {e e' : Effect}
    (h : body.foldlM step? e = some e') : ∀ i ∈ body, i.isStraight := by
  induction body generalizing e with
  | nil => simp
  | cons i body ih =>
    rw [List.foldlM_cons] at h
    obtain ⟨e₁, h₁, h⟩ := Option.bind_eq_some_iff.1 h
    exact List.forall_mem_cons.2 ⟨isStraight_of_step? h₁, ih h⟩

end Effect

theorem Instr.not_isStraight_of_bracket? {i : Instr} {b : Bracket} (h : i.bracket? = some b) :
    i.isStraight = false := by
  unfold Instr.bracket? Opcode.bracket? at h
  unfold Instr.isStraight Opcode.isStraight
  split at h <;> simp_all

theorem closedForm?_cases {body form : List Instr} (h : closedForm? body = some form) :
    (∃ e, Effect.ofBody? body = some e ∧ e.isCountdown ∧ form = e.multiplications ++ [.clear]) ∨
      ∃ i j, body = [i] ∧ i.closedForm? = some j ∧ form = [j] := by
  unfold closedForm? at h
  split at h
  · cases h
  · rename_i e he
    split at h
    · rename_i hc
      cases h
      exact .inl ⟨e, he, hc, rfl⟩
    · split at h
      · rename_i i
        obtain ⟨j, hj, rfl⟩ := Option.map_eq_some_iff.1 h
        exact .inr ⟨i, j, rfl, hj, rfl⟩
      · cases h

theorem Instr.closedForm?_cases {i j : Instr} (h : i.closedForm? = some j) :
    (i.opcode = .add ∧ i.value % 2 ≠ 0 ∧ j = .clear) ∨
      (i.opcode = .move ∧ i.value = -1 ∧ j = { opcode := .scanLeft }) ∨
        (i.opcode = .move ∧ i.value = 1 ∧ j = { opcode := .scanRight }) := by
  unfold Instr.closedForm? at h
  split at h
  · rename_i hi
    split at h
    · rename_i hv
      cases h
      exact .inl ⟨hi, hv, rfl⟩
    · cases h
  · rename_i hi
    split at h
    · rename_i hv
      cases h
      exact .inr (.inl ⟨hi, hv, rfl⟩)
    · split at h
      · rename_i hv
        cases h
        exact .inr (.inr ⟨hi, hv, rfl⟩)
      · cases h
  · cases h

theorem isStraight_of_closedForm? {body form : List Instr} (h : closedForm? body = some form) :
    ∀ i ∈ body, i.isStraight := by
  unfold closedForm? at h
  split at h
  · cases h
  · rename_i e he
    exact Effect.isStraight_of_foldlM he

theorem bracket?_eq_none_of_mem_body {body form : List Instr} (h : closedForm? body = some form) :
    ∀ i ∈ body, i.bracket? = none := by
  intro i hi
  have hs := isStraight_of_closedForm? h i hi
  by_contra hb
  obtain ⟨b, hb⟩ := Option.ne_none_iff_exists'.1 hb
  simp [Instr.not_isStraight_of_bracket? hb] at hs

theorem closedForm?_eq_none {body : List Instr} {i : Instr} (hi : i ∈ body)
    (hs : i.isStraight = false) : closedForm? body = none := by
  cases h : closedForm? body with
  | none => rfl
  | some form => exact absurd (isStraight_of_closedForm? h i hi) (by simp [hs])

/-- A closed form holds multiplications, clearing and scans only. -/
theorem not_isStraight_of_mem_closedForm {body form : List Instr}
    (h : closedForm? body = some form) :
    ∀ i ∈ form, i.isStraight = false ∧ i.bracket? = none := by
  intro i hi
  rcases closedForm?_cases h with ⟨e, _, _, rfl⟩ | ⟨j, k, _, hk, rfl⟩
  · rcases List.mem_append.1 hi with hi | hi
    · obtain ⟨kd, _, rfl⟩ := List.mem_map.1 hi
      exact ⟨rfl, rfl⟩
    · rw [List.mem_singleton.1 hi]
      exact ⟨rfl, rfl⟩
  · rw [List.mem_singleton.1 hi]
    rcases Instr.closedForm?_cases hk with ⟨_, _, rfl⟩ | ⟨_, _, rfl⟩ | ⟨_, _, rfl⟩
    · exact ⟨rfl, rfl⟩
    · exact ⟨rfl, rfl⟩
    · exact ⟨rfl, rfl⟩

theorem closedForm_ne_nil {body form : List Instr} (h : closedForm? body = some form) :
    form ≠ [] := by
  rcases closedForm?_cases h with ⟨e, _, _, rfl⟩ | ⟨j, k, _, _, rfl⟩
  · simp
  · simp

theorem Sweep.closedFormFrom?_eq (buffer : Program) (start : Nat) :
    closedFormFrom? buffer start = closedForm? (buffer.toList.drop (start + 1)) := by
  have hx : (buffer.extract (start + 1)).toList = buffer.toList.drop (start + 1) := by
    rw [Array.toList_extract, List.extract_eq_take_drop]
    exact List.take_of_length_le (by simp)
  unfold closedFormFrom?
  rw [hx]
  split
  · rfl
  · rename_i hs
    cases h : closedForm? (buffer.toList.drop (start + 1)) with
    | none => rfl
    | some form =>
      refine absurd (Array.all_iff_forall.2 fun k hk hr => ?_) hs
      refine isStraight_of_closedForm? h _ (List.mem_iff_getElem.2 ⟨k - (start + 1), ?_, ?_⟩)
      · simp only [List.length_drop, Array.length_toList]
        omega
      · simp [show start + 1 + (k - (start + 1)) = k by omega]

namespace Sweep

variable {buffer : Program} {waiting : List Nat} {folds : Array Fold} {start stop : Instr}
  {body : List Instr}

theorem closedFormFrom?_push (buffer : Program) (start : Instr) (body : List Instr) :
    closedFormFrom? (buffer.push start ++ body.toArray) buffer.size = closedForm? body := by
  have hl : (buffer.push start ++ body.toArray).toList = (buffer.toList ++ [start]) ++ body := by
    simp
  rw [closedFormFrom?_eq, hl, List.drop_left' (by simp)]

theorem step_start (hs : start.bracket? = some .opening) :
    step ⟨buffer, waiting, folds⟩ start = ⟨buffer.push start, buffer.size :: waiting, folds⟩ := by
  simp only [step, hs]

theorem step_stop_of_some {form : List Instr} (he : stop.bracket? = some .closing)
    (hf : closedForm? body = some form) :
    step ⟨buffer.push start ++ body.toArray, buffer.size :: waiting, folds⟩ stop =
      ⟨buffer ++ form.toArray, waiting, folds.push ⟨buffer.size, form.length⟩⟩ := by
  have hs : (buffer.push start ++ body.toArray).shrink buffer.size = buffer := by
    apply Array.toList_inj.1
    simp
  simp only [step, he, closedFormFrom?_push, hf, hs]

theorem step_stop_of_none (he : stop.bracket? = some .closing) (hf : closedForm? body = none) :
    step ⟨buffer.push start ++ body.toArray, buffer.size :: waiting, folds⟩ stop =
      ⟨buffer ++ (start :: (body ++ [stop])).toArray, waiting, folds⟩ := by
  simp only [step, he, closedFormFrom?_push, hf]
  simp

end Sweep

namespace Forest

def closedForm? (body : Forest) : Option (List Instr) :=
  body.leaves?.bind Brainfuck.closedForm?

/-- Replaces the loops of leaves that have a closed form. -/
def fold : Forest → Forest
  | nil => nil
  | leaf i rest => leaf i rest.fold
  | loop start body stop rest =>
    match body.closedForm? with
    | some form => ofLeaves form ++ rest.fold
    | none => loop start body.fold stop rest.fold

/-- The loops that are replaced, if the result begins at `n`. -/
def folds : Nat → Forest → List Fold
  | _, nil => []
  | n, leaf _ rest => rest.folds (n + 1)
  | n, loop _ body _ rest =>
    match body.closedForm? with
    | some form => ⟨n, form.length⟩ :: rest.folds (n + form.length)
    | none => body.folds (n + 1) ++ rest.folds (n + body.fold.size + 2)

variable {ts : Forest}

@[simp] theorem leaves?_ofLeaves (is : List Instr) : (ofLeaves is).leaves? = some is := by
  induction is with
  | nil => rfl
  | cons i is ih => simp [ofLeaves, leaves?, ih]

@[simp] theorem fold_ofLeaves (is : List Instr) : (ofLeaves is).fold = ofLeaves is := by
  induction is with
  | nil => rfl
  | cons i is ih => simp [ofLeaves, fold, ih]

@[simp] theorem size_ofLeaves (is : List Instr) : (ofLeaves is).size = is.length :=
  congrArg List.length (flatten_ofLeaves is)

theorem folds_ofLeaves_append (is : List Instr) (us : Forest) (n : Nat) :
    (ofLeaves is ++ us).folds n = us.folds (n + is.length) := by
  induction is generalizing n with
  | nil => rfl
  | cons i is ih =>
    simp [ofLeaves, folds, ih, show n + 1 + is.length = n + (is.length + 1) by omega]

theorem unmatched_ofLeaves {is : List Instr} (h : ∀ i ∈ is, i.bracket? = none) :
    (ofLeaves is).unmatched = [] := by
  induction is with
  | nil => rfl
  | cons i is ih =>
    rw [List.forall_mem_cons] at h
    simp [ofLeaves, unmatched, h.1, ih h.2]

theorem isMatched_ofLeaves {is : List Instr} (h : ∀ i ∈ is, i.bracket? = none) :
    (ofLeaves is).IsMatched := by
  induction is with
  | nil => trivial
  | cons i is ih =>
    rw [List.forall_mem_cons] at h
    exact ⟨by simp [h.1], ih h.2⟩

theorem fold_append (ts us : Forest) : (ts ++ us).fold = ts.fold ++ us.fold := by
  induction ts with
  | nil => rfl
  | leaf i rest ih => simp only [leaf_append, fold, ih]
  | loop start body stop rest _ ih =>
    simp only [loop_append, fold, ih]
    split
    · exact (append_assoc ..).symm
    · rfl

theorem exists_not_isStraight (hm : ts.IsMatched) (hl : ts.leaves? = none) :
    ∃ i ∈ ts.fold.flatten, i.isStraight = false := by
  induction ts with
  | nil => cases hl
  | leaf i rest ih =>
    obtain ⟨j, hj, hs⟩ := ih hm.2 (by simpa [leaves?] using hl)
    exact ⟨j, List.mem_cons_of_mem i hj, hs⟩
  | loop start body stop rest =>
    unfold fold
    split
    · rename_i form hf
      obtain ⟨is, _, hf⟩ := Option.bind_eq_some_iff.1 hf
      obtain ⟨j, hj⟩ := List.exists_mem_of_ne_nil form (closedForm_ne_nil hf)
      exact ⟨j, by simp [hj], (not_isStraight_of_mem_closedForm hf j hj).1⟩
    · exact ⟨start, by simp [flatten], Instr.not_isStraight_of_bracket? hm.1⟩

theorem bracket?_eq_none_of_closedForm? {form : List Instr} (h : ts.closedForm? = some form) :
    ∀ i ∈ form, i.bracket? = none := by
  intro i hi
  obtain ⟨is, _, h⟩ := Option.bind_eq_some_iff.1 h
  exact (not_isStraight_of_mem_closedForm h i hi).2

/-- A loop is never replaced by something straight, so what is around it has no closed form. -/
theorem closedForm?_flatten_fold (hm : ts.IsMatched) :
    Brainfuck.closedForm? ts.fold.flatten = ts.closedForm? := by
  unfold closedForm?
  cases hl : ts.leaves? with
  | some is =>
    rw [eq_ofLeaves_of_leaves? hl]
    simp
  | none =>
    obtain ⟨i, hi, hs⟩ := exists_not_isStraight hm hl
    exact closedForm?_eq_none hi hs

theorem closedForm?_fold (hm : ts.IsMatched) : ts.fold.closedForm? = ts.closedForm? := by
  cases hl : ts.fold.leaves? with
  | some is =>
    rw [← closedForm?_flatten_fold hm, closedForm?, hl, eq_ofLeaves_of_leaves? hl]
    simp
  | none =>
    cases hl' : ts.leaves? with
    | some is =>
      rw [eq_ofLeaves_of_leaves? hl'] at hl
      simp at hl
    | none => rw [closedForm?, closedForm?, hl, hl']

theorem unmatched_fold (ts : Forest) : ts.fold.unmatched = ts.unmatched := by
  induction ts with
  | nil => rfl
  | leaf i rest ih => simp [fold, unmatched, ih]
  | loop start body stop rest _ ih =>
    simp only [fold, unmatched]
    split
    · rename_i form hf
      rw [unmatched_append, unmatched_ofLeaves (bracket?_eq_none_of_closedForm? hf), ih]
      rfl
    · exact ih

/-- What every instruction of a forest and of every closed form is, folding keeps. -/
theorem forall_mem_flatten_fold {P : Instr → Prop}
    (hform : ∀ body form, Brainfuck.closedForm? body = some form → ∀ i ∈ form, P i)
    (h : ∀ i ∈ ts.flatten, P i) : ∀ i ∈ ts.fold.flatten, P i := by
  induction ts with
  | nil => exact h
  | leaf i rest ih =>
    obtain ⟨hi, hrest⟩ := List.forall_mem_cons.1 h
    exact List.forall_mem_cons.2 ⟨hi, ih hrest⟩
  | loop start body stop rest ihb ihr =>
    obtain ⟨hstart, h⟩ := List.forall_mem_cons.1 h
    obtain ⟨hbody, h⟩ := List.forall_mem_append.1 h
    obtain ⟨hstop, hrest⟩ := List.forall_mem_cons.1 h
    unfold fold
    split
    · rename_i form hf
      obtain ⟨is, -, hf⟩ := Option.bind_eq_some_iff.1 hf
      rw [flatten_append, flatten_ofLeaves, List.forall_mem_append]
      exact ⟨hform is form hf, ihr hrest⟩
    · rw [flatten, List.forall_mem_cons, List.forall_mem_append, List.forall_mem_cons]
      exact ⟨hstart, ihb hbody, hstop, ihr hrest⟩

theorem isMatched_fold (hm : ts.IsMatched) : ts.fold.IsMatched := by
  induction ts with
  | nil => exact hm
  | leaf i rest ih => exact ⟨by simpa [unmatched_fold] using hm.1, ih hm.2⟩
  | loop start body stop rest ihb ihr =>
    obtain ⟨hs, he, hu, hbm, hrm⟩ := hm
    unfold fold
    split
    · rename_i form hf
      have hform := bracket?_eq_none_of_closedForm? hf
      refine isMatched_append (isMatched_ofLeaves hform) (ihr hrm) ?_
      simp [unmatched_ofLeaves hform]
    · exact ⟨hs, he, (unmatched_fold body).trans hu, ihb hbm, ihr hrm⟩

theorem fold_fold (hm : ts.IsMatched) : ts.fold.fold = ts.fold := by
  induction ts with
  | nil => rfl
  | leaf i rest ih => simp only [fold, ih hm.2]
  | loop start body stop rest ihb ihr =>
    obtain ⟨_, _, _, hbm, hrm⟩ := hm
    simp only [fold]
    split
    · rw [fold_append, fold_ofLeaves, ihr hrm]
    · rename_i hf
      simp only [fold, closedForm?_fold hbm, hf, ihb hbm, ihr hrm]

theorem folds_fold (hm : ts.IsMatched) (n : Nat) : ts.fold.folds n = [] := by
  induction ts generalizing n with
  | nil => rfl
  | leaf i rest ih => exact ih hm.2 _
  | loop start body stop rest ihb ihr =>
    obtain ⟨_, _, _, hbm, hrm⟩ := hm
    simp only [fold]
    split
    · rw [folds_ofLeaves_append, ihr hrm]
    · rename_i hf
      simp only [folds, closedForm?_fold hbm, hf, ihb hbm, ihr hrm, List.append_nil]

theorem unmatchedAt_ofLeaves {is : List Instr} (h : ∀ i ∈ is, i.bracket? = none) (b : Bracket)
    (n : Nat) : (ofLeaves is).unmatchedAt b n = [] :=
  unmatchedAt_eq_nil_iff.2 (by simp [unmatched_ofLeaves h])

theorem folds_of_closedForm? {form : List Instr} (h : ts.closedForm? = some form) (n : Nat) :
    ts.folds n = [] := by
  obtain ⟨is, hl, _⟩ := Option.bind_eq_some_iff.1 h
  rw [eq_ofLeaves_of_leaves? hl, ← append_nil (ofLeaves is), folds_ofLeaves_append]
  rfl

/-- A sweep rewrites the forest. -/
theorem sweep_flatten (hm : ts.IsMatched) (buffer : Program) (waiting : List Nat)
    (folds : Array Fold) (hw : .closing ∈ ts.unmatched → waiting = []) :
    ts.flatten.foldl Sweep.step ⟨buffer, waiting, folds⟩ =
      ⟨buffer ++ ts.fold.flatten.toArray,
        ts.fold.unmatchedAt .opening buffer.size ++ waiting,
        folds ++ (ts.folds buffer.size).toArray⟩ := by
  induction ts generalizing buffer waiting folds with
  | nil => simp [flatten, fold, unmatchedAt, Forest.folds]
  | leaf i rest ih =>
    simp only [flatten, List.foldl_cons, fold, unmatchedAt, Forest.folds]
    cases hb : i.bracket? with
    | none =>
      have hr : .closing ∈ rest.unmatched → waiting = [] := by simpa [unmatched, hb] using hw
      simp [Sweep.step, hb, ih hm.2 _ _ _ hr]
    | some b =>
      cases b with
      | opening =>
        have hc := hm.1 hb
        simp [Sweep.step, hb, ih hm.2 _ _ _ fun h => (hc h).elim]
      | closing =>
        have hnil : waiting = [] := hw (by simp [unmatched, hb])
        simp [Sweep.step, hb, hnil, ih hm.2]
  | loop start body stop rest ihb ihr =>
    obtain ⟨hs, he, hu, hbm, hrm⟩ := hm
    have hopen : body.fold.unmatchedAt .opening (buffer.size + 1) = [] :=
      unmatchedAt_eq_nil_iff.2 (by simp [unmatched_fold, hu])
    simp only [flatten, List.foldl_cons, List.foldl_append]
    rw [Sweep.step_start hs, ihb hbm _ _ _ (by simp [hu]), Array.size_push, hopen, List.nil_append]
    cases hf : body.closedForm? with
    | some form =>
      have hform := bracket?_eq_none_of_closedForm? hf
      rw [Sweep.step_stop_of_some he ((closedForm?_flatten_fold hbm).trans hf),
        ihr hrm _ _ _ hw]
      simp [fold, Forest.folds, hf, folds_of_closedForm? hf, unmatchedAt_append,
        unmatchedAt_ofLeaves hform]
    | none =>
      rw [Sweep.step_stop_of_none he ((closedForm?_flatten_fold hbm).trans hf), ihr hrm _ _ _ hw]
      have hn : buffer.size + (body.fold.size + 1 + 1) = buffer.size + body.fold.size + 2 := by
        omega
      simp [fold, Forest.folds, hf, flatten, unmatchedAt, hn]

end Forest

variable {ts : Forest}

theorem Sweep.ofProgram_flatten (hm : ts.IsMatched) :
    ofProgram ts.flatten.toArray =
      ⟨ts.fold.flatten.toArray, ts.fold.unmatchedAt .opening 0, (ts.folds 0).toArray⟩ := by
  have h := Forest.sweep_flatten hm #[] [] #[] fun _ => rfl
  rw [← List.foldl_toArray] at h
  simpa [ofProgram] using h

namespace Program

/-- The second sweep, if there is one, finds nothing to fold. -/
theorem foldLoops_flatten (hm : ts.IsMatched) :
    foldLoops ts.flatten.toArray =
      ⟨ts.fold.flatten.toArray, (ts.folds 0).toArray, if ts.folds 0 = [] then 1 else 2⟩ := by
  have hfix : foldLoops ts.fold.flatten.toArray = ⟨ts.fold.flatten.toArray, #[], 1⟩ := by
    have h := Sweep.ofProgram_flatten (Forest.isMatched_fold hm)
    rw [Forest.fold_fold hm, Forest.folds_fold hm] at h
    rw [foldLoops]
    simp [h]
  have h := Sweep.ofProgram_flatten hm
  rw [foldLoops]
  simp only [h, List.size_toArray, List.length_eq_zero_iff, hfix]
  split
  · rename_i hnil
    simp [hnil]
  · simp

theorem foldLoops_eq (p : Program) :
    p.foldLoops = ⟨p.forest.fold.flatten.toArray, (p.forest.folds 0).toArray,
      if p.forest.folds 0 = [] then 1 else 2⟩ := by
  have h := foldLoops_flatten p.isMatched_forest
  rwa [flatten_forest] at h

/-- Folding rewrites the one forest whose loops are the matched brackets of the program, and the
parts of a program are rewritten apart if no bracket of the first can have its partner in the
second. -/
theorem foldLoops_rewrites_forest (p : Program) :
    (∀ ts : Forest, ts.IsMatched ∧ ts.flatten = p.toList ↔ ts = p.forest) ∧
      p.foldLoops.program.toList = p.forest.fold.flatten ∧
      ∀ q : Program, .opening ∉ p.forest.unmatched →
        (p ++ q).foldLoops.program = p.foldLoops.program ++ q.foldLoops.program := by
  refine ⟨?_, by simp [foldLoops_eq], ?_⟩
  · intro ts
    constructor
    · rintro ⟨hm, hp⟩
      rw [forest, ← hp, Forest.ofList_flatten hm]
    · rintro rfl
      exact ⟨p.isMatched_forest, p.flatten_forest⟩
  · intro q ho
    have hm : (p.forest ++ q.forest).IsMatched :=
      Forest.isMatched_append p.isMatched_forest q.isMatched_forest fun h => (ho h).elim
    have h := foldLoops_flatten hm
    have hpq : (p.forest ++ q.forest).flatten.toArray = p ++ q := by simp
    rw [hpq] at h
    simp [h, foldLoops_eq, Forest.fold_append]

/-- `][-]` has a stray bracket, but none that waits. -/
theorem foldLoops_rewrites_forest_stray :
    let p : Program := #[{ opcode := .jumpUnlessZero }, { opcode := .jumpIfZero },
      { opcode := .add, value := -1 }, { opcode := .jumpUnlessZero }]
    let q : Program := #[{ opcode := .jumpIfZero }, { opcode := .jumpUnlessZero }]
    .opening ∉ p.forest.unmatched ∧
      (p ++ q).foldLoops.program = p.foldLoops.program ++ q.foldLoops.program := by
  intro p q
  have ho : .opening ∉ p.forest.unmatched := by decide
  exact ⟨ho, (foldLoops_rewrites_forest p).2.2 q ho⟩

end Program

end Brainfuck
