import Mathlib.Tactic.Common
import Brainfuck.Machine.State
import Brainfuck.Proofs.Forest

/-! # Execution of forests

A forest is executed by its structure: a loop repeats its body while the current cell is not
zero, and no jump is needed. An execution that fails ends at the instruction that fails, and
one that does not end has no derivation.
-/

namespace Brainfuck

abbrev Failure := Instr × Fault

namespace Forest

inductive Exec (flushEach : Bool) : Forest → State → State → Option Failure → Prop where

  | nil {s : State} : Exec flushEach nil s s none

  | leaf {i : Instr} {rest : Forest} {s s₁ s' : State} {e? : Option Failure} :
      s.exec flushEach i = ⟨s₁, none⟩ → Exec flushEach rest s₁ s' e? →
      Exec flushEach (leaf i rest) s s' e?

  | fault {i : Instr} {rest : Forest} {s s' : State} {e : Fault} :
      s.exec flushEach i = ⟨s', some e⟩ →
      Exec flushEach (leaf i rest) s s' (some (i, e))

  | exit {start stop : Instr} {body rest : Forest} {s s' : State} {e? : Option Failure} :
      s.cell = 0 → Exec flushEach rest s s' e? →
      Exec flushEach (loop start body stop rest) s s' e?

  | again {start stop : Instr} {body rest : Forest} {s s₁ s' : State} {e? : Option Failure} :
      s.cell ≠ 0 → Exec flushEach body s s₁ none →
      Exec flushEach (loop start body stop rest) s₁ s' e? →
      Exec flushEach (loop start body stop rest) s s' e?

  | fail {start stop : Instr} {body rest : Forest} {s s' : State} {e : Failure} :
      s.cell ≠ 0 → Exec flushEach body s s' (some e) →
      Exec flushEach (loop start body stop rest) s s' (some e)

variable {flushEach : Bool} {ts us : Forest} {s s₁ s₂ s' : State} {e? e₁ e₂ : Option Failure}

theorem Exec.unique (h₁ : Exec flushEach ts s s₁ e₁) (h₂ : Exec flushEach ts s s₂ e₂) :
    s₁ = s₂ ∧ e₁ = e₂ := by
  induction h₁ generalizing s₂ e₂ with
  | nil =>
    cases h₂
    exact ⟨rfl, rfl⟩
  | leaf hi _ ih =>
    cases h₂ with
    | leaf hi' h =>
      cases hi.symm.trans hi'
      exact ih h
    | fault hi' => cases hi.symm.trans hi'
  | fault hi =>
    cases h₂ with
    | leaf hi' _ => cases hi.symm.trans hi'
    | fault hi' =>
      cases hi.symm.trans hi'
      exact ⟨rfl, rfl⟩
  | exit hc _ ih =>
    cases h₂ with
    | exit _ h => exact ih h
    | again hc' => exact (hc' hc).elim
    | fail hc' => exact (hc' hc).elim
  | again hc _ _ ihb ih =>
    cases h₂ with
    | exit hc' => exact (hc hc').elim
    | again _ hb h =>
      obtain ⟨rfl, -⟩ := ihb hb
      exact ih h
    | fail _ hb => cases (ihb hb).2
  | fail hc _ ihb =>
    cases h₂ with
    | exit hc' => exact (hc hc').elim
    | again _ hb => cases (ihb hb).2
    | fail _ hb => exact ihb hb

theorem Exec.append_of_none (h : Exec flushEach ts s s₁ none) (h' : Exec flushEach us s₁ s' e?) :
    Exec flushEach (ts ++ us) s s' e? := by
  generalize hn : (none : Option Failure) = n at h
  induction h with
  | nil => exact h'
  | leaf hi _ ih => exact .leaf hi (ih h' hn)
  | fault => cases hn
  | exit hc _ ih => exact .exit hc (ih h' hn)
  | again hc hb _ _ ih => exact .again hc hb (ih h' hn)
  | fail => cases hn

theorem Exec.append_of_some {e : Failure} (h : Exec flushEach ts s s' (some e)) :
    Exec flushEach (ts ++ us) s s' (some e) := by
  generalize hn : some e = n at h
  induction h with
  | nil => cases hn
  | leaf hi _ ih => exact .leaf hi (ih hn)
  | fault hi => exact .fault hi
  | exit hc _ ih => exact .exit hc (ih hn)
  | again hc hb _ _ ih => exact .again hc hb (ih hn)
  | fail hc hb => exact .fail hc hb

theorem Exec.of_append (h : Exec flushEach (ts ++ us) s s' e?) :
    (∃ s₁, Exec flushEach ts s s₁ none ∧ Exec flushEach us s₁ s' e?) ∨
      ∃ e, e? = some e ∧ Exec flushEach ts s s' (some e) := by
  induction ts generalizing s with
  | nil => exact .inl ⟨s, .nil, h⟩
  | leaf i rest ih =>
    cases h with
    | leaf hi h =>
      rcases ih h with ⟨s₁, h₁, h₂⟩ | ⟨e, rfl, h₁⟩
      · exact .inl ⟨s₁, .leaf hi h₁, h₂⟩
      · exact .inr ⟨e, rfl, .leaf hi h₁⟩
    | fault hi => exact .inr ⟨_, rfl, .fault hi⟩
  | loop start body stop rest ihb ih =>
    -- The loop may run its body many times before the rest, so this is by the derivation.
    clear ihb
    rw [loop_append] at h
    generalize hv : loop start body stop (rest ++ us) = vs at h
    induction h with
    | nil => cases hv
    | leaf => cases hv
    | fault => cases hv
    | exit hc h _ =>
      cases hv
      rcases ih h with ⟨s₁, h₁, h₂⟩ | ⟨e, rfl, h₁⟩
      · exact .inl ⟨s₁, .exit hc h₁, h₂⟩
      · exact .inr ⟨e, rfl, .exit hc h₁⟩
    | again hc hb _ _ ih' =>
      cases hv
      rcases ih' ih rfl with ⟨s₁, h₁, h₂⟩ | ⟨e, rfl, h₁⟩
      · exact .inl ⟨s₁, .again hc hb h₁, h₂⟩
      · exact .inr ⟨e, rfl, .again hc hb h₁⟩
    | fail hc hb _ =>
      cases hv
      exact .inr ⟨_, rfl, .fail hc hb⟩

/-! ## Refinement -/

/-- Two ends of executions agree: both went well in one state, or both failed in related ways. -/
inductive Agree (R : State → Failure → State → Failure → Prop) :
    State → Option Failure → State → Option Failure → Prop where

  | done (s : State) : Agree R s none s none

  | failed {s s' : State} {e e' : Failure} : R s e s' e' → Agree R s (some e) s' (some e')

/-- Every execution of the first forest has one of the second that agrees with it. -/
def Refines (flushEach : Bool) (R : State → Failure → State → Failure → Prop)
    (ts us : Forest) : Prop :=
  ∀ ⦃s s₁ e₁⦄, Exec flushEach ts s s₁ e₁ →
    ∃ s₂ e₂, Exec flushEach us s s₂ e₂ ∧ Agree R s₁ e₁ s₂ e₂

variable {R : State → Failure → State → Failure → Prop} {ts' us' : Forest}

theorem Agree.symm (h : Agree R s₁ e₁ s₂ e₂) :
    Agree (fun s' e' s e => R s e s' e') s₂ e₂ s₁ e₁ := by
  cases h with
  | done => exact .done _
  | failed hr => exact .failed hr

/-- Forests whose executions always end refine each other if these ends agree. -/
theorem refines_of_exists_agree
    (h : ∀ s, ∃ s₁ e₁ s₂ e₂, Exec flushEach ts s s₁ e₁ ∧ Exec flushEach us s s₂ e₂ ∧
      Agree R s₁ e₁ s₂ e₂) :
    Refines flushEach R ts us ∧ Refines flushEach (fun s' e' s e => R s e s' e') us ts := by
  constructor
  · intro s s₁ e₁ he
    obtain ⟨s₁', e₁', s₂, e₂, h₁, h₂, ha⟩ := h s
    obtain ⟨rfl, rfl⟩ := he.unique h₁
    exact ⟨s₂, e₂, h₂, ha⟩
  · intro s s₂ e₂ he
    obtain ⟨s₁, e₁, s₂', e₂', h₁, h₂, ha⟩ := h s
    obtain ⟨rfl, rfl⟩ := he.unique h₂
    exact ⟨s₁, e₁, h₁, ha.symm⟩

theorem Refines.nil : Refines flushEach R nil nil := by
  intro s s₁ e₁ h
  cases h
  exact ⟨s, none, .nil, .done s⟩

theorem Refines.append (ht : Refines flushEach R ts ts') (hu : Refines flushEach R us us') :
    Refines flushEach R (ts ++ us) (ts' ++ us') := by
  intro s s₁ e₁ h
  rcases h.of_append with ⟨s₂, h₁, h₂⟩ | ⟨e, rfl, h₁⟩
  · obtain ⟨s₃, e₃, h₃, ha⟩ := ht h₁
    cases ha
    obtain ⟨s₄, e₄, h₄, ha⟩ := hu h₂
    exact ⟨s₄, e₄, h₃.append_of_none h₄, ha⟩
  · obtain ⟨s₃, e₃, h₃, ha⟩ := ht h₁
    cases ha with
    | failed hr => exact ⟨s₃, _, h₃.append_of_some, .failed hr⟩

theorem Refines.leaf {i : Instr} (hR : ∀ s e, R s (i, e) s (i, e))
    (h : Refines flushEach R ts ts') : Refines flushEach R (leaf i ts) (leaf i ts') := by
  intro s s₁ e₁ he
  cases he with
  | leaf hi he =>
    obtain ⟨s₂, e₂, h₂, ha⟩ := h he
    exact ⟨s₂, e₂, .leaf hi h₂, ha⟩
  | fault hi => exact ⟨s₁, _, .fault hi, .failed (hR _ _)⟩

theorem Refines.loop {start stop start' stop' : Instr} (ht : Refines flushEach R ts ts')
    (hu : Refines flushEach R us us') :
    Refines flushEach R (loop start ts stop us) (loop start' ts' stop' us') := by
  intro s s₁ e₁ he
  generalize hv : Forest.loop start ts stop us = vs at he
  induction he with
  | nil => cases hv
  | leaf => cases hv
  | fault => cases hv
  | exit hc h _ =>
    cases hv
    obtain ⟨s₂, e₂, h₂, ha⟩ := hu h
    exact ⟨s₂, e₂, .exit hc h₂, ha⟩
  | again hc hb _ _ ih =>
    cases hv
    obtain ⟨s₂, e₂, h₂, ha⟩ := ht hb
    cases ha
    obtain ⟨s₃, e₃, h₃, ha⟩ := ih rfl
    exact ⟨s₃, e₃, .again hc h₂ h₃, ha⟩
  | fail hc hb _ =>
    cases hv
    obtain ⟨s₂, e₂, h₂, ha⟩ := ht hb
    cases ha with
    | failed hr => exact ⟨s₂, _, .fail hc h₂, .failed hr⟩

end Forest

end Brainfuck
