import Brainfuck.Proofs.ClosedForms
import Brainfuck.Proofs.Control
import Brainfuck.Proofs.Emission

/-! # Folding keeps what a program does

A program and its folding end on the same streams. Both end well, or with the same stream error,
in the same state, or both leave the tape; if one does not end, neither does the other.
-/

namespace Brainfuck

namespace Run

/-- The runs end alike. If both leave the tape, only their streams have to be the same. -/
def Agrees (r r' : Run) : Prop :=
  r.machine.streams = r'.machine.streams ∧
    match r.error?, r'.error? with
    | some (.outOfRange ..), some (.outOfRange ..) => True
    | e?, e?' => e? = e?' ∧ r.machine.tape = r'.machine.tape ∧ r.machine.dp = r'.machine.dp

theorem Agrees.of_eq {r r' : Run} (hs : r.machine.streams = r'.machine.streams)
    (he : r.error? = r'.error?) (ht : r.machine.tape = r'.machine.tape)
    (hd : r.machine.dp = r'.machine.dp) : r.Agrees r' := by
  refine ⟨hs, ?_⟩
  split
  · trivial
  · exact ⟨he, ht, hd⟩

theorem Agrees.of_outOfRange {r r' : Run} {ip ip' : UInt64} {t t' : Int64}
    (hs : r.machine.streams = r'.machine.streams) (he : r.error? = some (.outOfRange ip t))
    (he' : r'.error? = some (.outOfRange ip' t')) : r.Agrees r' := by
  refine ⟨hs, ?_⟩
  rw [he, he']
  trivial

end Run

/-- On all streams, a run of one program ends if and only if one of the other does, and then they
end alike. -/
def Program.Agrees (p q : Program) : Prop :=
  ∀ (flushEach : Bool) (streams : Streams),
    ((∃ r, p.Ends flushEach (.onStreams streams) r) ↔
        ∃ r, q.Ends flushEach (.onStreams streams) r) ∧
      ∀ r r', p.Ends flushEach (.onStreams streams) r →
        q.Ends flushEach (.onStreams streams) r' → r.Agrees r'

namespace Forest

variable {ts : Forest}

theorem size_fold_le (ts : Forest) : ts.fold.size ≤ ts.size := by
  induction ts with
  | nil => exact Nat.le_refl _
  | leaf i rest ih =>
    simp only [fold, size_leaf]
    omega
  | loop start body stop rest ihb ihr =>
    unfold fold
    split
    · rename_i form hf
      obtain ⟨is, hl, hf⟩ := Option.bind_eq_some_iff.1 hf
      have hle := length_le_of_closedForm? hf
      rw [eq_ofLeaves_of_leaves? hl]
      simp only [size_append, size_ofLeaves, size_loop]
      omega
    · simp only [size_loop]
      omega

end Forest

namespace Program

open Forest

variable {p : Program} {flushEach : Bool} {s s' : State} {r r' : Run}

theorem forest_foldLoops (p : Program) : p.foldLoops.program.forest = p.forest.fold := by
  rw [foldLoops_eq, forest]
  exact ofList_flatten (isMatched_fold p.isMatched_forest)

theorem IsBalanced.foldLoops (hb : p.IsBalanced) : p.foldLoops.program.IsBalanced := by
  rw [isBalanced_iff, forest_foldLoops, unmatched_fold]
  exact isBalanced_iff.1 hb

theorem size_foldLoops_le (p : Program) : p.foldLoops.program.size ≤ p.size := by
  have hle := size_fold_le p.forest
  rw [← forest_foldLoops, ← length_flatten, ← length_flatten, flatten_forest, flatten_forest] at hle
  exact hle

def Counterparts (p : Program) (r r' : Run) : Prop :=
  ∃ s x s' x', r.EndsWith p.linkJumps s x ∧ r'.EndsWith p.foldLoops.program.linkJumps s' x' ∧
    Agree (Counterpart p.toList) s x s' x'

theorem exists_folded_ends (hb : p.IsBalanced) (hl : p.size < 2 ^ 64)
    (h : p.linkJumps.Ends flushEach ⟨s, 0⟩ r) :
    ∃ r', p.foldLoops.program.linkJumps.Ends flushEach ⟨s, 0⟩ r' ∧ p.Counterparts r r' := by
  have hl' := Nat.lt_of_le_of_lt p.size_foldLoops_le hl
  have hi : p.forest.flatten <:+: p.toList := by simp
  obtain ⟨hto, -⟩ := refines_fold flushEach p.isMatched_forest hi
  obtain ⟨s₁, x, he, hw⟩ := exists_exec_of_ends hb hl h
  obtain ⟨s₂, x', he', ha⟩ := hto he
  rw [← forest_foldLoops] at he'
  obtain ⟨r', hr', hw'⟩ := exists_ends_of_exec hb.foldLoops hl' he'
  exact ⟨r', hr', s₁, x, s₂, x', hw, hw', ha⟩

theorem exists_plain_ends (hb : p.IsBalanced) (hl : p.size < 2 ^ 64)
    (h : p.foldLoops.program.linkJumps.Ends flushEach ⟨s, 0⟩ r') :
    ∃ r, p.linkJumps.Ends flushEach ⟨s, 0⟩ r ∧ p.Counterparts r r' := by
  have hl' := Nat.lt_of_le_of_lt p.size_foldLoops_le hl
  have hi : p.forest.flatten <:+: p.toList := by simp
  obtain ⟨-, hof⟩ := refines_fold flushEach p.isMatched_forest hi
  obtain ⟨s₂, x', he', hw'⟩ := exists_exec_of_ends hb.foldLoops hl' h
  rw [forest_foldLoops] at he'
  obtain ⟨s₁, x, he, ha⟩ := hof he'
  obtain ⟨r, hr, hw⟩ := exists_ends_of_exec hb hl he
  exact ⟨r, hr, s₁, x, s₂, x', hw, hw', ha.symm⟩

theorem Counterparts.agrees (h : p.Counterparts r r') : r'.Agrees r := by
  obtain ⟨s, x, s', x', ⟨ip, n, rfl, -⟩, ⟨ip', n', rfl, -⟩, ha⟩ := h
  cases ha with
  | done => exact .of_eq rfl rfl rfl rfl
  | failed hr =>
    cases hr with
    | @same i i' s e hi =>
      cases e with
      | outOfRange target => exact .of_outOfRange rfl rfl rfl
      | stream e => exact .of_eq rfl rfl rfl rfl
    | countdown _ _ _ _ _ hs _ _ => exact .of_outOfRange (by simp [hs]) rfl rfl

theorem foldLoops_agrees (hb : p.IsBalanced) (hl : p.size < 2 ^ 64) :
    p.foldLoops.program.linkJumps.Agrees p.linkJumps := by
  intro flushEach streams
  constructor
  · constructor
    · rintro ⟨r', hr'⟩
      obtain ⟨r, hr, -⟩ := exists_plain_ends hb hl hr'
      exact ⟨r, hr⟩
    · rintro ⟨r, hr⟩
      obtain ⟨r', hr', -⟩ := exists_folded_ends hb hl hr
      exact ⟨r', hr'⟩
  · intro r' r hr' hr
    obtain ⟨r'', hr'', hc⟩ := exists_folded_ends hb hl hr
    obtain rfl := hr'.unique hr''
    exact hc.agrees

end Program

/-- No run can tell a program from its folding, so none can tell the two compilations of a source
apart. -/
theorem optimizer_agrees :
    (∀ p : Program, p.IsBalanced → p.size < 2 ^ 63 →
      p.foldLoops.program.linkJumps.Agrees p.linkJumps) ∧
    ∀ (code : String) (c : Compiled), code.utf8ByteSize < 2 ^ 63 → compile code = .ok c →
      ∃ c', compilePlain code = .ok c' ∧ c.program.Agrees c'.program := by
  constructor
  · intro p hb hl
    exact Program.foldLoops_agrees hb (by omega)
  · intro code c hl hc
    obtain ⟨hm, hp⟩ := compile_eq_ok hc
    obtain ⟨c', hc', hp'⟩ := exists_compilePlain hm
    have hlen := length_operatorBytes_lt hl
    refine ⟨c', hc', ?_⟩
    rw [hp, hp']
    exact Program.foldLoops_agrees (isBalanced_ofBytes hlen hm) (size_ofBytes_lt hlen)

theorem optimizer_agrees_clearLoops :
    (let p : Program := #[{ opcode := .jumpIfZero }, { opcode := .add, value := -3 },
      { opcode := .jumpUnlessZero }]
    p.IsBalanced ∧ p.size < 2 ^ 63 ∧ p.foldLoops.program.linkJumps.Agrees p.linkJumps) ∧
      ∃ c c', compile ",[-].[->+<]" = .ok c ∧ compilePlain ",[-].[->+<]" = .ok c' ∧
        c.program.Agrees c'.program := by
  constructor
  · intro p
    have hb : p.IsBalanced := ⟨by decide, by decide⟩
    have hl : p.size < 2 ^ 63 := by decide
    exact ⟨hb, hl, optimizer_agrees.1 p hb hl⟩
  · have hm : mismatch? (operatorBytes ",[-].[->+<]") = none := by decide
    obtain ⟨c, hc, -⟩ := exists_compile hm
    obtain ⟨c', hc', ha⟩ := optimizer_agrees.2 ",[-].[->+<]" c (by decide) hc
    exact ⟨c, c', hc, hc', ha⟩

end Brainfuck
