import Mathlib.Algebra.Group.Nat.Defs
import Mathlib.Data.List.SplitBy
import Brainfuck.Compile
import Brainfuck.Proofs.Forest

/-! # Emitted programs stand for their operators

A run of operators can be read off its instruction, so no operator is lost or moved when runs
become instructions. The brackets stay one by one, so an accepted source yields a balanced
program.
-/

namespace Brainfuck

def Instr.operators (i : Instr) : List Operator :=
  match i.opcode with
  | .add =>
    List.replicate i.value.toInt.toNat .increment ++
      List.replicate (-i.value.toInt).toNat .decrement
  | .move =>
    List.replicate i.value.toInt.toNat .right ++ List.replicate (-i.value.toInt).toNat .left
  | .read => List.replicate i.value.toInt.toNat .read
  | .write => List.replicate i.value.toInt.toNat .write
  | .jumpIfZero => [.loopStart]
  | .jumpUnlessZero => [.loopEnd]
  | .clear | .scanLeft | .scanRight | .multiply => []

def Instr.IsEmitted (i : Instr) : Prop :=
  ∃ n op, 0 < n ∧ n < 2 ^ 63 ∧ i ∈ Operator.instrs n op

variable {n : Nat} {i : Instr} {bytes run : List UInt8} {op : Operator}

theorem operators_instrs (hn : n < 2 ^ 63) (op : Operator) :
    (op.instrs n).flatMap Instr.operators = List.replicate n op := by
  have hpos := Int64.toInt_ofNat_of_lt hn
  have hneg := Int64.toInt_neg_ofNat_of_le (Nat.le_of_lt hn)
  cases op <;> simp [Operator.instrs, Instr.operators, hpos, hneg, List.flatMap_replicate]

theorem instrs_of_bracket?_eq_none (hi : i ∈ op.instrs n) (hb : i.bracket? = none) :
    op.bracket? = none ∧ op.instrs n = [i] := by
  cases op with
  | loopStart =>
    rw [(List.mem_replicate.1 hi).2] at hb
    cases hb
  | loopEnd =>
    rw [(List.mem_replicate.1 hi).2] at hb
    cases hb
  | _ => exact ⟨rfl, congrArg ([·]) (List.mem_singleton.1 hi).symm⟩

theorem operators_ne_nil (h : i.IsEmitted) : i.operators ≠ [] := by
  obtain ⟨n, op, h0, hn, hi⟩ := h
  have hpos := Int64.toInt_ofNat_of_lt hn
  have hneg := Int64.toInt_neg_ofNat_of_le (Nat.le_of_lt hn)
  cases op <;> simp [Operator.instrs] at hi <;> simp [Instr.operators, hi, hpos, hneg] <;> omega

theorem exists_replicate_of_mem_splitBy (h : run ∈ bytes.splitBy (· == ·)) :
    ∃ n b, run = List.replicate (n + 1) b ∧ n + 1 ≤ bytes.length := by
  have hchain := List.isChain_of_mem_splitBy h
  have hlen := (List.sublist_flatten_of_mem h).length_le
  rw [List.flatten_splitBy] at hlen
  cases run with
  | nil => exact (List.ne_nil_of_mem_splitBy h rfl).elim
  | cons b rest =>
    refine ⟨rest.length, b, List.eq_replicate_iff.2 ⟨rfl, ?_⟩, hlen⟩
    refine hchain.induction (· = b) _ ?_ fun _ => rfl
    rintro x y hxy rfl
    exact (beq_iff_eq.1 hxy).symm

theorem runInstrs_replicate (n : Nat) (b : UInt8) :
    runInstrs (List.replicate (n + 1) b) =
      (Operator.ofByte? b).elim [] (Operator.instrs (n + 1)) := by
  rw [List.replicate_succ, runInstrs, List.length_replicate]
  cases Operator.ofByte? b <;> rfl

theorem operators_runInstrs (hl : bytes.length < 2 ^ 63) (hrun : run ∈ bytes.splitBy (· == ·)) :
    (runInstrs run).flatMap Instr.operators = run.filterMap Operator.ofByte? := by
  obtain ⟨n, b, rfl, hn⟩ := exists_replicate_of_mem_splitBy hrun
  rw [runInstrs_replicate, List.filterMap_replicate]
  cases Operator.ofByte? b with
  | none => rfl
  | some op => exact operators_instrs (by omega) op

theorem operators_ofBytes (hl : bytes.length < 2 ^ 63) :
    (Program.ofBytes bytes).toList.flatMap Instr.operators = bytes.filterMap Operator.ofByte? := by
  rw [Program.ofBytes, List.flatMap_assoc, List.flatMap_congr fun _ => operators_runInstrs hl,
    List.flatMap_def, ← List.filterMap_flatten, List.flatten_splitBy]

theorem exists_instrs_of_mem_ofBytes (hi : i ∈ (Program.ofBytes bytes).toList) :
    ∃ n op, 0 < n ∧ n ≤ bytes.length ∧ i ∈ Operator.instrs n op := by
  obtain ⟨run, hrun, hi⟩ := List.mem_flatMap.1 hi
  obtain ⟨n, b, rfl, hn⟩ := exists_replicate_of_mem_splitBy hrun
  rw [runInstrs_replicate] at hi
  cases hb : Operator.ofByte? b with
  | none => simp [hb] at hi
  | some op =>
    rw [hb] at hi
    exact ⟨n + 1, op, Nat.succ_pos n, hn, hi⟩

theorem isEmitted_of_mem_ofBytes (hl : bytes.length < 2 ^ 63)
    (hi : i ∈ (Program.ofBytes bytes).toList) : i.IsEmitted := by
  obtain ⟨n, op, h0, hn, hi⟩ := exists_instrs_of_mem_ofBytes hi
  exact ⟨n, op, h0, Nat.lt_of_le_of_lt hn hl, hi⟩

theorem length_runInstrs_le (run : List UInt8) : (runInstrs run).length ≤ run.length := by
  fun_cases runInstrs run with
  | case1 => exact Nat.le_refl _
  | case2 => exact Nat.zero_le _
  | case3 b rest op => cases op <;> simp [Operator.instrs]

theorem length_flatMap_runInstrs_le (runs : List (List UInt8)) :
    (runs.flatMap runInstrs).length ≤ runs.flatten.length := by
  induction runs with
  | nil => exact Nat.le_refl _
  | cons run runs ih =>
    have hrun := length_runInstrs_le run
    simp only [List.flatMap_cons, List.flatten_cons, List.length_append]
    omega

theorem size_ofBytes_le (bytes : List UInt8) : (Program.ofBytes bytes).size ≤ bytes.length := by
  have h := length_flatMap_runInstrs_le (bytes.splitBy (· == ·))
  rwa [List.flatten_splitBy] at h

theorem size_ofBytes_lt (hl : bytes.length < 2 ^ 63) :
    (Program.ofBytes bytes).size < 2 ^ 64 := by
  have hle := size_ofBytes_le bytes
  omega

/-! ## Balance -/

def Matching.counts (m : Matching) : Nat × Nat :=
  (m.waiting.length, m.strays.length)

def Bracket.count : Nat × Nat → Bracket → Nat × Nat
  | (w, s), .opening => (w + 1, s)
  | (0, s), .closing => (0, s + 1)
  | (w + 1, s), .closing => (w, s)

/-- How many brackets have no partner does not depend on what stands between them. -/
theorem counts_foldl (symbols : List (Option Bracket)) (n : Nat) (m : Matching) :
    ((symbols.zipIdx n).foldl Matching.step m).counts =
      (symbols.filterMap id).foldl Bracket.count m.counts := by
  induction symbols generalizing n m with
  | nil => rfl
  | cons symbol symbols ih =>
    rw [List.zipIdx_cons, List.foldl_cons, ih]
    obtain ⟨pairs, waiting, strays⟩ := m
    cases symbol with
    | none => rfl
    | some b =>
      cases b with
      | opening => rfl
      | closing => cases waiting <;> rfl

theorem brackets_operators (i : Instr) :
    i.operators.filterMap Operator.bracket? = i.bracket?.toList := by
  unfold Instr.operators Instr.bracket?
  cases i.opcode <;> simp [Operator.bracket?, Opcode.bracket?]

theorem counts_matching (p : Program) :
    p.matching.counts =
      ((p.toList.flatMap Instr.operators).filterMap Operator.bracket?).foldl Bracket.count
        (0, 0) := by
  rw [Program.matching, Matching.ofList, counts_foldl, List.filterMap_flatMap, List.filterMap_map]
  simp only [brackets_operators]
  rw [← List.filterMap_eq_flatMap_toList]
  rfl

theorem counts_matchBytes (bytes : List UInt8) :
    (matchBytes bytes).counts =
      ((bytes.filterMap Operator.ofByte?).filterMap Operator.bracket?).foldl Bracket.count
        (0, 0) := by
  rw [matchBytes, Matching.ofList, counts_foldl, List.filterMap_map, List.filterMap_filterMap]
  rfl

theorem counts_of_mismatch? (h : mismatch? bytes = none) :
    (matchBytes bytes).counts = (0, 0) := by
  simp only [mismatch?] at h
  split at h
  · rename_i hlt
    rw [Option.map_eq_none_iff, List.getLast?_eq_none_iff] at h
    simp [h] at hlt
  · split at h
    · rename_i hlt
      rw [Option.map_eq_none_iff, List.head?_eq_none_iff] at h
      simp [h] at hlt
    · rename_i hle _
      rw [Option.map_eq_none_iff, List.getLast?_eq_none_iff] at h
      simpa [Matching.counts, h] using hle

/-- Bytes are accepted if and only if a scan leaves no bracket without a partner. -/
theorem mismatch?_eq_none_iff : mismatch? bytes = none ↔
    (matchBytes bytes).waiting = [] ∧ (matchBytes bytes).strays = [] := by
  constructor
  · intro h
    simpa [Matching.counts] using counts_of_mismatch? h
  · rintro ⟨hw, hs⟩
    simp [mismatch?, hw, hs]

theorem Program.isBalanced_iff_counts {p : Program} :
    p.IsBalanced ↔ p.matching.counts = (0, 0) := by
  simp [IsBalanced, Matching.counts]

theorem isBalanced_ofBytes (hl : bytes.length < 2 ^ 63) (h : mismatch? bytes = none) :
    (Program.ofBytes bytes).IsBalanced := by
  rw [Program.isBalanced_iff_counts, counts_matching, operators_ofBytes hl, ← counts_matchBytes,
    counts_of_mismatch? h]

/-! ## Accepted sources -/

variable {code : String} {c : Compiled}

theorem length_operatorBytes_le (code : String) :
    (operatorBytes code).length ≤ code.utf8ByteSize :=
  List.length_filter_le ..

theorem length_operatorBytes_lt (hl : code.utf8ByteSize < 2 ^ 63) :
    (operatorBytes code).length < 2 ^ 63 :=
  Nat.lt_of_le_of_lt (length_operatorBytes_le code) hl

theorem compile_eq_ok (h : compile code = .ok c) :
    mismatch? (operatorBytes code) = none ∧
      c.program = (Program.ofBytes (operatorBytes code)).foldLoops.program.linkJumps := by
  simp only [compile] at h
  split at h
  · cases h
  · rename_i hm
    cases h
    exact ⟨hm, rfl⟩

theorem events_of_compile (h : compile code = .ok c) :
    c.events = (Program.ofBytes (operatorBytes code)).foldLoops.events.push
      (.compiled code.utf8ByteSize (operatorBytes code).length
        (Program.ofBytes (operatorBytes code)).size c.program.size) := by
  simp only [compile] at h
  split at h
  · cases h
  · cases h
    rfl

theorem compilePlain_eq_ok (h : compilePlain code = .ok c) :
    mismatch? (operatorBytes code) = none ∧
      c.program = (Program.ofBytes (operatorBytes code)).linkJumps := by
  simp only [compilePlain] at h
  split at h
  · cases h
  · rename_i hm
    cases h
    exact ⟨hm, rfl⟩

theorem exists_compile (h : mismatch? (operatorBytes code) = none) :
    ∃ c, compile code = .ok c ∧
      c.program = (Program.ofBytes (operatorBytes code)).foldLoops.program.linkJumps := by
  simp [compile, h]

theorem exists_compilePlain (h : mismatch? (operatorBytes code) = none) :
    ∃ c, compilePlain code = .ok c ∧
      c.program = (Program.ofBytes (operatorBytes code)).linkJumps := by
  simp [compilePlain, h]

end Brainfuck
