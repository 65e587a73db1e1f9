import Mathlib.Data.List.Flatten
import Brainfuck.Proofs.Emission
import Brainfuck.Proofs.Linking

/-! # Emitted programs are canonical

No two programs with maximal runs stand for the same operators, so emission can be undone in both
directions. What linking sets is not part of what a program stands for, and an accepted source is
known by its unfolded program up to its comments.
-/

namespace Brainfuck

/-- An instruction for operators, whose words are as emission sets them. -/
def Instr.IsCanonical (i : Instr) : Prop :=
  i.offset = 0 ∧
    match i.opcode with
    | .add | .move => i.value ≠ 0
    | .read | .write => 0 < i.value
    | .jumpIfZero | .jumpUnlessZero => i.value = 0
    | .clear | .scanLeft | .scanRight | .multiply => False

/-- The second instruction does not go on with the run of the first. -/
def Instr.EndsRun (i j : Instr) : Prop :=
  ∀ op ∈ i.operators, op ∈ j.operators → op.bracket? ≠ none

namespace Program

/-- A program of canonical instructions whose runs are maximal. -/
structure IsCanonical (p : Program) : Prop where
  each : ∀ i ∈ p.toList, i.IsCanonical
  maximal : p.toList.IsChain Instr.EndsRun

def expansion (p : Program) : List UInt8 :=
  (p.toList.flatMap Instr.operators).map Operator.toByte

end Program

variable {i j : Instr} {is : List Instr} {op : Operator} {n : Nat} {bytes rest run : List UInt8}

/-! ## From a canonical program to its bytes and back -/

theorem Operator.toByte_injective : Function.Injective Operator.toByte := by
  intro op op' h
  have ho := Operator.ofByte?_toByte op
  rw [h, Operator.ofByte?_toByte] at ho
  exact (Option.some.inj ho).symm

theorem exists_eq_ofNat_of_ne_zero {v : Int64} (h : v ≠ 0) :
    ∃ n : Nat, 0 < n ∧ (v = .ofNat n ∧ v.toInt = n ∨ v = -.ofNat n ∧ v.toInt = -n) := by
  have hz : v.toInt ≠ 0 := fun hz => h (Int64.toInt_inj.1 hz)
  obtain ⟨n, hn | hn⟩ := Int.eq_nat_or_neg v.toInt
  · refine ⟨n, by omega, .inl ⟨?_, hn⟩⟩
    rw [← Int64.ofInt_eq_ofNat, ← hn, Int64.ofInt_toInt]
  · refine ⟨n, by omega, .inr ⟨?_, hn⟩⟩
    rw [← Int64.ofInt_eq_ofNat, ← Int64.ofInt_neg, ← hn, Int64.ofInt_toInt]

theorem exists_eq_ofNat_of_pos {v : Int64} (h : 0 < v) :
    ∃ n : Nat, 0 < n ∧ v = .ofNat n ∧ v.toInt = n := by
  have hpos : 0 < v.toInt := Int64.lt_iff_toInt_lt.1 h
  have hne : v ≠ 0 := fun hz => by simp [hz] at hpos
  obtain ⟨n, hn, hv | hv⟩ := exists_eq_ofNat_of_ne_zero hne
  · exact ⟨n, hn, hv⟩
  · omega

/-- A canonical instruction comes from one run. -/
theorem Instr.IsCanonical.exists_instrs (h : i.IsCanonical) :
    ∃ n op, 0 < n ∧ op.instrs n = [i] ∧ i.operators = List.replicate n op := by
  obtain ⟨opcode, value, offset⟩ := i
  obtain ⟨rfl, h⟩ := h
  cases opcode with
  | add =>
    obtain ⟨n, hn, ⟨rfl, ht⟩ | ⟨rfl, ht⟩⟩ := exists_eq_ofNat_of_ne_zero h
    · exact ⟨n, .increment, hn, rfl, by simp [operators, ht]⟩
    · exact ⟨n, .decrement, hn, rfl, by simp [operators, ht]⟩
  | move =>
    obtain ⟨n, hn, ⟨rfl, ht⟩ | ⟨rfl, ht⟩⟩ := exists_eq_ofNat_of_ne_zero h
    · exact ⟨n, .right, hn, rfl, by simp [operators, ht]⟩
    · exact ⟨n, .left, hn, rfl, by simp [operators, ht]⟩
  | read =>
    obtain ⟨n, hn, rfl, ht⟩ := exists_eq_ofNat_of_pos h
    exact ⟨n, .read, hn, rfl, by simp [operators, ht]⟩
  | write =>
    obtain ⟨n, hn, rfl, ht⟩ := exists_eq_ofNat_of_pos h
    exact ⟨n, .write, hn, rfl, by simp [operators, ht]⟩
  | jumpIfZero =>
    obtain rfl : value = 0 := h
    exact ⟨1, .loopStart, Nat.one_pos, rfl, rfl⟩
  | jumpUnlessZero =>
    obtain rfl : value = 0 := h
    exact ⟨1, .loopEnd, Nat.one_pos, rfl, rfl⟩
  | clear | scanLeft | scanRight | multiply => exact h.elim

theorem toList_ofBytes_append (h : ∀ b ∈ bytes.getLast?, ∀ b' ∈ rest.head?, b ≠ b') :
    (Program.ofBytes (bytes ++ rest)).toList =
      (Program.ofBytes bytes).toList ++ (Program.ofBytes rest).toList := by
  simp only [Program.ofBytes]
  rw [List.splitBy_append, List.flatMap_append]
  intro b hb b' hb'
  exact beq_false_of_ne (h b hb b' hb')

theorem toList_ofBytes_replicate (hn : 0 < n) (op : Operator) :
    (Program.ofBytes (List.replicate n op.toByte)).toList = op.instrs n := by
  obtain ⟨n, rfl⟩ := Nat.exists_eq_add_one_of_ne_zero (Nat.ne_of_gt hn)
  have hs : (List.replicate (n + 1) op.toByte).splitBy (· == ·) =
      [List.replicate (n + 1) op.toByte] :=
    List.splitBy_of_isChain (by simp) (List.isChain_replicate_of_rel _ BEq.rfl)
  simp [Program.ofBytes, hs, runInstrs_replicate]

/-- A run becomes its instructions, wherever it ends. -/
theorem toList_ofBytes_run (hn : 0 < n) (hr : op.toByte ∉ rest.head?) :
    (Program.ofBytes (List.replicate n op.toByte ++ rest)).toList =
      op.instrs n ++ (Program.ofBytes rest).toList := by
  rw [toList_ofBytes_append, toList_ofBytes_replicate hn]
  rintro b hb b' hb' rfl
  have hb := List.eq_of_mem_replicate (List.mem_of_mem_getLast? hb)
  exact hr (hb ▸ hb')

theorem exists_eq_replicate_append (b : UInt8) (bytes : List UInt8) :
    ∃ n rest, bytes = List.replicate n b ++ rest ∧ b ∉ rest.head? := by
  induction bytes with
  | nil => exact ⟨0, [], rfl, by simp⟩
  | cons c bytes ih =>
    by_cases hc : c = b
    · obtain ⟨n, rest, rfl, hr⟩ := ih
      exact ⟨n + 1, rest, by rw [hc, List.replicate_succ, List.cons_append], hr⟩
    · exact ⟨0, c :: bytes, rfl, by simpa using hc⟩

theorem instrs_of_bracket? (hop : op.bracket? ≠ none) :
    ∃ i, ∀ n, op.instrs n = List.replicate n i := by
  cases op with
  | loopStart | loopEnd => exact ⟨_, fun _ => rfl⟩
  | _ => exact absurd rfl hop

/-- A bracket never joins the run that follows it. -/
theorem toList_ofBytes_bracket (hop : op.bracket? ≠ none) (rest : List UInt8) :
    (Program.ofBytes (op.toByte :: rest)).toList =
      op.instrs 1 ++ (Program.ofBytes rest).toList := by
  -- What follows may begin with the same bracket, so the whole run is taken at once.
  obtain ⟨n, rest, rfl, hr⟩ := exists_eq_replicate_append op.toByte rest
  cases n with
  | zero => exact toList_ofBytes_run Nat.one_pos hr
  | succ n =>
    obtain ⟨i, hi⟩ := instrs_of_bracket? hop
    have h := toList_ofBytes_run (Nat.succ_pos (n + 1)) hr
    rw [hi] at h
    rw [toList_ofBytes_run (Nat.succ_pos n) hr, hi, hi]
    exact h

theorem mem_operators_of_head? (hj : j.IsCanonical)
    (h : op.toByte ∈ (((j :: is).flatMap Instr.operators).map Operator.toByte).head?) :
    op ∈ j.operators := by
  obtain ⟨n, op', hn, -, hops⟩ := hj.exists_instrs
  obtain ⟨n, rfl⟩ := Nat.exists_eq_add_one_of_ne_zero (Nat.ne_of_gt hn)
  have hop : op' = op := Operator.toByte_injective (by simpa [hops, List.replicate_succ] using h)
  simp [hops, hop]

/-- Emission gives a canonical program back. -/
theorem toList_ofBytes_expansion (hc : ∀ i ∈ is, i.IsCanonical) (hm : is.IsChain Instr.EndsRun) :
    (Program.ofBytes ((is.flatMap Instr.operators).map Operator.toByte)).toList = is := by
  induction is with
  | nil => rfl
  | cons i is ih =>
    rw [List.forall_mem_cons] at hc
    have hrest := ih hc.2 hm.tail
    obtain ⟨n, op, hn, hi, hops⟩ := hc.1.exists_instrs
    rw [List.flatMap_cons, hops, List.map_append, List.map_replicate]
    by_cases hop : op.bracket? = none
    · rw [toList_ofBytes_run hn, hi, hrest, List.singleton_append]
      cases is with
      | nil => simp
      | cons j is =>
        -- If the next operator were the same, the next instruction would go on with the run.
        intro hj
        have hmem := mem_operators_of_head? (List.forall_mem_cons.1 hc.2).1 hj
        have hend := (List.isChain_cons_cons.1 hm).1
        exact hend op (by simp [hops, Nat.ne_of_gt hn]) hmem hop
    · obtain ⟨x, hx⟩ := instrs_of_bracket? hop
      obtain rfl : n = 1 := by simpa [hx] using congrArg List.length hi
      rw [List.replicate_one, List.singleton_append, toList_ofBytes_bracket hop, hi, hrest,
        List.singleton_append]

/-! ## Emitted programs -/

theorem Instr.IsEmitted.isCanonical (h : i.IsEmitted) : i.IsCanonical := by
  obtain ⟨n, op, h0, hn, hi⟩ := h
  have hpos : 0 < Int64.ofNat n := by
    rw [Int64.lt_iff_toInt_lt, Int64.toInt_ofNat_of_lt hn]
    exact Int.natCast_pos.2 h0
  have hne : Int64.ofNat n ≠ 0 := (Int64.ne_of_lt hpos).symm
  have hneg : -Int64.ofNat n ≠ 0 := Int64.neg_ne_zero.2 hne
  cases op with
  | loopStart | loopEnd =>
    obtain ⟨-, rfl⟩ := List.mem_replicate.1 hi
    exact ⟨rfl, rfl⟩
  | increment | right =>
    obtain rfl := List.mem_singleton.1 hi
    exact ⟨rfl, hne⟩
  | decrement | left =>
    obtain rfl := List.mem_singleton.1 hi
    exact ⟨rfl, hneg⟩
  | read | write =>
    obtain rfl := List.mem_singleton.1 hi
    exact ⟨rfl, hpos⟩

theorem eq_toByte_of_mem_runInstrs (hl : bytes.length < 2 ^ 63)
    (hrun : run ∈ bytes.splitBy (· == ·)) (hi : i ∈ runInstrs run) (hop : op ∈ i.operators) :
    ∀ b ∈ run, b = op.toByte := by
  have hmem : op ∈ run.filterMap Operator.ofByte? := by
    rw [← operators_runInstrs hl hrun]
    exact List.mem_flatMap_of_mem hi hop
  obtain ⟨b, hb, hop⟩ := List.mem_filterMap.1 hmem
  obtain ⟨n, b', rfl, -⟩ := exists_replicate_of_mem_splitBy hrun
  intro x hx
  rw [← Operator.ofByte?_eq_some_iff, List.eq_of_mem_replicate hx, ← List.eq_of_mem_replicate hb,
    hop]

theorem isChain_runInstrs (hrun : run ∈ bytes.splitBy (· == ·)) :
    (runInstrs run).IsChain Instr.EndsRun := by
  obtain ⟨n, b, rfl, -⟩ := exists_replicate_of_mem_splitBy hrun
  rw [runInstrs_replicate]
  cases Operator.ofByte? b with
  | none => exact .nil
  | some op =>
    cases op with
    | loopStart | loopEnd =>
      refine List.isChain_replicate_of_rel _ fun op hop _ => ?_
      obtain rfl := List.mem_singleton.1 hop
      exact Option.some_ne_none _
    | _ => exact .singleton _

theorem endsRun_of_mem_runInstrs {run' : List UInt8} (hl : bytes.length < 2 ^ 63)
    (hrun : run ∈ bytes.splitBy (· == ·)) (hrun' : run' ∈ bytes.splitBy (· == ·))
    (h : ∃ (ha : run ≠ []) (hb : run' ≠ []), (run.getLast ha == run'.head hb) = false)
    (hi : i ∈ runInstrs run) (hj : j ∈ runInstrs run') : i.EndsRun j := by
  intro op hop hop'
  obtain ⟨ha, hb, hne⟩ := h
  have hlast := eq_toByte_of_mem_runInstrs hl hrun hi hop _ (List.getLast_mem ha)
  have hhead := eq_toByte_of_mem_runInstrs hl hrun' hj hop' _ (List.head_mem hb)
  exact absurd (hlast.trans hhead.symm) (beq_eq_false_iff_ne.1 hne)

theorem runInstrs_ne_nil (hops : ∀ b ∈ bytes, (Operator.ofByte? b).isSome)
    (hrun : run ∈ bytes.splitBy (· == ·)) : runInstrs run ≠ [] := by
  have hsub := List.sublist_flatten_of_mem hrun
  rw [List.flatten_splitBy] at hsub
  obtain ⟨n, b, rfl, -⟩ := exists_replicate_of_mem_splitBy hrun
  obtain ⟨op, hop⟩ := Option.isSome_iff_exists.1 (hops b (hsub.subset (by simp)))
  rw [runInstrs_replicate, hop]
  cases op <;> simp [Operator.instrs]

theorem isCanonical_ofBytes (hl : bytes.length < 2 ^ 63)
    (hops : ∀ b ∈ bytes, (Operator.ofByte? b).isSome) : (Program.ofBytes bytes).IsCanonical where
  each i hi := (isEmitted_of_mem_ofBytes hl hi).isCanonical
  maximal := by
    have hne : [] ∉ (bytes.splitBy (· == ·)).map runInstrs := by
      intro hmem
      obtain ⟨run, hrun, hnil⟩ := List.mem_map.1 hmem
      exact runInstrs_ne_nil hops hrun hnil
    rw [Program.ofBytes, List.flatMap_def, List.isChain_flatten hne, List.isChain_map,
      List.forall_mem_map]
    refine ⟨fun run => isChain_runInstrs, ?_⟩
    refine (List.isChain_getLast_head_splitBy _ bytes).imp_of_mem_imp ?_
    intro run run' hrun hrun' h i hi j hj
    exact endsRun_of_mem_runInstrs hl hrun hrun' h (List.mem_of_mem_getLast? hi)
      (List.mem_of_mem_head? hj)

/-! ## Linked programs -/

theorem operators_withValue {b : Bracket} (hb : i.bracket? = some b) (v : Int64) :
    (i.withValue v).operators = i.operators := by
  obtain ⟨opcode, value, offset⟩ := i
  cases opcode with
  | jumpIfZero | jumpUnlessZero => rfl
  | _ => cases hb

theorem Forest.map_operators_link {ts : Forest} (hm : ts.IsMatched) (n : Nat) :
    (ts.link n).flatten.map Instr.operators = ts.flatten.map Instr.operators := by
  induction ts generalizing n with
  | nil => rfl
  | leaf i rest ih =>
    simp only [link, flatten, List.map_cons, ih hm.2]
  | loop start body stop rest ihb ihr =>
    obtain ⟨hs, he, -, hbm, hrm⟩ := hm
    simp only [link, flatten, List.map_cons, List.map_append, ihb hbm, ihr hrm,
      operators_withValue hs, operators_withValue he]

theorem map_operators_linkJumps (p : Program) :
    p.linkJumps.toList.map Instr.operators = p.toList.map Instr.operators := by
  rw [Program.linkJumps_eq, Forest.map_operators_link p.isMatched_forest, Program.flatten_forest]

theorem expansion_linkJumps (p : Program) : p.linkJumps.expansion = p.expansion := by
  rw [Program.expansion, List.flatMap_def, map_operators_linkJumps, ← List.flatMap_def,
    Program.expansion]

/-- Whether a run ends is said by the operators alone, which linking keeps. -/
theorem isChain_linkJumps {p : Program} (h : p.toList.IsChain Instr.EndsRun) :
    p.linkJumps.toList.IsChain Instr.EndsRun := by
  have hmap : (p.toList.map Instr.operators).IsChain fun ops ops' =>
      ∀ op ∈ ops, op ∈ ops' → op.bracket? ≠ none :=
    List.isChain_map_of_isChain Instr.operators (fun _ _ hij => hij) h
  rw [← map_operators_linkJumps] at hmap
  exact List.isChain_of_isChain_map Instr.operators (fun _ _ hij => hij) hmap

theorem expansion_ofBytes (hl : bytes.length < 2 ^ 63) :
    (Program.ofBytes bytes).expansion = bytes.filter fun b => (Operator.ofByte? b).isSome := by
  rw [Program.expansion, operators_ofBytes hl, List.map_filterMap, ← List.filterMap_eq_filter]
  congr 1
  ext b b'
  cases hb : Operator.ofByte? b with
  | none => simp [hb]
  | some op => simp [Operator.ofByte?_eq_some_iff.1 hb]

/-! ## Accepted sources -/

variable {code : String} {c : Compiled}

theorem expansion_of_compilePlain (hl : code.utf8ByteSize < 2 ^ 63)
    (h : compilePlain code = .ok c) : c.program.expansion = operatorBytes code := by
  obtain ⟨-, hp⟩ := compilePlain_eq_ok h
  rw [hp, expansion_linkJumps, expansion_ofBytes (length_operatorBytes_lt hl)]
  exact List.filter_eq_self.2 fun b hb => (List.mem_filter.1 hb).2

theorem isChain_of_compilePlain (hl : code.utf8ByteSize < 2 ^ 63) (h : compilePlain code = .ok c) :
    c.program.toList.IsChain Instr.EndsRun := by
  obtain ⟨-, hp⟩ := compilePlain_eq_ok h
  have hcanon := isCanonical_ofBytes (length_operatorBytes_lt hl)
    fun b hb => (List.mem_filter.1 hb).2
  rw [hp]
  exact isChain_linkJumps hcanon.maximal

/-- A program stands for the operators that it is emitted for, in order, and is canonical. It is the
only canonical program that stands for them. An accepted source keeps its operators, and two of
them that have the same operators, and no others, have the same unfolded program. -/
theorem emission_is_canonical :
    (∀ bytes : List UInt8, bytes.length < 2 ^ 63 →
      (Program.ofBytes bytes).expansion = bytes.filter (fun b => (Operator.ofByte? b).isSome) ∧
        ((∀ b ∈ bytes, (Operator.ofByte? b).isSome) → (Program.ofBytes bytes).IsCanonical)) ∧
    (∀ p : Program, p.IsCanonical → Program.ofBytes p.expansion = p) ∧
    ∀ (code : String) (c : Compiled), code.utf8ByteSize < 2 ^ 63 → compilePlain code = .ok c →
      c.program.expansion = operatorBytes code ∧
        ∀ (code' : String) (c' : Compiled), code'.utf8ByteSize < 2 ^ 63 →
          compilePlain code' = .ok c' →
            (c.program = c'.program ↔ operatorBytes code = operatorBytes code') := by
  refine ⟨fun bytes hl => ⟨expansion_ofBytes hl, isCanonical_ofBytes hl⟩, ?_, ?_⟩
  · rintro p ⟨hc, hm⟩
    rw [← Array.toList_inj]
    exact toList_ofBytes_expansion hc hm
  · intro code c hl h
    refine ⟨expansion_of_compilePlain hl h, fun code' c' hl' h' => ?_⟩
    constructor
    · intro hp
      rw [← expansion_of_compilePlain hl h, ← expansion_of_compilePlain hl' h', hp]
    · intro hops
      rw [(compilePlain_eq_ok h).2, (compilePlain_eq_ok h').2, hops]

/-- The bytes are `++-[[,,]].`, and the two texts differ in comments only. -/
theorem emission_is_canonical_runs :
    let bytes : List UInt8 := [43, 43, 45, 91, 91, 44, 44, 93, 93, 46]
    let p : Program := #[{ opcode := .add, value := 2 }, { opcode := .add, value := -1 },
      { opcode := .jumpIfZero }, { opcode := .jumpIfZero }, { opcode := .read, value := 2 },
      { opcode := .jumpUnlessZero }, { opcode := .jumpUnlessZero },
      { opcode := .write, value := 1 }]
    p.IsCanonical ∧ p.expansion = bytes ∧ Program.ofBytes p.expansion = p ∧
      ∃ c c', compilePlain "+ +[.]" = .ok c ∧ compilePlain "++[x.]" = .ok c' ∧
        c.program.expansion = [43, 43, 91, 46, 93] ∧ c.program = c'.program := by
  intro bytes p
  obtain ⟨hemit, hback, haccept⟩ := emission_is_canonical
  have hp : Program.ofBytes bytes = p := by decide
  obtain ⟨hexp, hcanon⟩ := hemit bytes (by decide)
  have hc : p.IsCanonical := hp ▸ hcanon (List.all_eq_true.1 rfl)
  have hm : mismatch? (operatorBytes "+ +[.]") = none := by decide
  have hm' : mismatch? (operatorBytes "++[x.]") = none := by decide
  obtain ⟨c, h, -⟩ := exists_compilePlain hm
  obtain ⟨c', h', -⟩ := exists_compilePlain hm'
  obtain ⟨hcode, hequal⟩ := haccept _ c (by decide) h
  refine ⟨hc, hp ▸ hexp.trans (by decide), hback p hc, c, c', h, h', hcode.trans (by decide), ?_⟩
  exact (hequal _ c' (by decide) h').2 (by decide)

end Brainfuck
