import Mathlib.Data.List.Sort
import Mathlib.Data.Set.Card
import Brainfuck.Proofs.Emission
import Brainfuck.Proofs.FixedPoint
import Brainfuck.Proofs.JumpValues

/-! # The loops that wait to be closed

At every point of a sweep the places that wait are those of the opening brackets of the buffer that
have no partner there. A loop that is replaced holds no bracket, so the buffer is never cut off
below a place that still waits. What is cut off with a loop is its body as a sweep of the body alone
rewrites it, and what is left is the buffer from before the loop.
-/

namespace Brainfuck

namespace Sweep

def after (p : Program) (k : Nat) : Sweep :=
  (p.toList.take k).foldl step {}

/-- The places that wait are those of the unmatched opening brackets of the buffer, the last of them
first. -/
structure TracksOpenings (s : Sweep) : Prop where
  descending : s.waiting.Pairwise (· > ·)
  inside : ∀ o ∈ s.waiting, o < s.buffer.size
  unmatched : ∀ o, o ∈ s.waiting ↔ IsUnmatched s.buffer.symbols .opening o

/-- The instruction at `k`, which is next, closes the loop that began at `j`. This loop begins at
`start` in the buffer, and its body has been rewritten there. -/
structure IsClosing (p : Program) (j k start : Nat) : Prop where
  partners : ArePartners p.symbols j k
  waiting : (after p k).waiting = start :: (after p j).waiting
  inside : start + 1 ≤ (after p k).buffer.size
  opening : (after p k).buffer[start]? = p[j]?
  before : (after p k).buffer.shrink start = (after p j).buffer
  body : (after p k).buffer.extract (start + 1) = (ofProgram (p.extract (j + 1) k)).buffer
  /-- It is the rewritten body that decides whether the loop is replaced. -/
  form : closedFormFrom? (after p k).buffer start =
    closedForm? (ofProgram (p.extract (j + 1) k)).buffer.toList

end Sweep

variable {symbols : List (Option Bracket)} {p q : Program} {s : Sweep} {i : Instr} {b : Bracket}
  {is form : List Instr} {m m' : Matching} {start j k : Nat} {rest : List Nat}

/-! ## Brackets without partners -/

namespace Matching

theorem nodup_unmatched (symbols : List (Option Bracket)) (b : Bracket) :
    ((ofList symbols).unmatched b).Nodup :=
  (unmatched_sorted symbols b).imp Nat.ne_of_gt

theorem encard_isUnmatched (symbols : List (Option Bracket)) (b : Bracket) :
    {k | IsUnmatched symbols b k}.encard = ((ofList symbols).unmatched b).length := by
  have hset : {k | IsUnmatched symbols b k} =
      (((ofList symbols).unmatched b).toFinset : Set Nat) := by
    ext k
    simp [mem_unmatched_iff]
  rw [hset, Set.encard_coe_eq_coe_finsetCard,
    List.toFinset_card_of_nodup (nodup_unmatched symbols b)]

theorem counts_eq_iff :
    m.counts = m'.counts ↔ ∀ b, (m.unmatched b).length = (m'.unmatched b).length := by
  constructor
  · rintro h (_ | _)
    · exact congrArg Prod.fst h
    · exact congrArg Prod.snd h
  · intro h
    exact Prod.ext (h .opening) (h .closing)

end Matching

theorem IsUnmatched.waiting_eq_nil (h : IsUnmatched symbols .closing k) :
    (Matching.ofList (symbols.take k)).waiting = [] := by
  have hk : k ≤ symbols.length := Nat.le_of_lt h.lt_length
  have hd : ∀ n ≤ k, depth (symbols.take k) n = depth symbols n := by
    intro n hn
    have hn : n ≤ (symbols.take k).length := by simpa [hk] using hn
    have ha := depth_append hn (symbols.drop k)
    rwa [List.take_append_drop, eq_comm] at ha
  apply List.eq_nil_iff_forall_not_mem.2
  intro o ho
  -- A bracket that waits is below the depth at `k`, which the stray bracket takes below all before.
  have hu := (Matching.mem_unmatched_iff (b := .opening)).1 ho
  have hok : o ≤ k := Nat.le_of_lt (by simpa [hk] using hu.lt_length)
  have hrise := hu.depth_lt
  rw [List.length_take_of_le hk, hd o hok, hd k (Nat.le_refl k)] at hrise
  have hfall := h.2 o hok
  rw [depth_succ h.1, rise] at hfall
  omega

theorem ArePartners.isBalanced (h : ArePartners p.symbols j k) :
    Program.IsBalanced (p.extract (j + 1) k) := by
  have hlt := h.lt
  have hk := h.lt_length
  have hs : (p.extract (j + 1) k).toList.map Instr.bracket? = p.symbols.extract (j + 1) k := by
    simp [Program.symbols, List.extract_eq_take_drop, List.map_take, List.map_drop]
  have hlen : (p.symbols.extract (j + 1) k).length = k - (j + 1) := by
    simp [List.extract_eq_take_drop]
    omega
  have hopen := depth_succ h.opening
  have hclose := depth_succ h.closing
  have hreturns := h.returns
  simp only [rise] at hopen hclose
  unfold Program.IsBalanced Program.matching
  rw [hs, Matching.unmatched_eq_nil_iff_depth, hlen]
  constructor
  · rw [depth_extract (Nat.le_refl _), Nat.add_sub_cancel' hlt]
    omega
  · intro n hn
    have hin := h.inside (j + 1 + n) (by omega) (by omega)
    rw [depth_extract hn]
    omega

namespace Program

theorem drop_toList (hk : p[k]? = some i) : p.toList.drop k = i :: p.toList.drop (k + 1) := by
  rw [List.drop_eq_getElem?_toList_append, Array.getElem?_toList, hk]
  rfl

theorem matching_push (p : Program) (i : Instr) :
    matching (p.push i) = p.matching.step (i.bracket?, p.size) := by
  have h := Matching.ofList_concat p.symbols i.bracket?
  simpa [matching, symbols] using h

theorem matching_append (h : ∀ i ∈ is, i.bracket? = none) (p : Program) :
    matching (p ++ is.toArray) = p.matching := by
  induction is generalizing p with
  | nil => simp
  | cons i is ih =>
    obtain ⟨hi, his⟩ := List.forall_mem_cons.1 h
    have hp : p ++ (i :: is).toArray = p.push i ++ is.toArray := by
      apply Array.toList_inj.1
      simp
    rw [hp, ih his, matching_push, hi]
    rfl

end Program

namespace Sweep

/-! ## One step -/

theorem tracksOpenings_iff : s.TracksOpenings ↔ s.waiting = s.buffer.matching.waiting := by
  have hf : s.buffer.matching.Finds s.buffer.symbols := Matching.finds_ofList _
  constructor
  · intro h
    apply h.descending.eq_of_mem_iff hf.waiting_sorted
    intro o
    exact (h.unmatched o).trans (hf.waiting o).symm
  · intro h
    constructor
    case descending =>
      rw [h]
      exact hf.waiting_sorted
    case inside =>
      intro o ho
      rw [h] at ho
      simpa [Program.symbols] using hf.lt_of_mem_waiting ho
    case unmatched =>
      intro o
      rw [h]
      exact hf.waiting o

/-- A loop that is replaced ends the buffer, and its only bracket was the last that waited. -/
theorem unmatched_of_closedFormFrom? {buffer : Program}
    (hw : buffer.matching.waiting = start :: rest)
    (hf : closedFormFrom? buffer start = some form) :
    let replaced : Program := buffer.shrink start ++ form.toArray
    replaced.matching.waiting = rest ∧ replaced.matching.strays = buffer.matching.strays := by
  intro replaced
  have hmem : start ∈ buffer.matching.waiting := by simp [hw]
  have hu : IsUnmatched buffer.symbols .opening start :=
    ((Matching.finds_ofList buffer.symbols).waiting start).1 hmem
  obtain ⟨a, ha, hb⟩ : ∃ a, buffer[start]? = some a ∧ a.bracket? = some .opening := by
    simpa [Program.symbols] using hu.1
  have hlt : start < buffer.size := (Array.getElem?_eq_some_iff.1 ha).1
  rw [closedFormFrom?_eq] at hf
  have hbuffer : buffer =
      (buffer.shrink start).push a ++ (buffer.toList.drop (start + 1)).toArray := by
    have hl := List.take_append_drop start buffer.toList
    rw [Program.drop_toList ha] at hl
    apply Array.toList_inj.1
    simpa [List.extract_eq_take_drop] using hl.symm
  have hm : buffer.matching =
      (Program.matching (buffer.shrink start)).step (some .opening, start) := by
    conv_lhs => rw [hbuffer]
    rw [Program.matching_append (bracket?_eq_none_of_mem_body hf), Program.matching_push, hb]
    simp [Nat.le_of_lt hlt]
  have hr : replaced.matching = Program.matching (buffer.shrink start) :=
    Program.matching_append (fun i hi => (not_isStraight_of_mem_closedForm hf i hi).2) _
  rw [hm] at hw
  rw [hr, hm]
  exact ⟨(List.cons.inj hw).2, rfl⟩

/-- What waits in a sweep changes as in a scan. -/
theorem waiting_step (h : m.waiting = s.waiting) (i : Instr) :
    (s.step i).waiting = (m.step (i.bracket?, s.buffer.size)).waiting := by
  obtain ⟨pairs, waiting, strays⟩ := m
  obtain ⟨buffer, waiting, folds⟩ := s
  cases h
  cases hi : i.bracket? with
  | none => simp only [step, Matching.step, hi]
  | some b =>
    cases b with
    | opening => simp only [step, Matching.step, hi]
    | closing =>
      cases waiting with
      | nil => simp only [step, Matching.step, hi]
      | cons start rest =>
        simp only [step, Matching.step, hi]
        split
        · rfl
        · rfl

namespace TracksOpenings

/-- The same brackets of the buffer lack a partner as if the instruction had been copied, even if a
loop was replaced. -/
theorem unmatched_step (h : s.TracksOpenings) (i : Instr) (b : Bracket) :
    (s.step i).buffer.matching.unmatched b =
      (s.buffer.matching.step (i.bracket?, s.buffer.size)).unmatched b := by
  rcases step_cases s i with ⟨hb, -⟩ | ⟨start, rest, form, hi, hw, hf, hs⟩
  · rw [hb, Program.matching_push]
  · rw [tracksOpenings_iff.1 h] at hw
    obtain ⟨hwaiting, hstrays⟩ := unmatched_of_closedFormFrom? hw hf
    rw [hs, hi]
    cases b with
    | opening => simpa [Matching.unmatched, Matching.step, hw] using hwaiting
    | closing => simpa [Matching.unmatched, Matching.step, hw] using hstrays

theorem step (h : s.TracksOpenings) (i : Instr) : (s.step i).TracksOpenings := by
  apply tracksOpenings_iff.2
  have hw := waiting_step (tracksOpenings_iff.1 h).symm i
  exact hw.trans (h.unmatched_step i .opening).symm

theorem counts_step (h : s.TracksOpenings) (i : Instr) :
    (s.step i).buffer.matching.counts =
      i.bracket?.toList.foldl Bracket.count s.buffer.matching.counts := by
  have hc := counts_foldl [i.bracket?] s.buffer.size s.buffer.matching
  rw [Matching.counts_eq_iff.2 fun b => congrArg List.length (h.unmatched_step i b)]
  cases hi : i.bracket? with
  | none => simpa [hi] using hc
  | some b => simpa [hi] using hc

/-! ## All steps -/

theorem foldl (h : s.TracksOpenings) (is : List Instr) :
    (is.foldl Sweep.step s).TracksOpenings := by
  induction is generalizing s with
  | nil => exact h
  | cons i is ih => exact ih (h.step i)

theorem counts_of_foldl (h : s.TracksOpenings) (is : List Instr) :
    (is.foldl Sweep.step s).buffer.matching.counts =
      (is.filterMap Instr.bracket?).foldl Bracket.count s.buffer.matching.counts := by
  induction is generalizing s with
  | nil => rfl
  | cons i is ih =>
    rw [List.foldl_cons, ih (h.step i), h.counts_step, List.filterMap_cons]
    cases i.bracket? <;> rfl

end TracksOpenings

theorem tracksOpenings_start : TracksOpenings {} :=
  tracksOpenings_iff.2 rfl

theorem after_size (p : Program) : after p p.size = ofProgram p := by
  rw [after, ofProgram, ← Array.foldl_toList, ← Array.length_toList, List.take_length]

theorem tracksOpenings_after (p : Program) (k : Nat) : (after p k).TracksOpenings :=
  tracksOpenings_start.foldl _

theorem counts_after (p : Program) (k : Nat) :
    (after p k).buffer.matching.counts = (Matching.ofList (p.symbols.take k)).counts := by
  rw [after, tracksOpenings_start.counts_of_foldl, Matching.ofList, counts_foldl, Program.symbols,
    ← List.map_take, List.filterMap_map]
  rfl

theorem waiting_after_eq_nil (h : IsUnmatched p.symbols .closing k) : (after p k).waiting = [] := by
  have hc := Matching.counts_eq_iff.1 (counts_after p k) .opening
  rw [tracksOpenings_iff.1 (tracksOpenings_after p k), ← List.length_eq_zero_iff]
  rwa [Matching.unmatched, Matching.unmatched, h.waiting_eq_nil] at hc

/-! ## The end of a loop -/

theorem foldl_step_of_isBalanced (hq : q.IsBalanced) (s : Sweep) :
    (q.toList.foldl step s).buffer = s.buffer ++ (ofProgram q).buffer ∧
      (q.toList.foldl step s).waiting = s.waiting := by
  have hu := Program.isBalanced_iff.1 hq
  have h := Forest.sweep_flatten q.isMatched_forest s.buffer s.waiting s.folds (by simp [hu])
  rw [Program.flatten_forest] at h
  have hopen : q.forest.fold.unmatchedAt .opening s.buffer.size = [] :=
    Forest.unmatchedAt_eq_nil_iff.2 (by simp [Forest.unmatched_fold, hu])
  rw [h, hopen, ofProgram_eq]
  exact ⟨rfl, rfl⟩

theorem after_of_partners (h : ArePartners p.symbols j k) (ha : p[j]? = some i) :
    (after p k).buffer = (after p j).buffer.push i ++ (ofProgram (p.extract (j + 1) k)).buffer ∧
      (after p k).waiting = (after p j).buffer.size :: (after p j).waiting := by
  have hi : i.bracket? = some .opening := by
    simpa [Program.symbols, ha] using h.opening
  have hsplit : p.toList.take k = p.toList.take j ++ i :: (p.extract (j + 1) k).toList := by
    obtain ⟨n, rfl⟩ := Nat.exists_eq_add_of_lt h.lt
    rw [Nat.add_assoc, List.take_add, Program.drop_toList ha, List.take_succ_cons]
    simp [List.extract_eq_take_drop, Nat.add_sub_add_left]
  have hstep : (after p j).step i = ⟨(after p j).buffer.push i,
      (after p j).buffer.size :: (after p j).waiting, (after p j).folds⟩ := step_start hi
  have hafter : after p k = (p.extract (j + 1) k).toList.foldl step ((after p j).step i) := by
    rw [after, hsplit, List.foldl_append, List.foldl_cons, after]
  rw [hafter, hstep]
  exact foldl_step_of_isBalanced h.isBalanced _

theorem isClosing_of_partners (h : ArePartners p.symbols j k) :
    IsClosing p j k (after p j).buffer.size := by
  obtain ⟨a, ha, -⟩ : ∃ a, p[j]? = some a ∧ a.bracket? = some .opening := by
    simpa [Program.symbols] using h.opening
  obtain ⟨hb, hw⟩ := after_of_partners h ha
  constructor
  case partners => exact h
  case waiting => exact hw
  case inside => simp [hb]
  case opening => rw [hb, ha, Array.getElem?_append_left (by simp), Array.getElem?_push_size]
  case before =>
    rw [hb]
    apply Array.toList_inj.1
    simp
  case body =>
    rw [hb]
    apply Array.toList_inj.1
    simp [List.extract_eq_take_drop]
  case form =>
    rw [hb]
    exact closedFormFrom?_push ..

end Sweep

open Sweep

/-- After every instruction of a sweep the places that wait lie within the buffer, in order, and are
those of its opening brackets without a partner. At a closing bracket that has no partner in the
program nothing waits. At any other the loop that waits last comes to its end: the buffer holds the
rewritten body behind the opening bracket, and what it held before the loop in front of it. The
swept program has as many brackets of either kind without a partner as the program. -/
theorem open_loops_are_tracked (p : Program) :
    (∀ k, (after p k).TracksOpenings) ∧
    (∀ k i, p[k]? = some i → i.bracket? = some .closing →
      (IsUnmatched p.symbols .closing k ∧ (after p k).waiting = []) ∨
        ∃ j start, IsClosing p j k start) ∧
    ∀ b, {k | IsUnmatched (ofProgram p).buffer.symbols b k}.encard =
      {k | IsUnmatched p.symbols b k}.encard := by
  refine ⟨tracksOpenings_after p, ?_, ?_⟩
  · intro k i hk hi
    have hs : p.symbols[k]? = some (some .closing) := by
      simp [Program.symbols, hk, hi]
    by_cases hu : IsUnmatched p.symbols .closing k
    · exact .inl ⟨hu, waiting_after_eq_nil hu⟩
    · right
      obtain ⟨j, hj | hj⟩ := exists_partner hs hu
      · cases hs.symm.trans hj.opening
      · exact ⟨j, _, isClosing_of_partners hj⟩
  · intro b
    have hc := counts_after p p.size
    rw [after_size, List.take_of_length_le (by simp [Program.symbols])] at hc
    rw [Matching.encard_isUnmatched, Matching.encard_isUnmatched]
    exact congrArg Nat.cast (Matching.counts_eq_iff.1 hc b)

/-- The program is `[-]][[-].]`. The bracket at `3` has no partner, and the one at `9` closes the
loop that begins at `4`, and at `2` in the buffer, since the first loop has become one
instruction. -/
theorem open_loops_are_tracked_nested :
    let p : Program := #[{ opcode := .jumpIfZero }, { opcode := .add, value := -1 },
      { opcode := .jumpUnlessZero }, { opcode := .jumpUnlessZero }, { opcode := .jumpIfZero },
      { opcode := .jumpIfZero }, { opcode := .add, value := -1 }, { opcode := .jumpUnlessZero },
      { opcode := .write, value := 1 }, { opcode := .jumpUnlessZero }]
    (p[3]? = some { opcode := .jumpUnlessZero } ∧ IsUnmatched p.symbols .closing 3 ∧
      (after p 3).waiting = []) ∧
    p[9]? = some { opcode := .jumpUnlessZero } ∧ IsClosing p 4 9 2 ∧
      (after p 9).buffer.extract 3 = #[.clear, { opcode := .write, value := 1 }] := by
  intro p
  have hthree : (after p 3).waiting = [] := by decide +kernel
  have hnine : (after p 9).waiting = [2] := by decide +kernel
  have hbuffer : (after p 9).buffer.extract 3 = #[.clear, { opcode := .write, value := 1 }] := by
    decide +kernel
  have hpartners : ArePartners p.symbols 4 9 := (p.mem_pairs_matching 4 9).1 (by decide)
  obtain ⟨-, hcloses, -⟩ := open_loops_are_tracked p
  constructor
  · rcases hcloses 3 _ rfl rfl with h | ⟨j, start, h⟩
    · exact ⟨rfl, h⟩
    · cases hthree.symm.trans h.waiting
  · rcases hcloses 9 _ rfl rfl with ⟨-, h⟩ | ⟨j, start, h⟩
    · cases hnine.symm.trans h
    · obtain rfl := h.partners.start_unique hpartners
      obtain ⟨rfl, -⟩ := List.cons.inj (hnine.symm.trans h.waiting)
      exact ⟨rfl, h, hbuffer⟩

end Brainfuck
