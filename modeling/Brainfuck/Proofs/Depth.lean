import Mathlib.Data.List.Induction
import Mathlib.Tactic.Common
import Brainfuck.Bracket

/-! # Nesting depth

The depth of a place is how many more brackets open before it than close. Two brackets are partners
if the depth returns with the second, for the first time, to what it was before the first. A bracket
that opens has no partner if the depth never returns, and one that closes has none if the depth was
never so low before. A scan finds as its pairs, as its waiting and as its stray brackets exactly
these.
-/

namespace Brainfuck

/-- How many more of the first `k` symbols open than close. -/
def depth (symbols : List (Option Bracket)) (k : Nat) : Int :=
  (symbols.take k).count (some .opening) - (symbols.take k).count (some .closing)

def IsUnmatched (symbols : List (Option Bracket)) : Bracket → Nat → Prop
  | .opening, i => symbols[i]? = some (some .opening) ∧
      ∀ j, i < j → j ≤ symbols.length → depth symbols i < depth symbols j
  | .closing, j => symbols[j]? = some (some .closing) ∧
      ∀ i ≤ j, depth symbols (j + 1) < depth symbols i

/-- The bracket at `i` opens what the bracket at `j` closes. -/
structure ArePartners (symbols : List (Option Bracket)) (i j : Nat) : Prop where
  opening : symbols[i]? = some (some .opening)
  closing : symbols[j]? = some (some .closing)
  lt : i < j
  returns : depth symbols (j + 1) = depth symbols i
  inside : ∀ k, i < k → k ≤ j → depth symbols i < depth symbols k

def rise : Option Bracket → Int
  | some .opening => 1
  | some .closing => -1
  | none => 0

variable {symbols rest : List (Option Bracket)} {s : Option Bracket} {i i' j j' k n : Nat}

@[simp] theorem depth_zero (symbols : List (Option Bracket)) : depth symbols 0 = 0 := by
  simp [depth]

theorem depth_append (hk : k ≤ symbols.length) (rest : List (Option Bracket)) :
    depth (symbols ++ rest) k = depth symbols k := by
  rw [depth, depth, List.take_append_of_le_length hk]

theorem depth_concat (symbols : List (Option Bracket)) (s : Option Bracket) :
    depth (symbols ++ [s]) (symbols.length + 1) = depth symbols symbols.length + rise s := by
  rw [depth, depth, List.take_length, List.take_of_length_le (by simp), List.count_append,
    List.count_append]
  rcases s with _ | b
  · simp [rise]
  · cases b <;> simp [rise] <;> omega

theorem depth_length_concat (symbols : List (Option Bracket)) (s : Option Bracket) :
    depth (symbols ++ [s]) (symbols ++ [s]).length = depth symbols symbols.length + rise s := by
  rw [List.length_append, List.length_singleton, depth_concat]

theorem depth_eq_add (hij : i ≤ j) :
    depth symbols j = depth symbols i + ((symbols.extract i j).count (some .opening) -
      (symbols.extract i j).count (some .closing)) := by
  have ht : symbols.take j = symbols.take i ++ symbols.extract i j := by
    rw [List.extract_eq_take_drop, ← List.take_add, Nat.add_sub_cancel' hij]
  rw [depth, depth, ht, List.count_append, List.count_append]
  omega

theorem depth_succ (hk : symbols[k]? = some s) :
    depth symbols (k + 1) = depth symbols k + rise s := by
  obtain ⟨hlt, rfl⟩ := List.getElem?_eq_some_iff.1 hk
  have h := depth_concat (symbols.take k) symbols[k]
  rw [List.take_append_getElem, List.length_take_of_le (Nat.le_of_lt hlt)] at h
  simpa [depth, List.take_take] using h

theorem depth_extract (hn : n ≤ j - i) :
    depth (symbols.extract i j) n = depth symbols (i + n) - depth symbols i := by
  have ht : (symbols.extract i j).take n = symbols.extract i (i + n) := by
    simp [List.extract_eq_take_drop, List.take_take, hn]
  rw [depth, ht, depth_eq_add (Nat.le_add_right i n)]
  omega

/-! ## Partners -/

namespace ArePartners

theorem lt_length (h : ArePartners symbols i j) : j < symbols.length :=
  (List.getElem?_eq_some_iff.1 h.closing).1

theorem stop_unique (h : ArePartners symbols i j) (h' : ArePartners symbols i j') : j = j' := by
  rcases Nat.lt_trichotomy j j' with hlt | rfl | hlt
  · have hin := h'.inside (j + 1) (Nat.lt_succ_of_lt h.lt) hlt
    have hr := h.returns
    omega
  · rfl
  · have hin := h.inside (j' + 1) (Nat.lt_succ_of_lt h'.lt) hlt
    have hr := h'.returns
    omega

theorem start_unique (h : ArePartners symbols i j) (h' : ArePartners symbols i' j) : i = i' := by
  have hr := h.returns
  have hr' := h'.returns
  rcases Nat.lt_trichotomy i i' with hlt | rfl | hlt
  · have hin := h.inside i' hlt (Nat.le_of_lt h'.lt)
    omega
  · rfl
  · have hin := h'.inside i hlt (Nat.le_of_lt h.lt)
    omega

/-- No bracket both opens and closes. -/
theorem not_shared (h : ArePartners symbols i j) : ¬ ArePartners symbols j k := by
  intro h'
  cases h.closing.symm.trans h'.opening

/-- Of two pairs one is over before the other begins or ends. -/
theorem nested (h : ArePartners symbols i j) (h' : ArePartners symbols i' j') (hlt : i < i') :
    j < i' ∨ j' < j := by
  by_contra hcross
  rw [not_or, Nat.not_lt, Nat.not_lt] at hcross
  obtain ⟨hi, hj⟩ := hcross
  have hin := h.inside i' hlt hi
  rcases Nat.eq_or_lt_of_le hj with rfl | hj
  · exact Nat.ne_of_lt hlt (h.start_unique h')
  · have hne : j ≠ i' := by
      rintro rfl
      exact h.not_shared h'
    have hin' := h'.inside (j + 1) (by omega) hj
    have hr := h.returns
    omega

theorem append_iff (hj : j < symbols.length) :
    ArePartners (symbols ++ rest) i j ↔ ArePartners symbols i j := by
  constructor
  · rintro ⟨ho, hc, hlt, hr, hin⟩
    have hi : i < symbols.length := Nat.lt_trans hlt hj
    rw [List.getElem?_append_left hi] at ho
    rw [List.getElem?_append_left hj] at hc
    rw [depth_append hj, depth_append (Nat.le_of_lt hi)] at hr
    refine ⟨ho, hc, hlt, hr, fun k hik hkj => ?_⟩
    have hk := hin k hik hkj
    rwa [depth_append (Nat.le_of_lt hi), depth_append (by omega)] at hk
  · rintro ⟨ho, hc, hlt, hr, hin⟩
    have hi : i < symbols.length := Nat.lt_trans hlt hj
    refine ⟨?_, ?_, hlt, ?_, fun k hik hkj => ?_⟩
    · rwa [List.getElem?_append_left hi]
    · rwa [List.getElem?_append_left hj]
    · rwa [depth_append hj, depth_append (Nat.le_of_lt hi)]
    · rw [depth_append (Nat.le_of_lt hi), depth_append (by omega)]
      exact hin k hik hkj

theorem concat_iff : ArePartners (symbols ++ [s]) i j ↔
    ArePartners symbols i j ∨ j = symbols.length ∧ s = some .closing ∧
      IsUnmatched symbols .opening i ∧ depth symbols symbols.length = depth symbols i + 1 := by
  constructor
  · intro h
    rcases Nat.eq_or_lt_of_le (Nat.le_of_lt_succ (by simpa using h.lt_length)) with rfl | hj
    · obtain ⟨ho, hc, hlt, hr, hin⟩ := h
      obtain rfl : s = some .closing := by simpa using hc
      rw [List.getElem?_append_left hlt] at ho
      rw [depth_concat, depth_append (Nat.le_of_lt hlt), rise] at hr
      refine .inr ⟨rfl, rfl, ⟨ho, fun k hik hk => ?_⟩, by omega⟩
      have hd := hin k hik hk
      rwa [depth_append (Nat.le_of_lt hlt), depth_append hk] at hd
    · exact .inl ((append_iff hj).1 h)
  · rintro (h | ⟨rfl, rfl, ⟨ho, hin⟩, hd⟩)
    · exact (append_iff h.lt_length).2 h
    · have hlt : i < symbols.length := (List.getElem?_eq_some_iff.1 ho).1
      refine ⟨?_, by simp, hlt, ?_, fun k hik hk => ?_⟩
      · rwa [List.getElem?_append_left hlt]
      · rw [depth_concat, depth_append (Nat.le_of_lt hlt), rise]
        omega
      · rw [depth_append (Nat.le_of_lt hlt), depth_append hk]
        exact hin k hik hk

end ArePartners

/-! ## Brackets without partners -/

namespace IsUnmatched

theorem lt_length {b : Bracket} (h : IsUnmatched symbols b i) : i < symbols.length := by
  cases b with
  | opening => exact (List.getElem?_eq_some_iff.1 h.1).1
  | closing => exact (List.getElem?_eq_some_iff.1 h.1).1

theorem depth_lt (h : IsUnmatched symbols .opening i) :
    depth symbols i < depth symbols symbols.length :=
  h.2 _ h.lt_length (Nat.le_refl _)

theorem closing_append_iff (hj : j < symbols.length) :
    IsUnmatched (symbols ++ rest) .closing j ↔ IsUnmatched symbols .closing j := by
  have hd : ∀ k ≤ j + 1, depth (symbols ++ rest) k = depth symbols k :=
    fun k hk => depth_append (Nat.le_trans hk hj) rest
  simp only [IsUnmatched, List.getElem?_append_left hj, hd (j + 1) (Nat.le_refl _)]
  refine and_congr_right fun _ => forall₂_congr fun i hi => ?_
  rw [hd i (Nat.le_succ_of_le hi)]

theorem closing_concat_iff : IsUnmatched (symbols ++ [s]) .closing j ↔
    IsUnmatched symbols .closing j ∨ j = symbols.length ∧ s = some .closing ∧
      ∀ i ≤ symbols.length, depth symbols symbols.length ≤ depth symbols i := by
  have hlast : IsUnmatched (symbols ++ [s]) .closing symbols.length ↔ s = some .closing ∧
      ∀ i ≤ symbols.length, depth symbols symbols.length ≤ depth symbols i := by
    simp only [IsUnmatched, List.getElem?_concat_length, Option.some.injEq, depth_concat]
    refine and_congr_right fun hs => forall₂_congr fun i hi => ?_
    rw [depth_append hi, hs, rise]
    omega
  constructor
  · intro h
    rcases Nat.eq_or_lt_of_le (Nat.le_of_lt_succ (by simpa using h.lt_length)) with rfl | hj
    · exact .inr ⟨rfl, hlast.1 h⟩
    · exact .inl ((closing_append_iff hj).1 h)
  · rintro (h | ⟨rfl, h⟩)
    · exact (closing_append_iff h.lt_length).2 h
    · exact hlast.2 h

theorem opening_concat_iff : IsUnmatched (symbols ++ [s]) .opening i ↔
    IsUnmatched symbols .opening i ∧ depth symbols i < depth symbols symbols.length + rise s ∨
      i = symbols.length ∧ s = some .opening := by
  constructor
  · intro h
    rcases Nat.eq_or_lt_of_le (Nat.le_of_lt_succ (by simpa using h.lt_length)) with rfl | hi
    · exact .inr ⟨rfl, by simpa using h.1⟩
    · obtain ⟨ho, hin⟩ := h
      rw [List.getElem?_append_left hi] at ho
      refine .inl ⟨⟨ho, fun j hij hj => ?_⟩, ?_⟩
      · have hd := hin j hij (by simp; omega)
        rwa [depth_append (Nat.le_of_lt hi), depth_append hj] at hd
      · have hd := hin (symbols.length + 1) (Nat.lt_succ_of_lt hi) (by simp)
        rwa [depth_append (Nat.le_of_lt hi), depth_concat] at hd
  · rintro (⟨⟨ho, hin⟩, hlast⟩ | ⟨rfl, rfl⟩)
    · have hi : i < symbols.length := (List.getElem?_eq_some_iff.1 ho).1
      refine ⟨by rwa [List.getElem?_append_left hi], fun j hij hj => ?_⟩
      rw [depth_append (Nat.le_of_lt hi)]
      rcases Nat.eq_or_lt_of_le hj with rfl | hj
      · simpa [depth_concat] using hlast
      · rw [depth_append (by simpa using Nat.le_of_lt_succ (by simpa using hj))]
        exact hin j hij (Nat.le_of_lt_succ (by simpa using hj))
    · refine ⟨by simp, fun j hij hj => ?_⟩
      obtain rfl : j = symbols.length + 1 := Nat.le_antisymm (by simpa using hj) hij
      rw [depth_append (Nat.le_refl _), depth_concat, rise]
      omega

end IsUnmatched

/-! ## The scan -/

namespace Matching

def unmatched (m : Matching) : Bracket → List Nat
  | .opening => m.waiting
  | .closing => m.strays

structure Finds (m : Matching) (symbols : List (Option Bracket)) : Prop where
  pairs : ∀ i j, (i, j) ∈ m.pairs ↔ ArePartners symbols i j
  waiting : ∀ i, i ∈ m.waiting ↔ IsUnmatched symbols .opening i
  strays : ∀ j, j ∈ m.strays ↔ IsUnmatched symbols .closing j
  /-- Every bracket that waits has raised the depth by one. -/
  levels : ∀ (k i : Nat), m.waiting[k]? = some i →
    depth symbols symbols.length = depth symbols i + k + 1
  highest : ∀ i ≤ symbols.length,
    depth symbols symbols.length ≤ depth symbols i + m.waiting.length
  total : depth symbols symbols.length = m.waiting.length - m.strays.length
  waiting_sorted : m.waiting.Pairwise (· > ·)
  strays_sorted : m.strays.Pairwise (· > ·)

theorem ofList_concat (symbols : List (Option Bracket)) (s : Option Bracket) :
    ofList (symbols ++ [s]) = (ofList symbols).step (s, symbols.length) := by
  simp [ofList, List.zipIdx_append]

namespace Finds

variable {m : Matching} {pairs : List (Nat × Nat)} {o : Nat} {waiting strays : List Nat}

theorem nil : Finds {} [] where
  pairs i j := by simpa using fun h : ArePartners [] i j => h.lt_length
  waiting i := by simpa using fun h : IsUnmatched [] .opening i => h.lt_length
  strays j := by simpa using fun h : IsUnmatched [] .closing j => h.lt_length
  levels k i h := by simp at h
  highest i hi := by simp_all
  total := by simp
  waiting_sorted := .nil
  strays_sorted := .nil

theorem lt_of_mem_waiting (h : m.Finds symbols) (ho : o ∈ m.waiting) : o < symbols.length :=
  ((h.waiting o).1 ho).lt_length

theorem lt_of_mem_strays (h : m.Finds symbols) (hj : j ∈ m.strays) : j < symbols.length :=
  ((h.strays j).1 hj).lt_length

theorem levels_concat {l : List Nat} (hl : ∀ i ∈ l, i ≤ symbols.length)
    (h : ∀ (k i : Nat), l[k]? = some i →
      depth symbols symbols.length + rise s = depth symbols i + k + 1) (k i : Nat)
    (hk : l[k]? = some i) :
    depth (symbols ++ [s]) (symbols ++ [s]).length = depth (symbols ++ [s]) i + k + 1 := by
  rw [depth_length_concat, depth_append (hl i (List.mem_of_getElem? hk)), h k i hk]

theorem highest_concat {w : Nat}
    (h : ∀ i ≤ symbols.length, depth symbols symbols.length + rise s ≤ depth symbols i + w)
    (i : Nat) (hi : i ≤ (symbols ++ [s]).length) :
    depth (symbols ++ [s]) (symbols ++ [s]).length ≤ depth (symbols ++ [s]) i + w := by
  rcases Nat.eq_or_lt_of_le hi with rfl | hi
  · omega
  · have hi : i ≤ symbols.length := Nat.le_of_lt_succ (by simpa using hi)
    rw [depth_length_concat, depth_append hi]
    exact h i hi

theorem concat_none (h : m.Finds symbols) : m.Finds (symbols ++ [none]) where
  pairs i j := by simp [h.pairs, ArePartners.concat_iff]
  waiting i := by
    rw [h.waiting, IsUnmatched.opening_concat_iff]
    simpa [rise] using IsUnmatched.depth_lt
  strays j := by simp [h.strays, IsUnmatched.closing_concat_iff]
  levels := levels_concat (fun _ hi => Nat.le_of_lt (h.lt_of_mem_waiting hi))
    (by simpa [rise] using h.levels)
  highest := highest_concat (by simpa [rise] using h.highest)
  total := by simpa [depth_concat, rise] using h.total
  waiting_sorted := h.waiting_sorted
  strays_sorted := h.strays_sorted

theorem concat_opening (h : Finds ⟨pairs, waiting, strays⟩ symbols) :
    Finds ⟨pairs, symbols.length :: waiting, strays⟩ (symbols ++ [some .opening]) where
  pairs i j := by simp [h.pairs i j, ArePartners.concat_iff]
  waiting i := by
    have hw : i ∈ waiting ↔ IsUnmatched symbols .opening i := h.waiting i
    rw [List.mem_cons, hw, IsUnmatched.opening_concat_iff, or_comm, and_iff_left rfl,
      and_iff_left_of_imp]
    intro hi
    have hd := hi.depth_lt
    rw [rise]
    omega
  strays j := by simp [h.strays j, IsUnmatched.closing_concat_iff]
  levels := by
    refine levels_concat ?_ fun k i hk => ?_
    · exact List.forall_mem_cons.2
        ⟨Nat.le_refl _, fun i hi => Nat.le_of_lt (h.lt_of_mem_waiting hi)⟩
    · cases k with
      | zero =>
        obtain rfl : symbols.length = i := by simpa using hk
        simp [rise]
      | succ k =>
        have hd := h.levels k i (by simpa using hk)
        rw [rise, hd]
        omega
  highest := highest_concat fun i hi => by
    have hd := h.highest i hi
    simp only [rise, List.length_cons] at *
    omega
  total := by
    have ht := h.total
    simp only [depth_length_concat, rise, List.length_cons] at *
    omega
  waiting_sorted := List.pairwise_cons.2 ⟨fun _ => h.lt_of_mem_waiting, h.waiting_sorted⟩
  strays_sorted := h.strays_sorted

theorem concat_stray (h : Finds ⟨pairs, [], strays⟩ symbols) :
    Finds ⟨pairs, [], symbols.length :: strays⟩ (symbols ++ [some .closing]) where
  pairs i j := by simp [h.pairs i j, ArePartners.concat_iff, ← h.waiting]
  waiting i := by simp [IsUnmatched.opening_concat_iff, ← h.waiting]
  strays j := by
    have hs : j ∈ strays ↔ IsUnmatched symbols .closing j := h.strays j
    have hd : ∀ i ≤ symbols.length, depth symbols symbols.length ≤ depth symbols i := by
      simpa using h.highest
    rw [List.mem_cons, hs, IsUnmatched.closing_concat_iff, or_comm, and_iff_left ⟨rfl, hd⟩]
  levels := by simp
  highest := highest_concat fun i hi => by
    have hd := h.highest i hi
    simp only [rise, List.length_nil] at *
    omega
  total := by
    have ht := h.total
    simp only [depth_length_concat, rise, List.length_cons] at *
    omega
  waiting_sorted := .nil
  strays_sorted := List.pairwise_cons.2 ⟨fun _ => h.lt_of_mem_strays, h.strays_sorted⟩

/-- Only the bracket that waits last is one level below. -/
theorem eq_head_iff (h : Finds ⟨pairs, o :: waiting, strays⟩ symbols) : i = o ↔
    IsUnmatched symbols .opening i ∧ depth symbols symbols.length = depth symbols i + 1 := by
  constructor
  · rintro rfl
    exact ⟨(h.waiting i).1 List.mem_cons_self, by simpa using h.levels 0 i rfl⟩
  · rintro ⟨hi, hd⟩
    obtain ⟨k, hk⟩ := List.mem_iff_getElem?.1 ((h.waiting i).2 hi)
    have hl := h.levels k i hk
    obtain rfl : k = 0 := by omega
    simpa using hk.symm

theorem concat_pair (h : Finds ⟨pairs, o :: waiting, strays⟩ symbols) :
    Finds ⟨(o, symbols.length) :: pairs, waiting, strays⟩ (symbols ++ [some .closing]) where
  pairs i j := by
    have hp : (i, j) ∈ pairs ↔ ArePartners symbols i j := h.pairs i j
    rw [List.mem_cons, Prod.mk.injEq, hp, h.eq_head_iff, ArePartners.concat_iff]
    tauto
  waiting i := by
    rw [IsUnmatched.opening_concat_iff, rise]
    constructor
    · intro hi
      obtain ⟨k, hk⟩ := List.mem_iff_getElem?.1 hi
      have hd := h.levels (k + 1) i (by simpa using hk)
      exact .inl ⟨(h.waiting i).1 (List.mem_cons_of_mem o hi), by omega⟩
    · rintro (⟨hi, hd⟩ | ⟨-, hs⟩)
      · rcases List.mem_cons.1 ((h.waiting i).2 hi) with rfl | hi
        · have hl := (h.eq_head_iff.1 rfl).2
          omega
        · exact hi
      · cases hs
  strays j := by
    have hs : j ∈ strays ↔ IsUnmatched symbols .closing j := h.strays j
    rw [hs, IsUnmatched.closing_concat_iff, or_iff_left]
    rintro ⟨-, -, hd⟩
    have ho := hd o (Nat.le_of_lt (h.lt_of_mem_waiting List.mem_cons_self))
    have hl := (h.eq_head_iff.1 rfl).2
    omega
  levels := by
    refine levels_concat (fun i hi => ?_) fun k i hk => ?_
    · exact Nat.le_of_lt (h.lt_of_mem_waiting (List.mem_cons_of_mem o hi))
    · have hd := h.levels (k + 1) i (by simpa using hk)
      rw [rise, hd]
      omega
  highest := highest_concat fun i hi => by
    have hd := h.highest i hi
    simp only [rise, List.length_cons] at *
    omega
  total := by
    have ht := h.total
    simp only [depth_length_concat, rise, List.length_cons] at *
    omega
  waiting_sorted := h.waiting_sorted.of_cons
  strays_sorted := h.strays_sorted

theorem step (h : m.Finds symbols) (s : Option Bracket) :
    (m.step (s, symbols.length)).Finds (symbols ++ [s]) := by
  obtain ⟨pairs, waiting, strays⟩ := m
  cases s with
  | none => exact h.concat_none
  | some b =>
    cases b with
    | opening => exact h.concat_opening
    | closing =>
      cases waiting with
      | nil => exact h.concat_stray
      | cons o waiting => exact h.concat_pair

end Finds

theorem finds_ofList (symbols : List (Option Bracket)) : (ofList symbols).Finds symbols := by
  induction symbols using List.reverseRecOn with
  | nil => exact .nil
  | append_singleton symbols s ih =>
    rw [ofList_concat]
    exact ih.step s

theorem mem_unmatched_iff {b : Bracket} :
    k ∈ (ofList symbols).unmatched b ↔ IsUnmatched symbols b k := by
  cases b with
  | opening => exact (finds_ofList symbols).waiting k
  | closing => exact (finds_ofList symbols).strays k

theorem unmatched_sorted (symbols : List (Option Bracket)) (b : Bracket) :
    ((ofList symbols).unmatched b).Pairwise (· > ·) := by
  cases b with
  | opening => exact (finds_ofList symbols).waiting_sorted
  | closing => exact (finds_ofList symbols).strays_sorted

theorem unmatched_eq_nil_iff :
    (ofList symbols).waiting = [] ∧ (ofList symbols).strays = [] ↔
      ∀ b k, ¬ IsUnmatched symbols b k := by
  have h := finds_ofList symbols
  simp only [List.eq_nil_iff_forall_not_mem, h.waiting, h.strays]
  constructor
  · rintro ⟨ho, hc⟩ b k
    cases b with
    | opening => exact ho k
    | closing => exact hc k
  · intro hn
    exact ⟨hn .opening, hn .closing⟩

/-- The depth never falls below zero and ends there. -/
theorem unmatched_eq_nil_iff_depth :
    (ofList symbols).waiting = [] ∧ (ofList symbols).strays = [] ↔
      depth symbols symbols.length = 0 ∧ ∀ k ≤ symbols.length, 0 ≤ depth symbols k := by
  have h := finds_ofList symbols
  have ht := h.total
  constructor
  · rintro ⟨hw, hs⟩
    simp only [hw, hs, List.length_nil] at ht
    refine ⟨by omega, fun k hk => ?_⟩
    have hk := h.highest k hk
    simp only [hw, List.length_nil] at hk
    omega
  · rintro ⟨hz, hn⟩
    have hs : (ofList symbols).strays = [] := by
      refine List.eq_nil_iff_forall_not_mem.2 fun j hj => ?_
      have hlow := ((h.strays j).1 hj).2 0 (Nat.zero_le j)
      have hge := hn (j + 1) (h.lt_of_mem_strays hj)
      rw [depth_zero] at hlow
      omega
    refine ⟨List.length_eq_zero_iff.1 ?_, hs⟩
    rw [hs, List.length_nil] at ht
    omega

end Matching

/-! ## Brackets with partners -/

theorem ArePartners.concat (h : ArePartners symbols i j) (s : Option Bracket) :
    ArePartners (symbols ++ [s]) i j :=
  concat_iff.2 (.inl h)

/-- Only its partner ends the waiting of a bracket. -/
theorem IsUnmatched.arePartners_concat (h : IsUnmatched symbols .opening i)
    (h' : ¬ IsUnmatched (symbols ++ [s]) .opening i) :
    ArePartners (symbols ++ [s]) i symbols.length := by
  have hd := h.depth_lt
  have hr : ¬ depth symbols i < depth symbols symbols.length + rise s :=
    fun hr => h' (opening_concat_iff.2 (.inl ⟨h, hr⟩))
  obtain ⟨rfl, hd⟩ : s = some .closing ∧ depth symbols symbols.length = depth symbols i + 1 := by
    rcases s with _ | (_ | _) <;> simp only [rise] at hr
    · omega
    · omega
    · exact ⟨rfl, by omega⟩
  exact ArePartners.concat_iff.2 (.inr ⟨rfl, rfl, h, hd⟩)

/-- A closing bracket is unmatched only if none waits. -/
theorem exists_arePartners_concat
    (h : ¬ IsUnmatched (symbols ++ [some .closing]) .closing symbols.length) :
    ∃ i, ArePartners (symbols ++ [some .closing]) i symbols.length := by
  obtain ⟨⟨pairs, waiting, strays⟩, hf⟩ : ∃ m : Matching, m.Finds symbols :=
    ⟨_, Matching.finds_ofList symbols⟩
  cases waiting with
  | nil =>
    refine absurd (IsUnmatched.closing_concat_iff.2 (.inr ⟨rfl, rfl, ?_⟩)) h
    simpa using hf.highest
  | cons o waiting =>
    exact ⟨o, ArePartners.concat_iff.2 (.inr ⟨rfl, rfl, hf.eq_head_iff.1 rfl⟩)⟩

/-- A bracket that is not unmatched has a partner. -/
theorem exists_partner {b : Bracket} (hk : symbols[k]? = some (some b))
    (hu : ¬ IsUnmatched symbols b k) :
    ∃ j, ArePartners symbols k j ∨ ArePartners symbols j k := by
  induction symbols using List.reverseRecOn with
  | nil => simp at hk
  | append_singleton symbols s ih =>
    have hle : k ≤ symbols.length :=
      Nat.le_of_lt_succ (by simpa using (List.getElem?_eq_some_iff.1 hk).1)
    rcases Nat.eq_or_lt_of_le hle with rfl | hlt
    · obtain rfl : s = some b := by simpa using hk
      cases b with
      | opening => exact absurd (IsUnmatched.opening_concat_iff.2 (.inr ⟨rfl, rfl⟩)) hu
      | closing =>
        obtain ⟨i, hi⟩ := exists_arePartners_concat hu
        exact ⟨i, .inr hi⟩
    · rw [List.getElem?_append_left hlt] at hk
      by_cases hu' : IsUnmatched symbols b k
      · cases b with
        | opening => exact ⟨_, .inl (hu'.arePartners_concat hu)⟩
        | closing => exact absurd ((IsUnmatched.closing_append_iff hlt).2 hu') hu
      · obtain ⟨j, hj⟩ := ih hk hu'
        exact ⟨j, hj.imp (·.concat s) (·.concat s)⟩

end Brainfuck
