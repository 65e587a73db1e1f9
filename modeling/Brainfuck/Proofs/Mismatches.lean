import Mathlib.Combinatorics.Enumerative.DyckWord
import Mathlib.Order.Bounds.Basic
import Brainfuck.Proofs.Depth
import Brainfuck.Proofs.Emission

/-! # The bracket that is reported

Source text is accepted if and only if its brackets form a Dyck word. Which bracket is reported
otherwise depends on which of the two kinds there are more of. Whether a bracket is unmatched is
said by counting, without a stack: no segment of the text makes up for it.
-/

namespace Brainfuck

namespace Bracket

def toByte : Bracket → UInt8
  | opening => 91
  | closing => 93

def toDyckStep : Bracket → DyckStep
  | opening => .U
  | closing => .D

theorem toDyckStep_injective : Function.Injective toDyckStep := by
  rintro (_ | _) (_ | _) h
  · rfl
  · cases h
  · cases h
  · rfl

end Bracket

def byteBracket? (b : UInt8) : Option Bracket :=
  (Operator.ofByte? b).bind Operator.bracket?

def brackets (bytes : List UInt8) : List Bracket :=
  bytes.filterMap byteBracket?

def Prevails (bytes : List UInt8) : Bracket → Prop
  | .opening => bytes.count Bracket.closing.toByte < bytes.count Bracket.opening.toByte
  | .closing => bytes.count Bracket.opening.toByte < bytes.count Bracket.closing.toByte

/-- The bracket prevails in every segment that begins with it, if it opens, or that ends with it,
if it closes. -/
def IsAlone (bytes : List UInt8) (b : Bracket) (k : Nat) : Prop :=
  bytes[k]? = some b.toByte ∧
    match b with
    | .opening => ∀ j, k ≤ j → j < bytes.length → Prevails (bytes.extract k (j + 1)) .opening
    | .closing => ∀ i ≤ k, Prevails (bytes.extract i (k + 1)) .closing

variable {bytes : List UInt8} {b : Bracket} {i j k : Nat}

theorem byteBracket?_eq_some_iff {x : UInt8} : byteBracket? x = some b ↔ x = b.toByte := by
  constructor
  · intro h
    obtain ⟨op, hop, hb⟩ := Option.bind_eq_some_iff.1 h
    rw [Operator.ofByte?_eq_some_iff.1 hop]
    cases op with
    | loopStart =>
      cases hb
      rfl
    | loopEnd =>
      cases hb
      rfl
    | _ => cases hb
  · rintro rfl
    cases b <;> rfl

theorem count_map_byteBracket? (bytes : List UInt8) (b : Bracket) :
    (bytes.map byteBracket?).count (some b) = bytes.count b.toByte := by
  rw [List.count, List.countP_map, List.count]
  refine List.countP_congr fun x _ => ?_
  simp [byteBracket?_eq_some_iff]

/-- Between two places the bracket prevails that takes the depth from the one to the other. -/
theorem prevails_extract_iff (hij : i ≤ j) : Prevails (bytes.extract i j) b ↔
    0 < rise (some b) *
      (depth (bytes.map byteBracket?) j - depth (bytes.map byteBracket?) i) := by
  have hcount : ∀ b : Bracket, ((bytes.map byteBracket?).extract i j).count (some b) =
      (bytes.extract i j).count b.toByte := by
    intro b
    rw [← count_map_byteBracket?, List.extract_eq_take_drop, List.extract_eq_take_drop,
      List.map_take, List.map_drop]
  rw [depth_eq_add hij, hcount, hcount]
  cases b with
  | opening =>
    rw [Prevails, rise]
    omega
  | closing =>
    rw [Prevails, rise]
    omega

theorem isAlone_iff : IsAlone bytes b k ↔ IsUnmatched (bytes.map byteBracket?) b k := by
  cases b with
  | opening =>
    simp only [IsAlone, IsUnmatched, List.getElem?_map, Option.map_eq_some_iff,
      byteBracket?_eq_some_iff, exists_eq_right, List.length_map]
    refine and_congr_right fun _ => ?_
    constructor
    · intro h j hkj hj
      obtain ⟨j, rfl⟩ := Nat.exists_eq_add_of_lt hkj
      have hp := (prevails_extract_iff (by omega)).1 (h (k + j) (by omega) (by omega))
      rw [rise] at hp
      omega
    · intro h j hkj hj
      have hd := h (j + 1) (by omega) (by omega)
      rw [prevails_extract_iff (by omega), rise]
      omega
  | closing =>
    simp only [IsAlone, IsUnmatched, List.getElem?_map, Option.map_eq_some_iff,
      byteBracket?_eq_some_iff, exists_eq_right]
    refine and_congr_right fun _ => forall₂_congr fun i hi => ?_
    rw [prevails_extract_iff (by omega), rise]
    omega

theorem finds_matchBytes (bytes : List UInt8) :
    (matchBytes bytes).Finds (bytes.map byteBracket?) :=
  Matching.finds_ofList _

/-! ## Dyck words -/

theorem count_map_toDyckStep (bs : List Bracket) (b : Bracket) :
    (bs.map Bracket.toDyckStep).count b.toDyckStep = bs.count b :=
  List.count_map_of_injective bs _ Bracket.toDyckStep_injective b

theorem depth_map_some (bs : List Bracket) (k : Nat) :
    depth (bs.map some) k = (bs.take k).count .opening - (bs.take k).count .closing := by
  simp only [depth, ← List.map_take,
    List.count_map_of_injective _ _ (Option.some_injective Bracket)]

theorem exists_dyckWord_iff (bs : List Bracket) :
    (∃ w : DyckWord, w.toList = bs.map Bracket.toDyckStep) ↔
      depth (bs.map some) (bs.map some).length = 0 ∧
        ∀ k ≤ (bs.map some).length, 0 ≤ depth (bs.map some) k := by
  have hcount : ∀ k, ((bs.map Bracket.toDyckStep).take k).count .U = (bs.take k).count .opening ∧
      ((bs.map Bracket.toDyckStep).take k).count .D = (bs.take k).count .closing := by
    intro k
    rw [← List.map_take]
    exact ⟨count_map_toDyckStep _ .opening, count_map_toDyckStep _ .closing⟩
  simp only [depth_map_some, List.length_map]
  constructor
  · rintro ⟨w, hw⟩
    have hends := w.count_U_eq_count_D
    have hstays := w.count_D_le_count_U
    have hall := hcount bs.length
    rw [hw] at hends hstays
    rw [List.take_of_length_le (by simp)] at hall
    refine ⟨by omega, fun k _ => ?_⟩
    have hk := hcount k
    have hle := hstays k
    omega
  · rintro ⟨hends, hstays⟩
    have hall := hcount bs.length
    rw [List.take_of_length_le (by simp)] at hall
    refine ⟨⟨bs.map Bracket.toDyckStep, by omega, fun k => ?_⟩, rfl⟩
    rcases Nat.le_total k bs.length with hk | hk
    · have hle := hstays k hk
      have hk := hcount k
      omega
    · rw [List.take_of_length_le (by simpa using hk)]
      omega

theorem counts_matchBytes_brackets (bytes : List UInt8) :
    (matchBytes bytes).counts = (Matching.ofList ((brackets bytes).map some)).counts := by
  have h := counts_foldl (bytes.map byteBracket?) 0 {}
  have h' := counts_foldl ((brackets bytes).map some) 0 {}
  rw [List.filterMap_map] at h h'
  have hb : (brackets bytes).filterMap (id ∘ some) = bytes.filterMap (id ∘ byteBracket?) :=
    List.filterMap_some
  rw [hb] at h'
  exact h.trans h'.symm

theorem mismatch?_eq_none_iff_dyckWord : mismatch? bytes = none ↔
    ∃ w : DyckWord, w.toList = (brackets bytes).map Bracket.toDyckStep := by
  rw [exists_dyckWord_iff, ← Matching.unmatched_eq_nil_iff_depth, mismatch?_eq_none_iff]
  have h := counts_matchBytes_brackets bytes
  simp only [Matching.counts, Prod.mk.injEq] at h
  rw [← List.length_eq_zero_iff, ← List.length_eq_zero_iff, h.1, h.2, List.length_eq_zero_iff,
    List.length_eq_zero_iff]

/-! ## The first and the last -/

theorem isGreatest_head? {l : List Nat} (hl : l.Pairwise (· > ·)) (h : l.head? = some k) :
    IsGreatest {x | x ∈ l} k := by
  obtain ⟨rest, rfl⟩ := List.head?_eq_some_iff.1 h
  refine ⟨List.mem_cons_self, fun x hx => ?_⟩
  rcases List.mem_cons.1 hx with rfl | hx
  · exact Nat.le_refl _
  · exact Nat.le_of_lt ((List.pairwise_cons.1 hl).1 x hx)

theorem isLeast_getLast? {l : List Nat} (hl : l.Pairwise (· > ·)) (h : l.getLast? = some k) :
    IsLeast {x | x ∈ l} k := by
  obtain ⟨rest, rfl⟩ := List.getLast?_eq_some_iff.1 h
  refine ⟨List.mem_append_right _ (List.mem_singleton_self k), fun x hx => ?_⟩
  rcases List.mem_append.1 hx with hx | hx
  · exact Nat.le_of_lt ((List.pairwise_append.1 hl).2.2 x hx k (List.mem_singleton_self k))
  · exact Nat.le_of_eq (List.mem_singleton.1 hx).symm

theorem count_add_strays (bytes : List UInt8) :
    bytes.count Bracket.opening.toByte + (matchBytes bytes).strays.length =
      bytes.count Bracket.closing.toByte + (matchBytes bytes).waiting.length := by
  have ht := (finds_matchBytes bytes).total
  rw [depth, List.take_length, count_map_byteBracket?, count_map_byteBracket?] at ht
  omega

theorem setOf_isAlone (bytes : List UInt8) (b : Bracket) :
    {k | IsAlone bytes b k} = {k | k ∈ (matchBytes bytes).unmatched b} := by
  ext k
  exact isAlone_iff.trans Matching.mem_unmatched_iff.symm

theorem isAlone_of_mismatch? {e : BracketMismatch} (h : mismatch? bytes = some e) :
    IsAlone bytes e.bracket e.position := by
  have hf := finds_matchBytes bytes
  simp only [mismatch?] at h
  split at h
  · obtain ⟨k, hk, rfl⟩ := Option.map_eq_some_iff.1 h
    exact isAlone_iff.2 ((hf.waiting k).1 (List.mem_of_getLast? hk))
  · split at h
    · obtain ⟨k, hk, rfl⟩ := Option.map_eq_some_iff.1 h
      exact isAlone_iff.2 ((hf.strays k).1 (List.mem_of_head? hk))
    · obtain ⟨k, hk, rfl⟩ := Option.map_eq_some_iff.1 h
      exact isAlone_iff.2 ((hf.strays k).1 (List.mem_of_getLast? hk))

/-- Text is accepted if and only if no bracket is alone, that is, if its brackets form a Dyck word.
Otherwise the first of the opening brackets that are alone is reported if more brackets open, the
last of the closing ones if more close, and the first of the closing ones if there are as many of
both. -/
theorem mismatch_reports_lone_bracket (bytes : List UInt8) :
    (mismatch? bytes = none ↔ ∀ b k, ¬ IsAlone bytes b k) ∧
    (mismatch? bytes = none ↔
      ∃ w : DyckWord, w.toList = (brackets bytes).map Bracket.toDyckStep) ∧
    (Prevails bytes .opening → ∃ i, IsLeast {k | IsAlone bytes .opening k} i ∧
      mismatch? bytes = some ⟨i, .opening⟩) ∧
    (Prevails bytes .closing → ∃ j, IsGreatest {k | IsAlone bytes .closing k} j ∧
      mismatch? bytes = some ⟨j, .closing⟩) ∧
    (bytes.count Bracket.opening.toByte = bytes.count Bracket.closing.toByte →
      mismatch? bytes ≠ none → ∃ j, IsLeast {k | IsAlone bytes .closing k} j ∧
        mismatch? bytes = some ⟨j, .closing⟩) := by
  have hf := finds_matchBytes bytes
  have hc := count_add_strays bytes
  simp only [setOf_isAlone, Matching.unmatched, Prevails]
  refine ⟨?_, mismatch?_eq_none_iff_dyckWord, fun hp => ?_, fun hp => ?_, fun hp hm => ?_⟩
  · simp only [mismatch?_eq_none_iff, isAlone_iff]
    exact Matching.unmatched_eq_nil_iff
  · have hne : (matchBytes bytes).waiting ≠ [] := by
      rw [← List.length_pos_iff]
      omega
    have hl := List.getLast?_eq_some_getLast hne
    refine ⟨_, isLeast_getLast? hf.waiting_sorted hl, ?_⟩
    rw [mismatch?, if_pos (by omega), hl, Option.map_some]
  · have hne : (matchBytes bytes).strays ≠ [] := by
      rw [← List.length_pos_iff]
      omega
    have hh := List.head?_eq_some_head hne
    refine ⟨_, isGreatest_head? hf.strays_sorted hh, ?_⟩
    rw [mismatch?, if_neg (by omega), if_pos (by omega), hh, Option.map_some]
  · have hne : (matchBytes bytes).strays ≠ [] := by
      intro hs
      refine hm (mismatch?_eq_none_iff.2 ⟨?_, hs⟩)
      rw [← List.length_eq_zero_iff]
      rw [hs, List.length_nil] at hc
      omega
    have hl := List.getLast?_eq_some_getLast hne
    refine ⟨_, isLeast_getLast? hf.strays_sorted hl, ?_⟩
    rw [mismatch?, if_neg (by omega), if_neg (by omega), hl, Option.map_some]

/-- The bytes are `]+[[.][`, where more brackets open, `][].]`, where more close, and `][.]+][[`,
where as many do either. -/
theorem mismatch_reports_lone_bracket_each :
    let opens : List UInt8 := [93, 43, 91, 91, 46, 93, 91]
    let closes : List UInt8 := [93, 91, 93, 46, 93]
    let evens : List UInt8 := [93, 91, 46, 93, 43, 93, 91, 91]
    (Prevails opens .opening ∧ IsLeast {k | IsAlone opens .opening k} 2 ∧
      mismatch? opens = some ⟨2, .opening⟩) ∧
    (Prevails closes .closing ∧ IsGreatest {k | IsAlone closes .closing k} 4 ∧
      mismatch? closes = some ⟨4, .closing⟩) ∧
    (evens.count Bracket.opening.toByte = evens.count Bracket.closing.toByte ∧
      mismatch? evens ≠ none ∧ IsLeast {k | IsAlone evens .closing k} 0 ∧
        mismatch? evens = some ⟨0, .closing⟩) := by
  intro opens closes evens
  have ho : mismatch? opens = some ⟨2, .opening⟩ := by decide
  have hc : mismatch? closes = some ⟨4, .closing⟩ := by decide
  have he : mismatch? evens = some ⟨0, .closing⟩ := by decide
  have hne : mismatch? evens ≠ none := by simp [he]
  have hmore : Prevails opens .opening := by
    change _ < _
    decide
  have hless : Prevails closes .closing := by
    change _ < _
    decide
  have hsame : evens.count Bracket.opening.toByte = evens.count Bracket.closing.toByte := by decide
  obtain ⟨-, -, hopens, -⟩ := mismatch_reports_lone_bracket opens
  obtain ⟨i, hi, hio⟩ := hopens hmore
  obtain ⟨-, -, -, hcloses, -⟩ := mismatch_reports_lone_bracket closes
  obtain ⟨j, hj, hjc⟩ := hcloses hless
  obtain ⟨-, -, -, -, hevens⟩ := mismatch_reports_lone_bracket evens
  obtain ⟨k, hk, hke⟩ := hevens hsame hne
  cases ho.symm.trans hio
  cases hc.symm.trans hjc
  cases he.symm.trans hke
  exact ⟨⟨hmore, hi, ho⟩, ⟨hless, hj, hc⟩, ⟨hsame, hne, hk, he⟩⟩

end Brainfuck
