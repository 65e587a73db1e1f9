import Mathlib.Algebra.Group.Nat.Defs
import Brainfuck.Proofs.Depth
import Brainfuck.Proofs.Linking

/-! # Which values linking sets

In any program, balanced or not, linking gives every jump with a partner the index of the partner,
and changes nothing else. The values that these jumps held are lost, so to link twice is to link
once. What comes after a balanced program does not change how it is linked.
-/

namespace Brainfuck

namespace Program

def symbols (p : Program) : List (Option Bracket) :=
  p.toList.map Instr.bracket?

def HasPartner (p : Program) (k j : Nat) : Prop :=
  ArePartners p.symbols k j ∨ ArePartners p.symbols j k

/-- The programs differ at most in the values of the jumps with partners. -/
structure SameButLinks (p q : Program) : Prop where
  opcodes : q.toList.map Instr.opcode = p.toList.map Instr.opcode
  offsets : q.toList.map Instr.offset = p.toList.map Instr.offset
  others : ∀ k, (∀ j, ¬ p.HasPartner k j) → q[k]? = p[k]?

variable {p q : Program} {L : List (Nat × Nat)} {i j j' k : Nat}

/-! ## Partners -/

namespace HasPartner

theorem unique (h : p.HasPartner k j) (h' : p.HasPartner k j') : j = j' := by
  rcases h with h | h
  · rcases h' with h' | h'
    · exact h.stop_unique h'
    · exact (h'.not_shared h).elim
  · rcases h' with h' | h'
    · exact (h.not_shared h').elim
    · exact h.start_unique h'

theorem ne (h : p.HasPartner k j) : k ≠ j := by
  rcases h with h | h
  · exact Nat.ne_of_lt h.lt
  · exact Nat.ne_of_gt h.lt

theorem symm (h : p.HasPartner k j) : p.HasPartner j k :=
  Or.symm h

theorem exists_bracket (h : p.HasPartner k j) :
    ∃ i b, p[k]? = some i ∧ i.bracket? = some b := by
  have hs : ∃ b, p.symbols[k]? = some (some b) := by
    rcases h with h | h
    · exact ⟨_, h.opening⟩
    · exact ⟨_, h.closing⟩
  obtain ⟨b, hb⟩ := hs
  rw [symbols, List.getElem?_map, Option.map_eq_some_iff] at hb
  obtain ⟨i, hi, hb⟩ := hb
  exact ⟨i, b, by rwa [Array.getElem?_toList] at hi, hb⟩

theorem lt_size (h : p.HasPartner k j) : k < p.size := by
  obtain ⟨i, -, hi, -⟩ := h.exists_bracket
  exact (Array.getElem?_eq_some_iff.1 hi).1

end HasPartner

theorem mem_pairs_matching (p : Program) (i j : Nat) :
    (i, j) ∈ p.matching.pairs ↔ ArePartners p.symbols i j :=
  (Matching.finds_ofList p.symbols).pairs i j

theorem symbols_eq (p : Program) : p.symbols = (p.toList.map Instr.opcode).map Opcode.bracket? := by
  rw [List.map_map]
  rfl

theorem SameButLinks.symbols (h : p.SameButLinks q) : q.symbols = p.symbols := by
  rw [symbols_eq, symbols_eq, h.opcodes]

theorem SameButLinks.hasPartner_iff (h : p.SameButLinks q) :
    q.HasPartner k j ↔ p.HasPartner k j := by
  rw [HasPartner, HasPartner, h.symbols]

/-! ## One pair after the other -/

theorem getElem?_linkPair_of_ne (p : Program) (hi : i ≠ k) (hj : j ≠ k) :
    (p.linkPair (i, j))[k]? = p[k]? := by
  rw [linkPair, Array.getElem?_modify, if_neg hj, Array.getElem?_modify, if_neg hi]

theorem getElem?_linkPair_left (p : Program) (h : k ≠ j) :
    (p.linkPair (k, j))[k]? = p[k]?.map (.withValue (.ofNat j)) := by
  rw [linkPair, Array.getElem?_modify, if_neg h.symm, Array.getElem?_modify, if_pos rfl]

theorem getElem?_linkPair_right (p : Program) (h : k ≠ j) :
    (p.linkPair (j, k))[k]? = p[k]?.map (.withValue (.ofNat j)) := by
  rw [linkPair, Array.getElem?_modify, if_pos rfl, Array.getElem?_modify, if_neg h.symm]

theorem getElem?_foldl_linkPair_of_ne (p : Program) (h : ∀ x ∈ L, x.1 ≠ k ∧ x.2 ≠ k) :
    (L.foldl linkPair p)[k]? = p[k]? := by
  induction L generalizing p with
  | nil => rfl
  | cons x L ih =>
    obtain ⟨hx, hL⟩ := List.forall_mem_cons.1 h
    rw [List.foldl_cons, ih _ hL, getElem?_linkPair_of_ne p hx.1 hx.2]

/-- If all pairs of `k` are pairs with `j`, any one of them sets the value and the later ones set
the same value again. -/
theorem getElem?_foldl_linkPair (p : Program) (hkj : k ≠ j)
    (hL : ∀ x ∈ L, x.1 = k ∨ x.2 = k → x = (k, j) ∨ x = (j, k))
    (hk : ∃ x ∈ L, x.1 = k ∨ x.2 = k) :
    (L.foldl linkPair p)[k]? = p[k]?.map (.withValue (.ofNat j)) := by
  induction L generalizing p with
  | nil => simp at hk
  | cons x L ih =>
    obtain ⟨hx, hL⟩ := List.forall_mem_cons.1 hL
    have hset : x.1 = k ∨ x.2 = k → (p.linkPair x)[k]? = p[k]?.map (.withValue (.ofNat j)) := by
      intro h
      rcases hx h with rfl | rfl
      · exact getElem?_linkPair_left p hkj
      · exact getElem?_linkPair_right p hkj
    rw [List.foldl_cons]
    by_cases hlater : ∃ x ∈ L, x.1 = k ∨ x.2 = k
    · rw [ih _ hL hlater]
      by_cases h : x.1 = k ∨ x.2 = k
      · rw [hset h, Option.map_map]
        rfl
      · rw [not_or] at h
        rw [getElem?_linkPair_of_ne p h.1 h.2]
    · have hnone : ∀ x ∈ L, x.1 ≠ k ∧ x.2 ≠ k :=
        fun x hx => not_or.1 fun h => hlater ⟨x, hx, h⟩
      obtain ⟨y, hy, h⟩ := hk
      rcases List.mem_cons.1 hy with rfl | hy
      · rw [getElem?_foldl_linkPair_of_ne _ hnone, hset h]
      · exact (hlater ⟨y, hy, h⟩).elim

/-! ## All pairs -/

theorem getElem?_linkJumps_of_not (h : ∀ j, ¬ p.HasPartner k j) : p.linkJumps[k]? = p[k]? := by
  refine getElem?_foldl_linkPair_of_ne p ?_
  rintro ⟨i, j⟩ hx
  rw [mem_pairs_matching] at hx
  constructor
  · rintro rfl
    exact h j (.inl hx)
  · rintro rfl
    exact h i (.inr hx)

theorem HasPartner.getElem?_linkJumps (h : p.HasPartner k j) :
    p.linkJumps[k]? = p[k]?.map (.withValue (.ofNat j)) := by
  refine getElem?_foldl_linkPair p h.ne ?_ ?_
  · rintro ⟨i, i'⟩ hx hk
    rw [mem_pairs_matching] at hx
    rcases hk with rfl | rfl
    · exact .inl (by rw [h.unique (.inl hx)])
    · exact .inr (by rw [h.unique (.inr hx)])
  · rcases h with h | h
    · exact ⟨_, (mem_pairs_matching p k j).2 h, .inl rfl⟩
    · exact ⟨_, (mem_pairs_matching p j k).2 h, .inr rfl⟩

/-- Linking sets the values of jumps only. -/
theorem exists_of_mem_linkJumps {a : Instr} (h : a ∈ p.linkJumps) :
    a ∈ p ∨ ∃ a' ∈ p, ∃ b v, a'.bracket? = some b ∧ a = a'.withValue v := by
  obtain ⟨k, hk⟩ := Array.mem_iff_getElem?.1 h
  by_cases hp : ∃ j, p.HasPartner k j
  · obtain ⟨j, hp⟩ := hp
    obtain ⟨a', b, ha', hb⟩ := hp.exists_bracket
    rw [hp.getElem?_linkJumps, ha', Option.map_some] at hk
    cases hk
    exact .inr ⟨a', Array.mem_of_getElem? ha', b, _, hb, rfl⟩
  · rw [getElem?_linkJumps_of_not (not_exists.1 hp)] at hk
    exact .inl (Array.mem_of_getElem? hk)

theorem sameButLinks_linkJumps (p : Program) : p.SameButLinks p.linkJumps where
  opcodes := p.map_opcode_linkJumps
  offsets := by
    apply List.ext_getElem?
    intro k
    simp only [List.getElem?_map, Array.getElem?_toList]
    by_cases h : ∃ j, p.HasPartner k j
    · obtain ⟨j, h⟩ := h
      rw [h.getElem?_linkJumps, Option.map_map]
      rfl
    · rw [getElem?_linkJumps_of_not (not_exists.1 h)]
  others k := getElem?_linkJumps_of_not

theorem SameButLinks.map_withValue (h : p.SameButLinks q) (v : Int64) (k : Nat) :
    q[k]?.map (Instr.withValue v) = p[k]?.map (Instr.withValue v) := by
  have hop := congrArg (·[k]?) h.opcodes
  have hoff := congrArg (·[k]?) h.offsets
  simp only [List.getElem?_map, Array.getElem?_toList] at hop hoff
  cases hq : q[k]? with
  | none =>
    rw [hq] at hop
    rw [Option.map_eq_none_iff.1 hop.symm]
  | some i' =>
    rw [hq] at hop hoff
    obtain ⟨i, hi, hio⟩ := Option.map_eq_some_iff.1 hop.symm
    rw [hi] at hoff ⊢
    simp only [Option.map_some, Option.some.injEq] at hoff
    simp only [Option.map_some, Instr.withValue, hio, hoff]

/-- Linking does not read the values that it sets. -/
theorem SameButLinks.linkJumps_eq (h : p.SameButLinks q) : q.linkJumps = p.linkJumps := by
  apply Array.ext_getElem?
  intro k
  by_cases hk : ∃ j, p.HasPartner k j
  · obtain ⟨j, hk⟩ := hk
    rw [(h.hasPartner_iff.2 hk).getElem?_linkJumps, hk.getElem?_linkJumps, h.map_withValue]
  · have hk := not_exists.1 hk
    rw [getElem?_linkJumps_of_not fun j => mt h.hasPartner_iff.1 (hk j),
      getElem?_linkJumps_of_not hk, h.others k hk]

theorem HasPartner.exists_value (hl : p.size < 2 ^ 63) (h : p.HasPartner k j) :
    ∃ i, p.linkJumps[k]? = some i ∧ i.value.toInt = j := by
  obtain ⟨i, -, hi, -⟩ := h.exists_bracket
  refine ⟨i.withValue (.ofNat j), ?_, ?_⟩
  · rw [h.getElem?_linkJumps, hi, Option.map_some]
  · exact Int64.toInt_ofNat_of_lt (Nat.lt_trans h.symm.lt_size hl)

/-! ## What comes after a balanced program -/

theorem HasPartner.append (h : p.HasPartner k j) (r : Program) : (p ++ r).HasPartner k j := by
  have hs : (p ++ r).symbols = p.symbols ++ r.symbols := by simp [symbols]
  rw [HasPartner, hs]
  rcases h with h | h
  · exact .inl ((ArePartners.append_iff h.lt_length).2 h)
  · exact .inr ((ArePartners.append_iff h.lt_length).2 h)

theorem IsBalanced.exists_hasPartner (hb : p.IsBalanced) {b : Bracket} {i : Instr}
    (hk : p[k]? = some i) (hi : i.bracket? = some b) : ∃ j, p.HasPartner k j := by
  refine exists_partner (b := b) ?_ (Matching.unmatched_eq_nil_iff.1 hb b k)
  rw [symbols, List.getElem?_map, Array.getElem?_toList, hk, Option.map_some, hi]

theorem IsBalanced.getElem?_linkJumps_append (hb : p.IsBalanced) (r : Program)
    (hk : k < p.size) : (p ++ r).linkJumps[k]? = p.linkJumps[k]? := by
  by_cases h : ∃ j, p.HasPartner k j
  · obtain ⟨j, h⟩ := h
    rw [(h.append r).getElem?_linkJumps, h.getElem?_linkJumps, Array.getElem?_append_left hk]
  · have hr : ∀ j, ¬ (p ++ r).HasPartner k j := by
      intro j hj
      obtain ⟨i, b, hi, hib⟩ := hj.exists_bracket
      rw [Array.getElem?_append_left hk] at hi
      exact h (hb.exists_hasPartner hi hib)
    rw [getElem?_linkJumps_of_not hr, getElem?_linkJumps_of_not (not_exists.1 h),
      Array.getElem?_append_left hk]

theorem IsBalanced.linkJumps_prefix (hb : p.IsBalanced) (r : Program) :
    p.linkJumps.toList <+: (p ++ r).linkJumps.toList := by
  rw [List.prefix_iff_getElem?]
  intro k hk
  have hlt : k < p.size := by simpa using hk
  rw [Array.getElem?_toList, hb.getElem?_linkJumps_append r hlt, ← Array.getElem?_toList,
    List.getElem?_eq_getElem hk]

/-- Linking gives partners each other's index and leaves all else as it was. Loops lie side by side
or within each other. The values that partners held before have no effect, so a linked program stays
as it is, and a balanced program is linked as if it stood alone, whatever comes after it. -/
theorem jump_values_are_exact (p : Program) :
    p.linkJumps.size = p.size ∧ p.SameButLinks p.linkJumps ∧
    (p.size < 2 ^ 63 → ∀ i j, ArePartners p.symbols i j →
      (∃ a, p.linkJumps[i]? = some a ∧ a.value.toInt = j) ∧
        ∃ b, p.linkJumps[j]? = some b ∧ b.value.toInt = i) ∧
    (∀ i j i' j', ArePartners p.symbols i j → ArePartners p.symbols i' j' → i < i' →
      j < i' ∨ j' < j) ∧
    p.linkJumps.linkJumps = p.linkJumps ∧
    (∀ q, p.SameButLinks q → q.linkJumps = p.linkJumps) ∧
    (p.IsBalanced → ∀ r : Program, p.linkJumps.toList <+: (p ++ r).linkJumps.toList) := by
  have hsame := p.sameButLinks_linkJumps
  refine ⟨p.size_linkJumps, hsame, fun hl i j h => ?_, fun i j i' j' h h' => h.nested h',
    hsame.linkJumps_eq, fun q hq => hq.linkJumps_eq, fun hb r => hb.linkJumps_prefix r⟩
  have hij : p.HasPartner i j := .inl h
  exact ⟨hij.exists_value hl, hij.symm.exists_value hl⟩

/-- The program is `][[.]`, in which two brackets have no partner, and `[.]` is put before it. -/
theorem jump_values_are_exact_strays :
    let p : Program := #[{ opcode := .jumpUnlessZero, value := 7 },
      { opcode := .jumpIfZero, value := 8 }, { opcode := .jumpIfZero },
      { opcode := .write, value := 1 }, { opcode := .jumpUnlessZero }]
    let q : Program := #[{ opcode := .jumpUnlessZero, value := 7 },
      { opcode := .jumpIfZero, value := 8 }, { opcode := .jumpIfZero, value := 5 },
      { opcode := .write, value := 1 }, { opcode := .jumpUnlessZero, value := -1 }]
    let u : Program := #[{ opcode := .jumpIfZero }, { opcode := .write, value := 1 },
      { opcode := .jumpUnlessZero }]
    (p.size < 2 ^ 63 ∧ ArePartners p.symbols 2 4 ∧
      (∃ a, p.linkJumps[2]? = some a ∧ a.value.toInt = 4) ∧
        ∃ b, p.linkJumps[4]? = some b ∧ b.value.toInt = 2) ∧
    (p.SameButLinks q ∧ q.linkJumps = p.linkJumps) ∧
    (ArePartners (u ++ p).symbols 0 2 ∧ ArePartners (u ++ p).symbols 5 7 ∧ (2 < 5 ∨ 7 < 2)) ∧
    u.IsBalanced ∧ u.linkJumps.toList <+: (u ++ p).linkJumps.toList := by
  intro p q u
  obtain ⟨-, -, hvalues, -, -, hsame, -⟩ := jump_values_are_exact p
  obtain ⟨-, -, -, hnested, -⟩ := jump_values_are_exact (u ++ p)
  obtain ⟨-, -, -, -, -, -, hprefix⟩ := jump_values_are_exact u
  have hpair : ArePartners p.symbols 2 4 := (p.mem_pairs_matching 2 4).1 (by decide)
  have hfirst : ArePartners (u ++ p).symbols 0 2 :=
    ((u ++ p).mem_pairs_matching 0 2).1 (by decide)
  have hlast : ArePartners (u ++ p).symbols 5 7 :=
    ((u ++ p).mem_pairs_matching 5 7).1 (by decide)
  have hq : p.SameButLinks q := by
    refine ⟨rfl, rfl, fun k hk => ?_⟩
    match k with
    | 0 | 1 | 3 => rfl
    | 2 => exact absurd (.inl hpair) (hk 4)
    | 4 => exact absurd (.inr hpair) (hk 2)
    | k + 5 => rfl
  have hu : u.IsBalanced := ⟨by decide, by decide⟩
  exact ⟨⟨by decide, hpair, hvalues (by decide) 2 4 hpair⟩, ⟨hq, hsame q hq⟩,
    ⟨hfirst, hlast, hnested 0 2 5 7 hfirst hlast (by decide)⟩, hu, hprefix hu p⟩

end Program

end Brainfuck
