import Brainfuck.Interpret
import Brainfuck.Proofs.Canonical
import Brainfuck.Proofs.Mismatches

/-! # Comments

The operators of a text are looked up among its UTF-8 bytes, and they are the same as those among
its characters, since the bytes of a character that takes more than one are all too large. So texts
with the same operator characters cannot be told apart, whatever stands between these.
-/

namespace Brainfuck

def operatorSigns : List Char :=
  ['+', '-', '<', '>', '.', ',', '[', ']']

def operatorChars (code : String) : List Char :=
  code.toList.filter fun c => decide (c ∈ operatorSigns)

variable {c : Char} {b : UInt8} {code code' : String}

/-! ## The bytes of a character -/

theorem Operator.toNat_toByte_lt (op : Operator) : op.toByte.toNat < 128 := by
  cases op <;> decide

theorem utf8EncodeChar_of_lt (h : c.toNat < 128) : String.utf8EncodeChar c = [c.toUInt8] := by
  have hv : c.val.toNat ≤ 127 := Nat.le_of_lt_succ h
  rw [String.utf8EncodeChar, if_pos hv]
  rfl

theorem le_toNat_of_one_lt_utf8Size (h : 1 < c.utf8Size) : 128 ≤ c.toNat := by
  by_contra hlt
  have hle : c.val ≤ 127 := UInt32.le_iff_toNat_le.2 (Nat.le_of_not_lt hlt)
  rw [Char.utf8Size_eq_one_iff.2 hle] at h
  exact Nat.lt_irrefl 1 h

theorem le_toNat_of_mem_utf8EncodeChar (h : 128 ≤ c.toNat) (hb : b ∈ String.utf8EncodeChar c) :
    128 ≤ b.toNat := by
  have hv : ¬ c.val.toNat ≤ 127 := Nat.not_le_of_lt h
  simp only [String.utf8EncodeChar, if_neg hv] at hb
  -- Every byte is made of six bits at most and a marker that is 128 or more.
  split at hb
  · simp only [List.mem_cons, List.not_mem_nil, or_false] at hb
    rcases hb with rfl | rfl <;> simp <;> omega
  · split at hb
    · simp only [List.mem_cons, List.not_mem_nil, or_false] at hb
      rcases hb with rfl | rfl | rfl <;> simp <;> omega
    · simp only [List.mem_cons, List.not_mem_nil, or_false] at hb
      rcases hb with rfl | rfl | rfl | rfl <;> simp <;> omega

theorem ofByte?_eq_none_of_mem_utf8EncodeChar (h : 128 ≤ c.toNat)
    (hb : b ∈ String.utf8EncodeChar c) : Operator.ofByte? b = none := by
  have hle := le_toNat_of_mem_utf8EncodeChar h hb
  rw [Option.eq_none_iff_forall_ne_some]
  intro op hop
  have hlt := op.toNat_toByte_lt
  rw [Operator.ofByte?_eq_some_iff.1 hop] at hle
  omega

theorem ofUInt8_toUInt8 (h : c.toNat < 128) : Char.ofUInt8 c.toUInt8 = c := by
  apply Char.toNat_inj.1
  change c.val.toUInt8.toUInt32.toNat = c.toNat
  rw [UInt8.toNat_toUInt32, UInt32.toNat_toUInt8]
  exact Nat.mod_eq_of_lt (Nat.lt_trans h (by decide))

/-! ## Operator characters -/

theorem mem_operatorSigns_iff : c ∈ operatorSigns ↔ ∃ op : Operator, c = .ofUInt8 op.toByte := by
  constructor
  · intro h
    simp only [operatorSigns, List.mem_cons, List.not_mem_nil, or_false] at h
    rcases h with rfl | rfl | rfl | rfl | rfl | rfl | rfl | rfl
    · exact ⟨.increment, rfl⟩
    · exact ⟨.decrement, rfl⟩
    · exact ⟨.left, rfl⟩
    · exact ⟨.right, rfl⟩
    · exact ⟨.write, rfl⟩
    · exact ⟨.read, rfl⟩
    · exact ⟨.loopStart, rfl⟩
    · exact ⟨.loopEnd, rfl⟩
  · rintro ⟨op, rfl⟩
    cases op <;> decide

theorem toNat_lt_of_mem_operatorSigns (h : c ∈ operatorSigns) : c.toNat < 128 := by
  obtain ⟨op, rfl⟩ := mem_operatorSigns_iff.1 h
  cases op <;> decide

theorem isSome_ofByte?_toUInt8_iff (h : c.toNat < 128) :
    (Operator.ofByte? c.toUInt8).isSome ↔ c ∈ operatorSigns := by
  rw [Option.isSome_iff_exists, mem_operatorSigns_iff]
  apply exists_congr
  intro op
  rw [Operator.ofByte?_eq_some_iff]
  constructor
  · intro hop
    rw [← hop, ofUInt8_toUInt8 h]
  · rintro rfl
    cases op <;> rfl

theorem filter_utf8EncodeChar (c : Char) :
    (String.utf8EncodeChar c).filter (fun b => (Operator.ofByte? b).isSome) =
      if c ∈ operatorSigns then [c.toUInt8] else [] := by
  rcases Nat.lt_or_ge c.toNat 128 with h | h
  · rw [utf8EncodeChar_of_lt h, List.filter_singleton, Bool.cond_eq_ite]
    simp only [isSome_ofByte?_toUInt8_iff h]
  · have hc : c ∉ operatorSigns := by
      intro hc
      have hlt := toNat_lt_of_mem_operatorSigns hc
      omega
    rw [if_neg hc, List.filter_eq_nil_iff]
    intro b hb
    simp [ofByte?_eq_none_of_mem_utf8EncodeChar h hb]

theorem filter_flatMap_utf8EncodeChar (cs : List Char) :
    (cs.flatMap String.utf8EncodeChar).filter (fun b => (Operator.ofByte? b).isSome) =
      (cs.filter fun c => decide (c ∈ operatorSigns)).map Char.toUInt8 := by
  induction cs with
  | nil => rfl
  | cons c cs ih =>
    rw [List.flatMap_cons, List.filter_append, ih, filter_utf8EncodeChar, List.filter_cons]
    by_cases hc : c ∈ operatorSigns <;> simp [hc]

theorem operatorBytes_eq (code : String) :
    operatorBytes code = (operatorChars code).map Char.toUInt8 := by
  rw [operatorBytes, operatorChars, ← filter_flatMap_utf8EncodeChar, String.toUTF8_eq_toByteArray,
    ← String.utf8Encode_toList, List.utf8Encode, List.data_toByteArray]

theorem eq_toChar_of_toUInt8 {b : Bracket} (hc : c ∈ operatorSigns) (h : c.toUInt8 = b.toByte) :
    c = b.toChar := by
  rw [← ofUInt8_toUInt8 (toNat_lt_of_mem_operatorSigns hc), h]
  cases b <;> rfl

/-- A mismatch is counted in operator characters. -/
theorem getElem?_operatorChars_of_mismatch? {e : BracketMismatch}
    (h : mismatch? (operatorBytes code) = some e) :
    (operatorChars code)[e.position]? = some e.bracket.toChar := by
  obtain ⟨hb, -⟩ := isAlone_of_mismatch? h
  rw [operatorBytes_eq, List.getElem?_map] at hb
  obtain ⟨c, hc, hcb⟩ := Option.map_eq_some_iff.1 hb
  have hmem : c ∈ operatorSigns := by
    simpa using (List.mem_filter.1 (List.mem_of_getElem? hc)).2
  rw [hc, eq_toChar_of_toUInt8 hmem hcb]

/-! ## Compilation -/

theorem map_program_compile (h : operatorBytes code = operatorBytes code') :
    (compile code).map Compiled.program = (compile code').map Compiled.program := by
  simp only [compile, h]
  split <;> rfl

theorem compilePlain_congr (h : operatorBytes code = operatorBytes code') :
    compilePlain code = compilePlain code' := by
  simp only [compilePlain, h]

theorem interpret_congr (h : operatorBytes code = operatorBytes code') (bound : Nat)
    (input : List UInt8) : interpret bound code input = interpret bound code' input := by
  simp only [interpret, compile, h]
  cases mismatch? (operatorBytes code') <;> rfl

theorem mismatch?_of_error {e : BracketMismatch}
    (h : compile code = .error e ∨ compilePlain code = .error e) :
    mismatch? (operatorBytes code) = some e := by
  cases hm : mismatch? (operatorBytes code) with
  | none => simp [compile, compilePlain, hm] at h
  | some e' => simpa [compile, compilePlain, hm] using h

/-- Texts with the same operator characters are compiled to the same program or are refused for the
same bracket at the same place among these characters, and they run alike. No byte of a longer
character is an operator. The unfolded program stands for the operator characters, and neighbours in
it never share a run, so no comment splits one. -/
theorem comments_change_nothing (code : String) :
    (∀ code', operatorChars code = operatorChars code' →
      (compile code).map Compiled.program = (compile code').map Compiled.program ∧
      compilePlain code = compilePlain code' ∧
      ∀ bound input, interpret bound code input = interpret bound code' input) ∧
    (∀ e, compile code = .error e ∨ compilePlain code = .error e →
      (operatorChars code)[e.position]? = some e.bracket.toChar) ∧
    (∀ c : Char, 1 < c.utf8Size → ∀ b ∈ String.utf8EncodeChar c, Operator.ofByte? b = none) ∧
    ∀ c, code.utf8ByteSize < 2 ^ 63 → compilePlain code = .ok c →
      c.program.expansion = (operatorChars code).map Char.toUInt8 ∧
        c.program.toList.IsChain Instr.EndsRun := by
  refine ⟨?_, ?_, ?_, ?_⟩
  · intro code' h
    have hops : operatorBytes code = operatorBytes code' := by
      rw [operatorBytes_eq, operatorBytes_eq, h]
    exact ⟨map_program_compile hops, compilePlain_congr hops, interpret_congr hops⟩
  · intro e h
    exact getElem?_operatorChars_of_mismatch? (mismatch?_of_error h)
  · intro c hc b hb
    exact ofByte?_eq_none_of_mem_utf8EncodeChar (le_toNat_of_one_lt_utf8Size hc) hb
  · intro c hl h
    constructor
    · rw [expansion_of_compilePlain hl h, operatorBytes_eq]
    · exact isChain_of_compilePlain hl h

/-- The comments are characters whose code points end in the bytes of `+`, `[` and `]`. -/
theorem comments_change_nothing_lowBytes :
    let code := "+\u012b+\u015b[\u025d.\u262f]"
    operatorChars code = operatorChars "++[.]" ∧ compilePlain code = compilePlain "++[.]" ∧
    compile "[\u045b\u015d]\u025d]" = .error ⟨2, .closing⟩ ∧
      (operatorChars "[\u045b\u015d]\u025d]")[2]? = some ']' ∧
    1 < '\u012b'.utf8Size ∧ 0xc4 ∈ String.utf8EncodeChar '\u012b' ∧
      Operator.ofByte? 0xc4 = none ∧
    code.utf8ByteSize < 2 ^ 63 ∧ ∃ c, compilePlain code = .ok c ∧
      c.program.expansion = [43, 43, 91, 46, 93] ∧ c.program.toList.IsChain Instr.EndsRun := by
  intro code
  have hchars : operatorChars code = operatorChars "++[.]" := by decide
  have he : compile "[\u045b\u015d]\u025d]" = .error ⟨2, .closing⟩ := by
    have hm : mismatch? (operatorBytes "[\u045b\u015d]\u025d]") = some ⟨2, .closing⟩ := by decide
    simp only [compile, hm]
  have hb : 0xc4 ∈ String.utf8EncodeChar '\u012b' := by decide
  have hl : code.utf8ByteSize < 2 ^ 63 := by decide
  have hm : mismatch? (operatorBytes code) = none := by decide
  obtain ⟨c, hc, -⟩ := exists_compilePlain hm
  obtain ⟨hsame, -, hbytes, hruns⟩ := comments_change_nothing code
  obtain ⟨-, hplain, -⟩ := hsame _ hchars
  obtain ⟨-, herror, -⟩ := comments_change_nothing "[\u045b\u015d]\u025d]"
  obtain ⟨hexp, hchain⟩ := hruns c hl hc
  exact ⟨hchars, hplain, he, herror _ (.inl he), by decide, hb, hbytes _ (by decide) _ hb, hl, c,
    hc, hexp.trans (by decide), hchain⟩

end Brainfuck
