import Brainfuck.Proofs.JumpValues
import Brainfuck.Proofs.Optimizer
import Brainfuck.Proofs.Reachability

/-! # Jumps and their partners

In a compiled program every jump holds the index of its partner, and loops lie side by side or
within each other. So the instruction pointer never passes the end of the program, and a run that
ends well stops exactly there.
-/

namespace Brainfuck

/-- The jumps at `i` and `j` begin and end a loop, and each has the index of the other as its
value. -/
structure Program.Partners (p : Program) (i j : Nat) : Prop where
  lt : i < j
  start : ∃ a, p[i]? = some a ∧ a.opcode = .jumpIfZero ∧ a.value.toInt = j
  stop : ∃ b, p[j]? = some b ∧ b.opcode = .jumpUnlessZero ∧ b.value.toInt = i

/-- Every jump has a partner, and of two loops one is over before the other begins or ends. -/
structure Program.IsLinked (p : Program) : Prop where
  exists_stop : ∀ {i : Nat} {a : Instr}, p[i]? = some a → a.opcode = .jumpIfZero →
    ∃ j, p.Partners i j
  exists_start : ∀ {j : Nat} {b : Instr}, p[j]? = some b → b.opcode = .jumpUnlessZero →
    ∃ i, p.Partners i j
  nested : ∀ {i j i' j' : Nat}, p.Partners i j → p.Partners i' j' → i < i' → j < i' ∨ j' < j

namespace Program

variable {p : Program} {i j j' k : Nat} {a : Instr} {b : Bracket}

theorem Partners.stop_unique (h : p.Partners i j) (h' : p.Partners i j') : j = j' := by
  obtain ⟨a, ha, -, hv⟩ := h.start
  obtain ⟨a', ha', -, hv'⟩ := h'.start
  cases ha.symm.trans ha'
  exact Int.ofNat.inj (hv.symm.trans hv')

theorem Partners.lt_size (h : p.Partners i j) : j < p.size := by
  obtain ⟨b, hb, -⟩ := h.stop
  exact (Array.getElem?_eq_some_iff.1 hb).1

/-! ## What linking makes of brackets -/

theorem getElem?_symbols_eq_some_iff :
    p.symbols[k]? = some (some b) ↔ ∃ a, p.linkJumps[k]? = some a ∧ a.bracket? = some b := by
  rw [← p.sameButLinks_linkJumps.symbols, symbols, List.getElem?_map, Array.getElem?_toList,
    Option.map_eq_some_iff]

theorem partners_of_arePartners (hl : p.size < 2 ^ 63) (h : ArePartners p.symbols i j) :
    p.linkJumps.Partners i j := by
  have hp : p.HasPartner i j := .inl h
  obtain ⟨a, ha, hav⟩ := hp.exists_value hl
  obtain ⟨b, hb, hbv⟩ := hp.symm.exists_value hl
  obtain ⟨a', ha', hao⟩ := getElem?_symbols_eq_some_iff.1 h.opening
  obtain ⟨b', hb', hbo⟩ := getElem?_symbols_eq_some_iff.1 h.closing
  cases ha.symm.trans ha'
  cases hb.symm.trans hb'
  exact ⟨h.lt, ⟨a, ha, Instr.bracket?_eq_opening_iff.1 hao, hav⟩,
    ⟨b, hb, Instr.bracket?_eq_closing_iff.1 hbo, hbv⟩⟩

theorem IsBalanced.exists_partner (hb : p.IsBalanced) (ha : p.linkJumps[k]? = some a)
    (hab : a.bracket? = some b) : ∃ j, ArePartners p.symbols k j ∨ ArePartners p.symbols j k :=
  Brainfuck.exists_partner (getElem?_symbols_eq_some_iff.2 ⟨a, ha, hab⟩)
    (Matching.unmatched_eq_nil_iff.1 hb b k)

theorem IsBalanced.exists_stop (hb : p.IsBalanced) (ha : p.linkJumps[i]? = some a)
    (ho : a.opcode = .jumpIfZero) : ∃ j, ArePartners p.symbols i j := by
  have hab := Instr.bracket?_eq_opening_iff.2 ho
  obtain ⟨j, h | h⟩ := hb.exists_partner ha hab
  · exact ⟨j, h⟩
  · cases h.closing.symm.trans (getElem?_symbols_eq_some_iff.2 ⟨a, ha, hab⟩)

theorem IsBalanced.exists_start (hb : p.IsBalanced) (ha : p.linkJumps[j]? = some a)
    (hc : a.opcode = .jumpUnlessZero) : ∃ i, ArePartners p.symbols i j := by
  have hab := Instr.bracket?_eq_closing_iff.2 hc
  obtain ⟨i, h | h⟩ := hb.exists_partner ha hab
  · cases h.opening.symm.trans (getElem?_symbols_eq_some_iff.2 ⟨a, ha, hab⟩)
  · exact ⟨i, h⟩

/-- A jump has one value only, so linked jumps are partners only if their brackets are. -/
theorem partners_linkJumps_iff (hb : p.IsBalanced) (hl : p.size < 2 ^ 63) :
    p.linkJumps.Partners i j ↔ ArePartners p.symbols i j := by
  constructor
  · intro h
    obtain ⟨a, ha, ho, -⟩ := h.start
    obtain ⟨j', hj'⟩ := hb.exists_stop ha ho
    rwa [h.stop_unique (partners_of_arePartners hl hj')]
  · exact partners_of_arePartners hl

theorem IsBalanced.isLinked (hb : p.IsBalanced) (hl : p.size < 2 ^ 63) :
    p.linkJumps.IsLinked where
  exists_stop ha ho := by
    obtain ⟨j, hj⟩ := hb.exists_stop ha ho
    exact ⟨j, partners_of_arePartners hl hj⟩
  exists_start ha hc := by
    obtain ⟨i, hi⟩ := hb.exists_start ha hc
    exact ⟨i, partners_of_arePartners hl hi⟩
  nested h h' hlt := by
    rw [partners_linkJumps_iff hb hl] at h h'
    exact h.nested h' hlt

end Program

theorem isLinked_of_compile {code : String} {c : Compiled} (hl : code.utf8ByteSize < 2 ^ 63)
    (h : compile code = .ok c ∨ compilePlain code = .ok c) :
    c.program.IsLinked := by
  have hlen := length_operatorBytes_lt hl
  have hle := size_ofBytes_le (operatorBytes code)
  rcases h with h | h
  · obtain ⟨hm, hp⟩ := compile_eq_ok h
    have hb := (isBalanced_ofBytes hlen hm).foldLoops
    have hle' := (Program.ofBytes (operatorBytes code)).size_foldLoops_le
    rw [hp]
    exact hb.isLinked (by omega)
  · obtain ⟨hm, hp⟩ := compilePlain_eq_ok h
    rw [hp]
    exact (isBalanced_ofBytes hlen hm).isLinked (by omega)

/-! ## Runs of linked programs -/

namespace Machine

variable {i : Instr} {m : Machine}

theorem step_of_jumps (h : i.Jumps m.cell) (flushEach : Bool) :
    m.step flushEach i = ⟨{ m with ip := i.value.toUInt64 + 1 }, none⟩ := by
  obtain ⟨s, ip⟩ := m
  rcases h with ⟨hi, hc⟩ | ⟨hi, hc⟩ <;> simp [step, Instr.follows, State.exec, hi, hc]

theorem ip_step_of_not_jumps (h : ¬ i.Jumps m.cell) (flushEach : Bool) :
    (m.step flushEach i).state.ip = m.ip ∨ (m.step flushEach i).state.ip = m.ip + 1 := by
  obtain ⟨s, ip⟩ := m
  rw [step, Instr.follows_of_not_jumps h]
  split
  · exact .inr rfl
  · exact .inl rfl

end Machine

theorem toNat_toUInt64_add_one {v : Int64} {j : Nat} (h : v.toInt = j) :
    (v.toUInt64 + 1).toNat = j + 1 := by
  have hj : j < 2 ^ 63 := by
    have hv := v.toInt_lt
    omega
  have hv : v = .ofNat j := by
    apply Int64.toInt_inj.1
    rw [h, Int64.toInt_ofNat_of_lt hj]
  have hu : (Int64.ofNat j).toUInt64 = .ofNat j := by simp
  have hlt : j + 1 < 2 ^ 64 := by omega
  rw [hv, hu, ← UInt64.ofNat_one, ← UInt64.ofNat_add, UInt64.toNat_ofNat_of_lt' hlt]

namespace Program

variable {p : Program} {flushEach : Bool} {i : Instr} {m m' : Machine} {r : Run}

theorem IsLinked.step_of_jumps (hp : p.IsLinked) (hf : m.fetch? p = some i)
    (h : i.Jumps m.cell) (flushEach : Bool) :
    ∃ j ip, (p.Partners m.ip.toNat j ∨ p.Partners j m.ip.toNat) ∧
      m.step flushEach i = ⟨{ m with ip := ip }, none⟩ ∧ ip.toNat = j + 1 := by
  have hstep := Machine.step_of_jumps h flushEach
  rcases h with ⟨hi, -⟩ | ⟨hi, -⟩
  · obtain ⟨j, hj⟩ := hp.exists_stop hf hi
    obtain ⟨a, ha, -, hv⟩ := hj.start
    cases hf.symm.trans ha
    exact ⟨j, _, .inl hj, hstep, toNat_toUInt64_add_one hv⟩
  · obtain ⟨j, hj⟩ := hp.exists_start hf hi
    obtain ⟨b, hb, -, hv⟩ := hj.stop
    cases hf.symm.trans hb
    exact ⟨j, _, .inr hj, hstep, toNat_toUInt64_add_one hv⟩

theorem IsLinked.ip_step_le (hp : p.IsLinked) (hf : m.fetch? p = some i) (flushEach : Bool) :
    (m.step flushEach i).state.ip.toNat ≤ p.size := by
  have hlt : m.ip.toNat < p.size := (Array.getElem?_eq_some_iff.1 hf).1
  by_cases h : i.Jumps m.cell
  · obtain ⟨j, ip, hj, hs, hip⟩ := hp.step_of_jumps hf h flushEach
    rw [hs, hip]
    rcases hj with hj | hj
    · exact hj.lt_size
    · exact Nat.lt_trans hj.lt hlt
  · rcases Machine.ip_step_of_not_jumps h flushEach with hip | hip
    · rw [hip]
      exact Nat.le_of_lt hlt
    · rw [hip, UInt64.toNat_add]
      exact Nat.le_trans (Nat.mod_le _ _) hlt

theorem IsLinked.ip_le (hp : p.IsLinked) (h : p.Reaches flushEach m m')
    (hm : m.ip.toNat ≤ p.size) : m'.ip.toNat ≤ p.size :=
  h.invariant (I := fun m => m.ip.toNat ≤ p.size) hm (fun _ hf => hp.ip_step_le hf flushEach) id

/-- A run that ends well has left the program. -/
theorem Ends.size_le_ip (h : p.Ends flushEach m r) (he : r.error? = none) :
    p.size ≤ r.machine.ip.toNat := by
  obtain ⟨m₁, m₂, e?, n, -, hst, rfl⟩ := h.exists_stops
  cases hst with
  | finished hf => exact Array.getElem?_eq_none_iff.1 hf
  | failed => simp at he

end Program

/-- The jumps of a compiled program are linked. However often it is run on one machine, the
instruction pointer stays within the program or right behind it, a jump that is taken leads right
behind its partner, and a run that ends well ends right behind the program. -/
theorem compiled_jumps_lead_to_partners {code : String} {c : Compiled}
    (hl : code.utf8ByteSize < 2 ^ 63) (h : compile code = .ok c ∨ compilePlain code = .ok c) :
    c.program.IsLinked ∧ ∀ (flushEach : Bool) (streams : Streams) (m : Machine),
      c.program.Reaches flushEach (.onStreams streams) m →
        m.ip.toNat ≤ c.program.size ∧
        (∀ i, m.fetch? c.program = some i → i.Jumps m.cell →
          ∃ j ip, (c.program.Partners m.ip.toNat j ∨ c.program.Partners j m.ip.toNat) ∧
            m.step flushEach i = ⟨{ m with ip := ip }, none⟩ ∧ ip.toNat = j + 1) ∧
        ∀ r, c.program.Ends flushEach m r → r.error? = none →
          r.machine.ip.toNat = c.program.size := by
  have hp := isLinked_of_compile hl h
  refine ⟨hp, fun flushEach streams m hm => ?_⟩
  have hle : ∀ {m}, c.program.Reaches flushEach (.onStreams streams) m →
      m.ip.toNat ≤ c.program.size := fun hm => hp.ip_le hm (Nat.zero_le _)
  refine ⟨hle hm, ?_, ?_⟩
  · intro i hf hi
    exact hp.step_of_jumps hf hi flushEach
  · intro r hr he
    exact Nat.le_antisymm (hle (hm.run hr)) (hr.size_le_ip he)

/-- The loop is skipped by one jump, from its start at `0` to behind its end, which is at `3` once
the inner loop is folded. -/
theorem compiled_jumps_lead_to_partners_skip : ∃ (c : Compiled) (i : Instr) (r : Run),
    "[.[-]]".utf8ByteSize < 2 ^ 63 ∧ compile "[.[-]]" = .ok c ∧ c.program.IsLinked ∧
      Machine.fetch? c.program (.start []) = some i ∧ i.Jumps (Machine.start []).cell ∧
      (∃ j ip, (c.program.Partners 0 j ∨ c.program.Partners j 0) ∧
        Machine.step false i (.start []) = ⟨{ Machine.start [] with ip := ip }, none⟩ ∧
          ip.toNat = j + 1) ∧
      c.program.Ends false (.start []) r ∧ r.error? = none ∧
        r.machine.ip.toNat = c.program.size := by
  have hm : mismatch? (operatorBytes "[.[-]]") = none := by decide
  obtain ⟨c, hc, hp⟩ := exists_compile hm
  rw [Program.foldLoops_eq] at hp
  have hl : "[.[-]]".utf8ByteSize < 2 ^ 63 := by decide
  obtain ⟨hlinked, h⟩ := compiled_jumps_lead_to_partners hl (.inl hc)
  obtain ⟨-, hjump, hends⟩ := h false _ (.start []) .start
  have hi : Machine.fetch? c.program (.start []) =
      some { opcode := .jumpIfZero, value := 3 } := by
    rw [hp]
    decide
  have hz : Instr.Jumps { opcode := .jumpIfZero, value := 3 } (Machine.start []).cell :=
    .inl ⟨rfl, by decide⟩
  have hrun : (c.program.run false 10 (.start [])).map Run.error? = some none := by
    rw [hp]
    decide
  obtain ⟨r, hr, he⟩ := Option.map_eq_some_iff.1 hrun
  exact ⟨c, _, r, hl, hc, hlinked, hi, hz, hjump _ hi hz, ⟨10, hr⟩, he, hends r ⟨10, hr⟩ he⟩

end Brainfuck
