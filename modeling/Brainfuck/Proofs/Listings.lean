import Mathlib.Data.List.Basic
import Std.Data.String.ToInt
import Brainfuck.Listing
import Brainfuck.Proofs.Emission
import Brainfuck.Proofs.Folding
import Brainfuck.Proofs.JumpValues

/-! # Listings determine programs

A listing can be read in one way only. No line holds the end of a line, the index columns of all
lines are equally wide, no mnemonic begins another one, and a decimal number ends at the bracket or
at the end of the line. So all words that are shown can be told from the listing.
-/

namespace Brainfuck

/-- The words that the instruction does not use, which its text leaves out, are zero. -/
structure Instr.HidesNothing (i : Instr) : Prop where
  value : i.opcode = .clear ∨ i.opcode = .scanLeft ∨ i.opcode = .scanRight → i.value = 0
  offset : i.opcode ≠ .multiply → i.offset = 0

def Program.HidesNothing (p : Program) : Prop :=
  ∀ i ∈ p, i.HidesNothing

/-! ## Decimal numbers -/

theorem decimal_injective : Function.Injective decimal :=
  fun _ _ h => Int64.toInt_inj.1 (Int.repr_injective h)

theorem isDigit_of_mem_repr {c : Char} {n : Nat} (h : c ∈ n.repr.toList) : c.isDigit := by
  rw [Nat.toList_repr] at h
  exact Nat.isDigit_of_mem_toDigits (by decide) (by decide) h

theorem mem_toList_decimal {c : Char} {n : Int64} (h : c ∈ (decimal n).toList) :
    c = '-' ∨ c.isDigit := by
  rw [decimal, Int.repr_eq_if] at h
  split at h
  · exact .inr (isDigit_of_mem_repr h)
  · rw [String.toList_append] at h
    rcases List.mem_append.1 h with h | h
    · exact .inl (List.mem_singleton.1 h)
    · exact .inr (isDigit_of_mem_repr h)

theorem mem_toList_signedDecimal {c : Char} {n : Int64} (h : c ∈ (signedDecimal n).toList) :
    c = '+' ∨ c = '-' ∨ c.isDigit := by
  unfold signedDecimal at h
  split at h
  · exact .inr (mem_toList_decimal h)
  · rw [String.toList_append] at h
    rcases List.mem_append.1 h with h | h
    · exact .inl (List.mem_singleton.1 h)
    · exact .inr (mem_toList_decimal h)

theorem head?_decimal_of_neg {n : Int64} (h : n < 0) : (decimal n).toList.head? = some '-' := by
  have hn : n.toInt < 0 := Int64.lt_iff_toInt_lt.1 h
  rw [decimal, Int.repr_eq_if, if_neg (by omega), String.toList_append]
  rfl

theorem signedDecimal_injective : Function.Injective signedDecimal := by
  intro a b h
  unfold signedDecimal at h
  split at h
  · rename_i ha
    split at h
    · exact decimal_injective h
    · -- A minus sign is not a plus sign.
      have hhead := head?_decimal_of_neg ha
      rw [h, String.toList_append] at hhead
      cases hhead
  · split at h
    · rename_i hb
      have hhead := head?_decimal_of_neg hb
      rw [← h, String.toList_append] at hhead
      cases hhead
    · apply decimal_injective
      apply String.toList_inj.1
      have hl := congrArg String.toList h
      rw [String.toList_append, String.toList_append] at hl
      exact List.append_cancel_left hl

/-! ## The text of an instruction -/

namespace Opcode

/-- The text of an instruction up to its words. -/
def mnemonic : Opcode → List Char
  | add => ['a', 'd', 'd', ' ']
  | move => ['m', 'o', 'v', 'e', ' ']
  | read => ['r', 'e', 'a', 'd', ' ']
  | write => ['w', 'r', 'i', 't', 'e', ' ']
  | jumpIfZero => ['j', 'z', ' ']
  | jumpUnlessZero => ['j', 'n', 'z', ' ']
  | clear => ['c', 'l', 'e', 'a', 'r']
  | scanLeft => ['s', 'c', 'a', 'n', ' ', 'l', 'e', 'f', 't']
  | scanRight => ['s', 'c', 'a', 'n', ' ', 'r', 'i', 'g', 'h', 't']
  | multiply => ['m', 'u', 'l', ' ', '[']

theorem eq_of_prefix_mnemonic {op op' : Opcode} (h : op.mnemonic <+: op'.mnemonic) : op = op' := by
  revert h
  cases op <;> cases op' <;> decide

theorem mnemonic_append_inj {op op' : Opcode} {x y : List Char}
    (h : op.mnemonic ++ x = op'.mnemonic ++ y) : op = op' ∧ x = y := by
  have hop : op = op' := by
    rcases List.prefix_or_prefix_of_prefix (List.prefix_append op.mnemonic x)
      (h ▸ List.prefix_append op'.mnemonic y) with hp | hp
    · exact eq_of_prefix_mnemonic hp
    · exact (eq_of_prefix_mnemonic hp).symm
  subst hop
  exact ⟨rfl, List.append_cancel_left h⟩

end Opcode

theorem append_cons_inj {α : Type} {a : α} {x y z z' : List α} (hx : a ∉ x) (hy : a ∉ y) :
    x ++ a :: z = y ++ a :: z' ↔ x = y ∧ z = z' := by
  constructor
  · intro h
    rcases List.append_eq_append_iff.1 h with ⟨t, rfl, ht⟩ | ⟨t, rfl, ht⟩
    · cases t with
      | nil => simpa using ht
      | cons b t =>
        obtain rfl : a = b := (List.cons.inj ht).1
        simp at hy
    · cases t with
      | nil => simpa [eq_comm] using ht
      | cons b t =>
        obtain rfl : a = b := (List.cons.inj ht).1
        simp at hx
  · rintro ⟨rfl, rfl⟩
    rfl

namespace Instr

variable {i j : Instr}

def words (i : Instr) : List Char :=
  match i.opcode with
  | .clear | .scanLeft | .scanRight => []
  | .multiply => (signedDecimal i.offset).toList ++ ']' :: ' ' :: (decimal i.value).toList
  | _ => (decimal i.value).toList

theorem toList_text (i : Instr) : i.text.toList = i.opcode.mnemonic ++ i.words := by
  unfold text words Opcode.mnemonic
  cases i.opcode <;> simp

theorem newline_notMem_text (i : Instr) : '\n' ∉ i.text.toList := by
  have hv : '\n' ∉ (decimal i.value).toList := fun h => by
    simpa using mem_toList_decimal h
  have ho : '\n' ∉ (signedDecimal i.offset).toList := fun h => by
    simpa using mem_toList_signedDecimal h
  rw [toList_text, words]
  cases i.opcode <;> simp [Opcode.mnemonic, hv, ho]

theorem bracket_notMem_signedDecimal (n : Int64) : ']' ∉ (signedDecimal n).toList := fun h => by
  simpa using mem_toList_signedDecimal h

theorem eq_of_text_eq (hi : i.HidesNothing) (hj : j.HidesNothing) (h : i.text = j.text) :
    i = j := by
  have hl := congrArg String.toList h
  rw [toList_text, toList_text] at hl
  obtain ⟨hop, hw⟩ := Opcode.mnemonic_append_inj hl
  obtain ⟨op, v, o⟩ := i
  obtain ⟨op', v', o'⟩ := j
  obtain rfl : op = op' := hop
  cases op with
  | clear | scanLeft | scanRight =>
    have hv : v = 0 := hi.value (by simp)
    have hv' : v' = 0 := hj.value (by simp)
    have ho : o = 0 := hi.offset nofun
    have ho' : o' = 0 := hj.offset nofun
    rw [hv, hv', ho, ho']
  | multiply =>
    obtain ⟨ho, hv⟩ := (append_cons_inj (bracket_notMem_signedDecimal o)
      (bracket_notMem_signedDecimal o')).1 hw
    obtain rfl := signedDecimal_injective (String.toList_inj.1 ho)
    obtain rfl := decimal_injective (String.toList_inj.1 (List.cons.inj hv).2)
    rfl
  | _ =>
    obtain rfl : v = v' := decimal_injective (String.toList_inj.1 hw)
    have ho : o = 0 := hi.offset nofun
    have ho' : o' = 0 := hj.offset nofun
    rw [ho, ho']

end Instr

/-! ## Lines -/

theorem length_repr_mono {m n : Nat} (h : m ≤ n) : m.repr.length ≤ n.repr.length := by
  have hn := (Nat.length_repr_le_iff Nat.length_repr_pos).1 (Nat.le_refl n.repr.length)
  exact (Nat.length_repr_le_iff Nat.length_repr_pos).2 (Nat.lt_of_le_of_lt h hn)

theorem eq_of_flatMap_newline {ls ls' : List String} (hl : ∀ l ∈ ls, '\n' ∉ l.toList)
    (hl' : ∀ l ∈ ls', '\n' ∉ l.toList)
    (h : ls.flatMap (fun l => l.toList ++ ['\n']) = ls'.flatMap fun l => l.toList ++ ['\n']) :
    ls = ls' := by
  induction ls generalizing ls' with
  | nil =>
    cases ls' with
    | nil => rfl
    | cons l' ls' => simp at h
  | cons l ls ih =>
    cases ls' with
    | nil => simp at h
    | cons l' ls' =>
      obtain ⟨hl, hls⟩ := List.forall_mem_cons.1 hl
      obtain ⟨hl', hls'⟩ := List.forall_mem_cons.1 hl'
      simp only [List.flatMap_cons, List.append_assoc, List.singleton_append] at h
      obtain ⟨hhead, htail⟩ := (append_cons_inj hl hl').1 h
      rw [String.toList_inj.1 hhead, ih hls hls' htail]

namespace Program

variable {p q : Program} {k : Nat} {i : Instr}

def indexColumn (p : Program) (k : Nat) : String :=
  rightAligned p.indexWidth k.repr

def lines (p : Program) : List String :=
  p.toList.zipIdx.map fun (i, k) => p.indexColumn k ++ "  " ++ i.text

theorem toList_listing (p : Program) :
    p.listing.toList = p.lines.flatMap fun l => l.toList ++ ['\n'] := by
  rw [listing, String.toList_join, lines, List.flatMap_map, List.flatMap_map]
  apply List.flatMap_congr
  rintro ⟨i, k⟩ -
  exact String.toList_append

@[simp] theorem length_lines (p : Program) : p.lines.length = p.size := by
  rw [lines, List.length_map, List.length_zipIdx, Array.length_toList]

theorem getElem?_lines (p : Program) (k : Nat) :
    p.lines[k]? = p[k]?.map fun i => p.indexColumn k ++ "  " ++ i.text := by
  rw [lines, List.getElem?_map, List.getElem?_zipIdx, Option.map_map, Array.getElem?_toList,
    Nat.zero_add]
  rfl

/-- The last index is the widest one, so there is room for every other. -/
theorem indexColumn_eq (hk : k < p.size) : ∃ pad, pad + k.repr.length = p.indexWidth ∧
    p.indexColumn k = String.ofList (List.replicate pad ' ') ++ k.repr := by
  have hle : k.repr.length ≤ p.indexWidth := length_repr_mono (Nat.le_sub_one_of_lt hk)
  refine ⟨p.indexWidth - k.repr.length, Nat.sub_add_cancel hle, ?_⟩
  rw [indexColumn, rightAligned, List.leftpad, String.ofList_append, String.ofList_toList,
    String.length_toList]

theorem newline_notMem_lines : ∀ l ∈ p.lines, '\n' ∉ l.toList := by
  intro l hl
  obtain ⟨k, hk⟩ := List.mem_iff_getElem?.1 hl
  rw [getElem?_lines, Option.map_eq_some_iff] at hk
  obtain ⟨i, hi, rfl⟩ := hk
  obtain ⟨pad, -, hcolumn⟩ := indexColumn_eq (Array.getElem?_eq_some_iff.1 hi).1
  have hindex : '\n' ∉ k.repr.toList := fun h => absurd (isDigit_of_mem_repr h) (by decide)
  rw [hcolumn]
  simp [-Nat.toList_repr, hindex, i.newline_notMem_text]

/-- Equal listings have equally many lines, so that their index columns are the same. -/
theorem eq_of_lines_eq (hp : p.HidesNothing) (hq : q.HidesNothing) (h : p.lines = q.lines) :
    p = q := by
  have hsize : p.size = q.size := by
    rw [← length_lines, h, length_lines]
  apply Array.ext_getElem?
  intro k
  have hk := congrArg (fun ls => ls[k]?) h
  simp only [getElem?_lines, indexColumn, indexWidth, hsize] at hk
  cases hi : p[k]? with
  | none =>
    rw [hi, Option.map_none, eq_comm, Option.map_eq_none_iff] at hk
    exact hk.symm
  | some i =>
    rw [hi, Option.map_some, eq_comm, Option.map_eq_some_iff] at hk
    obtain ⟨j, hj, htext⟩ := hk
    have hl := congrArg String.toList htext
    simp only [String.toList_append, List.append_assoc] at hl
    have hij := String.toList_inj.1 (List.append_cancel_left (List.append_cancel_left hl))
    rw [hj, Instr.eq_of_text_eq (hq j (Array.mem_of_getElem? hj)) (hp i (Array.mem_of_getElem? hi))
      hij]

theorem eq_of_listing_eq (hp : p.HidesNothing) (hq : q.HidesNothing)
    (h : p.listing = q.listing) : p = q := by
  apply eq_of_lines_eq hp hq
  apply eq_of_flatMap_newline newline_notMem_lines newline_notMem_lines
  rw [← toList_listing, ← toList_listing, h]

/-! ## Compiled programs -/

theorem hidesNothing_ofBytes (bytes : List UInt8) : (ofBytes bytes).HidesNothing := by
  intro i hi
  obtain ⟨n, op, -, -, hi⟩ := exists_instrs_of_mem_ofBytes (Array.mem_toList_iff.2 hi)
  cases op with
  | loopStart | loopEnd =>
    rw [(List.mem_replicate.1 hi).2]
    exact ⟨nofun, fun _ => rfl⟩
  | _ =>
    rw [List.mem_singleton.1 hi]
    exact ⟨nofun, fun _ => rfl⟩

end Program

theorem hidesNothing_of_mem_closedForm {body form : List Instr}
    (h : closedForm? body = some form) : ∀ i ∈ form, i.HidesNothing := by
  have hclear : Instr.clear.HidesNothing := ⟨fun _ => rfl, fun _ => rfl⟩
  intro i hi
  rcases closedForm?_cases h with ⟨e, -, -, rfl⟩ | ⟨j, k, -, hk, rfl⟩
  · rcases List.mem_append.1 hi with hi | hi
    · obtain ⟨_, -, rfl⟩ := List.mem_map.1 hi
      exact ⟨nofun, fun h => (h rfl).elim⟩
    · rwa [List.mem_singleton.1 hi]
  · rw [List.mem_singleton.1 hi]
    rcases Instr.closedForm?_cases hk with ⟨-, -, rfl⟩ | ⟨-, -, rfl⟩ | ⟨-, -, rfl⟩
    · exact hclear
    · exact ⟨fun _ => rfl, fun _ => rfl⟩
    · exact ⟨fun _ => rfl, fun _ => rfl⟩

namespace Program

variable {p : Program}

theorem HidesNothing.foldLoops (h : p.HidesNothing) : p.foldLoops.program.HidesNothing := by
  intro i hi
  rw [foldLoops_eq, List.mem_toArray] at hi
  refine Forest.forall_mem_flatten_fold (fun _ _ => hidesNothing_of_mem_closedForm) ?_ i hi
  intro j hj
  rw [flatten_forest, Array.mem_toList_iff] at hj
  exact h j hj

theorem HidesNothing.linkJumps (h : p.HidesNothing) : p.linkJumps.HidesNothing := by
  intro i hi
  rcases exists_of_mem_linkJumps hi with hi | ⟨j, hj, b, v, hb, rfl⟩
  · exact h i hi
  · refine ⟨fun hop => ?_, (h j hj).offset⟩
    change j.opcode = .clear ∨ j.opcode = .scanLeft ∨ j.opcode = .scanRight at hop
    -- No bracket clears or scans.
    rw [Instr.bracket?] at hb
    rcases hop with hop | hop | hop <;> simp [hop, Opcode.bracket?] at hb

end Program

/-- Two programs with the same listing are the same if all words that they do not use are zero, as
they are in compiled programs. A listing has one line for every instruction, and the indices of all
lines are padded to one width. -/
theorem listing_determines_program :
    (∀ p q : Program, p.HidesNothing → q.HidesNothing → p.listing = q.listing → p = q) ∧
    (∀ (code : String) (c : Compiled), compile code = .ok c ∨ compilePlain code = .ok c →
      c.program.HidesNothing) ∧
    ∀ p : Program, ∃ lines : List String,
      p.listing.toList = lines.flatMap (fun l => l.toList ++ ['\n']) ∧
      (∀ l ∈ lines, '\n' ∉ l.toList) ∧ lines.length = p.size ∧
      ∀ (k : Nat) (i : Instr), p[k]? = some i → ∃ pad, pad + k.repr.length = p.indexWidth ∧
        lines[k]? = some (String.ofList (List.replicate pad ' ') ++ k.repr ++ "  " ++ i.text) := by
  refine ⟨fun p q => Program.eq_of_listing_eq, ?_, ?_⟩
  · rintro code c (h | h)
    · rw [(compile_eq_ok h).2]
      exact (Program.hidesNothing_ofBytes _).foldLoops.linkJumps
    · rw [(compilePlain_eq_ok h).2]
      exact (Program.hidesNothing_ofBytes _).linkJumps
  · intro p
    refine ⟨p.lines, p.toList_listing, Program.newline_notMem_lines, p.length_lines, ?_⟩
    intro k i hi
    obtain ⟨pad, hpad, hcolumn⟩ := Program.indexColumn_eq (Array.getElem?_eq_some_iff.1 hi).1
    refine ⟨pad, hpad, ?_⟩
    rw [Program.getElem?_lines, hi, Option.map_some, hcolumn]

/-- Eleven instructions, so that the index of a line has up to two digits. -/
theorem listing_determines_program_padded :
    let p : Program := #[{ opcode := .add, value := 1 }, .multiply 1 1, .clear,
      { opcode := .move, value := 1 }, { opcode := .write, value := 1 },
      { opcode := .read, value := 1 }, { opcode := .write, value := 1 },
      { opcode := .read, value := 1 }, { opcode := .write, value := 1 },
      { opcode := .read, value := 1 }, { opcode := .write, value := 1 }]
    ∃ c, compile "+[->+<]>.,.,.,." = .ok c ∧ c.program.HidesNothing ∧ p.HidesNothing ∧
      c.program.listing = p.listing ∧ c.program = p ∧ p[1]? = some (.multiply 1 1) ∧
        ∃ lines : List String, lines[1]? = some " 1  mul [+1] 1" ∧ lines.length = 11 ∧
          p.listing.toList = lines.flatMap fun l => l.toList ++ ['\n'] := by
  intro p
  obtain ⟨hinj, hcompiled, hlines⟩ := listing_determines_program
  have hm : mismatch? (operatorBytes "+[->+<]>.,.,.,.") = none := by decide
  obtain ⟨c, hc, hcp⟩ := exists_compile hm
  rw [Program.foldLoops_eq] at hcp
  have hp : c.program = p := by
    rw [hcp]
    decide
  have hh := hcompiled _ c (.inl hc)
  have hl : c.program.listing = p.listing := by rw [hp]
  have hi : p[1]? = some (.multiply 1 1) := rfl
  obtain ⟨lines, hlisting, -, hlength, hline⟩ := hlines p
  obtain ⟨pad, hpad, hline⟩ := hline 1 _ hi
  obtain rfl : pad = 1 := by
    have hw : p.indexWidth = 2 := by decide
    have h₁ : (1 : Nat).repr.length = 1 := by decide
    omega
  refine ⟨c, hc, hh, hp ▸ hh, hl, hinj _ p hh (hp ▸ hh) hl, hi, lines, ?_, hlength, hlisting⟩
  rw [hline]
  decide

end Brainfuck
