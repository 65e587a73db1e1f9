import Brainfuck.Proofs.Forest

/-! # Linking the forest

Linking gives the two brackets of every loop each other's place and leaves all else alone, so
it can be done loop by loop.
-/

namespace Brainfuck

namespace Forest

def link : Nat → Forest → Forest
  | _, nil => nil
  | n, leaf i rest => leaf i (rest.link (n + 1))
  | n, loop start body stop rest =>
    loop (start.withValue (.ofNat (n + body.size + 1))) (body.link (n + 1))
      (stop.withValue (.ofNat n)) (rest.link (n + body.size + 2))

variable {ts : Forest}

@[simp] theorem size_link (n : Nat) (ts : Forest) : (ts.link n).size = ts.size := by
  induction ts generalizing n with
  | nil => rfl
  | leaf i rest ih => simp [link, ih]
  | loop start body stop rest ihb ihr => simp [link, ihb, ihr]

theorem map_opcode_link (n : Nat) (ts : Forest) :
    (ts.link n).flatten.map Instr.opcode = ts.flatten.map Instr.opcode := by
  induction ts generalizing n with
  | nil => rfl
  | leaf i rest ih => simp [link, flatten, ih]
  | loop start body stop rest ihb ihr => simp [link, flatten, ihb, ihr, Instr.withValue]

theorem modify_length_append (before after : List Instr) (i : Instr) (f : Instr → Instr) :
    (before ++ i :: after).modify before.length f = before ++ f i :: after := by
  induction before with
  | nil => rfl
  | cons j before ih => simp [ih]

theorem linkPair_toArray (before body after : List Instr) (start stop : Instr) :
    Program.linkPair (before ++ start :: (body ++ stop :: after)).toArray
        (before.length, before.length + body.length + 1) =
      (before ++ start.withValue (.ofNat (before.length + body.length + 1)) ::
        (body ++ stop.withValue (.ofNat before.length) :: after)).toArray := by
  simp only [Program.linkPair, List.modify_toArray, modify_length_append]
  have h := modify_length_append
    (before ++ start.withValue (.ofNat (before.length + body.length + 1)) :: body) after stop
    (.withValue (.ofNat before.length))
  simpa [Nat.add_assoc] using h

theorem foldl_linkPair_pairs (ts : Forest) (before after : List Instr) :
    (ts.pairs before.length).foldl Program.linkPair (before ++ (ts.flatten ++ after)).toArray =
      (before ++ ((ts.link before.length).flatten ++ after)).toArray := by
  induction ts generalizing before after with
  | nil => rfl
  | leaf i rest ih => simpa [pairs, link, flatten] using ih (before ++ [i]) after
  | loop start body stop rest ihb ihr =>
    have hr := ihr (before ++ start :: (body.flatten ++ [stop])) after
    have hb := ihb (before ++ [start.withValue (.ofNat (before.length + body.size + 1))])
      (stop.withValue (.ofNat before.length) ::
        ((rest.link (before.length + body.size + 2)).flatten ++ after))
    have hp := linkPair_toArray before body.flatten
      ((rest.link (before.length + body.size + 2)).flatten ++ after) start stop
    simp only [List.length_append, List.length_cons, List.length_nil, length_flatten,
      List.append_assoc, List.cons_append, List.nil_append, Nat.zero_add] at hr hb hp
    rw [show before.length + (body.size + 1 + 1) = before.length + body.size + 2 by omega] at hr
    simp only [pairs, List.foldl_append, List.foldl_cons, flatten, link, List.append_assoc,
      List.cons_append]
    rw [hr, hp, hb]

end Forest

namespace Program

theorem linkJumps_eq (p : Program) : p.linkJumps = (p.forest.link 0).flatten.toArray := by
  have h := Forest.foldl_linkPair_pairs p.forest [] []
  simpa [linkJumps, matching_eq] using h

@[simp] theorem size_linkJumps (p : Program) : p.linkJumps.size = p.size := by
  rw [linkJumps_eq]
  exact (Forest.size_link 0 p.forest).trans p.size_forest

theorem map_opcode_linkJumps (p : Program) :
    p.linkJumps.toList.map Instr.opcode = p.toList.map Instr.opcode := by
  rw [linkJumps_eq, Forest.map_opcode_link, flatten_forest]

theorem exists_opcode_of_linkJumps {p : Program} {k : Nat} {i : Instr}
    (hk : p.linkJumps[k]? = some i) : ∃ j, p[k]? = some j ∧ j.opcode = i.opcode := by
  have hmap := congrArg (fun ops => ops[k]?) p.map_opcode_linkJumps
  simp only [List.getElem?_map, Array.getElem?_toList] at hmap
  rw [hk] at hmap
  exact Option.map_eq_some_iff.1 hmap.symm

end Program

end Brainfuck
