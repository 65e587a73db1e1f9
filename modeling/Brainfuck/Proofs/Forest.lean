import Mathlib.Tactic.Common
import Brainfuck.Jumps

/-! # Forests of loops

The matched brackets of a program divide it into loops, which lie side by side and within each
other. All other instructions are leaves, and so are the brackets without a partner. A scan
finds as its pairs the loops of this forest, and as its waiting and stray brackets the leaves.
-/

namespace Brainfuck

inductive Forest where
  | nil
  | leaf (i : Instr) (rest : Forest)
  | loop (start : Instr) (body : Forest) (stop : Instr) (rest : Forest)

namespace Forest

def flatten : Forest → List Instr
  | nil => []
  | leaf i rest => i :: rest.flatten
  | loop start body stop rest => start :: (body.flatten ++ stop :: rest.flatten)

def size (ts : Forest) : Nat :=
  ts.flatten.length

protected def append : Forest → Forest → Forest
  | nil, us => us
  | leaf i rest, us => leaf i (rest.append us)
  | loop start body stop rest, us => loop start body stop (rest.append us)

instance : Append Forest :=
  ⟨Forest.append⟩

def ofLeaves : List Instr → Forest
  | [] => nil
  | i :: is => leaf i (ofLeaves is)

def leaves? : Forest → Option (List Instr)
  | nil => some []
  | leaf i rest => rest.leaves?.map (i :: ·)
  | loop .. => none

/-- The brackets among the leaves, those within loops apart. -/
def unmatched : Forest → List Bracket
  | nil => []
  | leaf i rest => i.bracket?.toList ++ rest.unmatched
  | loop _ _ _ rest => rest.unmatched

/-- Loops are delimited by brackets, and a bracket is a leaf only if it has no partner. -/
def IsMatched : Forest → Prop
  | nil => True
  | leaf i rest =>
    (i.bracket? = some .opening → .closing ∉ rest.unmatched) ∧ rest.IsMatched
  | loop start body stop rest =>
    start.bracket? = some .opening ∧ stop.bracket? = some .closing ∧
      body.unmatched = [] ∧ body.IsMatched ∧ rest.IsMatched

variable {ts us : Forest}

@[simp] theorem nil_append (us : Forest) : nil ++ us = us := rfl

@[simp] theorem leaf_append (i : Instr) (ts us : Forest) :
    leaf i ts ++ us = leaf i (ts ++ us) := rfl

@[simp] theorem loop_append (start stop : Instr) (body ts us : Forest) :
    loop start body stop ts ++ us = loop start body stop (ts ++ us) := rfl

@[simp] theorem append_nil (ts : Forest) : ts ++ nil = ts := by
  induction ts with
  | nil => rfl
  | leaf i rest ih => rw [leaf_append, ih]
  | loop start body stop rest _ ih => rw [loop_append, ih]

theorem append_assoc (ts us vs : Forest) : ts ++ us ++ vs = ts ++ (us ++ vs) := by
  induction ts with
  | nil => rfl
  | leaf i rest ih => simp only [leaf_append, ih]
  | loop start body stop rest _ ih => simp only [loop_append, ih]

@[simp] theorem flatten_append (ts us : Forest) :
    (ts ++ us).flatten = ts.flatten ++ us.flatten := by
  induction ts with
  | nil => rfl
  | leaf i rest ih => simp [flatten, ih]
  | loop start body stop rest _ ih => simp [flatten, ih]

@[simp] theorem length_flatten (ts : Forest) : ts.flatten.length = ts.size := rfl

@[simp] theorem size_nil : nil.size = 0 := rfl

@[simp] theorem size_leaf (i : Instr) (rest : Forest) : (leaf i rest).size = rest.size + 1 := rfl

@[simp] theorem size_loop (start stop : Instr) (body rest : Forest) :
    (loop start body stop rest).size = body.size + rest.size + 2 := by
  simp only [← length_flatten, flatten, List.length_cons, List.length_append]
  omega

@[simp] theorem size_append (ts us : Forest) : (ts ++ us).size = ts.size + us.size := by
  simp only [← length_flatten, flatten_append, List.length_append]

@[simp] theorem flatten_ofLeaves (is : List Instr) : (ofLeaves is).flatten = is := by
  induction is with
  | nil => rfl
  | cons i is ih => simp [ofLeaves, flatten, ih]

theorem ofLeaves_append (is js : List Instr) :
    ofLeaves (is ++ js) = ofLeaves is ++ ofLeaves js := by
  induction is with
  | nil => rfl
  | cons i is ih => simp [ofLeaves, ih]

theorem eq_ofLeaves_of_leaves? {is : List Instr} (h : ts.leaves? = some is) :
    ts = ofLeaves is := by
  induction ts generalizing is with
  | nil =>
    cases h
    rfl
  | leaf i rest ih =>
    obtain ⟨is, hr, rfl⟩ := Option.map_eq_some_iff.1 h
    rw [ofLeaves, ih hr]
  | loop => cases h

@[simp] theorem unmatched_append (ts us : Forest) :
    (ts ++ us).unmatched = ts.unmatched ++ us.unmatched := by
  induction ts with
  | nil => rfl
  | leaf i rest ih => simp [unmatched, ih]
  | loop start body stop rest _ ih => simpa [unmatched] using ih

theorem isMatched_append (ht : ts.IsMatched) (hu : us.IsMatched)
    (ho : .opening ∈ ts.unmatched → .closing ∉ us.unmatched) : (ts ++ us).IsMatched := by
  induction ts with
  | nil => exact hu
  | leaf i rest ih =>
    refine ⟨fun hi => ?_, ih ht.2 fun h => ho (List.mem_append_right _ h)⟩
    have hus : .closing ∉ us.unmatched := ho (by simp [unmatched, hi])
    change _ ∉ (rest ++ us).unmatched
    simpa [hus] using ht.1 hi
  | loop start body stop rest _ ih =>
    obtain ⟨hs, he, hb, hm, hr⟩ := ht
    exact ⟨hs, he, hb, hm, ih hr ho⟩

/-! ## The forest of a program -/

/-- A forest that is read from right to left, with the closing brackets that wait for a partner,
the nearest first. Each of them has the forest that follows it, up to the next. -/
structure Reading where
  forest : Forest := nil
  waiting : List (Instr × Forest) := []

namespace Reading

def prepend (i : Instr) : Reading → Reading
  | ⟨ts, waiting⟩ =>
    match i.bracket?, waiting with
    | some .closing, _ => ⟨nil, (i, ts) :: waiting⟩
    | some .opening, (stop, rest) :: waiting => ⟨loop i ts stop rest, waiting⟩
    | _, _ => ⟨leaf i ts, waiting⟩

/-- The closing brackets that still wait have no partner. -/
def close : Forest → List (Instr × Forest) → Forest
  | ts, [] => ts
  | ts, (stop, rest) :: waiting => ts ++ leaf stop (close rest waiting)

def toForest (r : Reading) : Forest :=
  close r.forest r.waiting

/-- An opening bracket can be a leaf only right of all that wait. -/
def IsValid : Forest → List (Instr × Forest) → Prop
  | ts, [] => ts.IsMatched ∧ .closing ∉ ts.unmatched
  | ts, (stop, rest) :: waiting =>
    ts.IsMatched ∧ ts.unmatched = [] ∧ stop.bracket? = some .closing ∧ IsValid rest waiting

end Reading

def ofList (is : List Instr) : Forest :=
  (is.foldr Reading.prepend {}).toForest

namespace Reading

theorem close_leaf (i : Instr) (ts : Forest) (waiting : List (Instr × Forest)) :
    close (leaf i ts) waiting = leaf i (close ts waiting) := by
  cases waiting <;> rfl

theorem close_loop (start stop : Instr) (body rest : Forest) (waiting : List (Instr × Forest)) :
    close (loop start body stop rest) waiting = loop start body stop (close rest waiting) := by
  cases waiting <;> rfl

theorem flatten_prepend (i : Instr) (r : Reading) :
    (r.prepend i).toForest.flatten = i :: r.toForest.flatten := by
  fun_cases prepend i r with
  | case1 => simp [toForest, close, flatten]
  | case2 => simp [toForest, close, close_loop, flatten]
  | case3 => simp [toForest, close_leaf, flatten]

theorem IsValid.prepend {i : Instr} {r : Reading} (h : IsValid r.forest r.waiting) :
    IsValid (r.prepend i).forest (r.prepend i).waiting := by
  fun_cases Reading.prepend i r with
  | case1 ts waiting hi => exact ⟨trivial, rfl, hi, h⟩
  | case2 ts stop rest waiting hi =>
    obtain ⟨hm, hu, hs, hv⟩ := h
    cases waiting with
    | nil => exact ⟨⟨hi, hs, hu, hm, hv.1⟩, hv.2⟩
    | cons w waiting => exact ⟨⟨hi, hs, hu, hm, hv.1⟩, hv.2⟩
  | case3 ts waiting hc ho =>
    cases waiting with
    | nil =>
      refine ⟨⟨fun _ => h.2, h.1⟩, ?_⟩
      cases hb : i.bracket? with
      | none => simpa [unmatched, hb] using h.2
      | some b =>
        cases b with
        | opening => simpa [unmatched, hb] using h.2
        | closing => exact (hc hb).elim
    | cons w waiting =>
      have hb : i.bracket? = none := by
        cases hb : i.bracket? with
        | none => rfl
        | some b =>
          cases b with
          | opening => exact (ho _ _ _ hb rfl).elim
          | closing => exact (hc hb).elim
      exact ⟨⟨by simp [hb], h.1⟩, by simpa [unmatched, hb] using h.2.1, h.2.2⟩

theorem IsValid.isMatched {ts : Forest} {waiting : List (Instr × Forest)}
    (h : IsValid ts waiting) : (close ts waiting).IsMatched := by
  induction waiting generalizing ts with
  | nil => exact h.1
  | cons w waiting ih =>
    obtain ⟨hm, hu, hs, hv⟩ := h
    refine isMatched_append hm ⟨by simp [hs], ih hv⟩ ?_
    simp [hu]

theorem isValid_foldr (is : List Instr) :
    IsValid (is.foldr prepend {}).forest (is.foldr prepend {}).waiting := by
  induction is with
  | nil => exact ⟨trivial, List.not_mem_nil⟩
  | cons i is ih => exact ih.prepend

theorem foldr_prepend (hm : ts.IsMatched) (hc : .closing ∉ ts.unmatched) (r : Reading)
    (hw : .opening ∈ ts.unmatched → r.waiting = []) :
    ts.flatten.foldr prepend r = ⟨ts ++ r.forest, r.waiting⟩ := by
  induction ts generalizing r with
  | nil => rfl
  | leaf i rest ih =>
    rw [flatten, List.foldr_cons, ih hm.2 (fun h => hc (List.mem_append_right _ h)) r
      fun h => hw (List.mem_append_right _ h)]
    cases hb : i.bracket? with
    | none => simp [prepend, hb]
    | some b =>
      cases b with
      | opening => simp [prepend, hb, hw (by simp [unmatched, hb])]
      | closing => exact (hc (by simp [unmatched, hb])).elim
  | loop start body stop rest ihb ihr =>
    obtain ⟨hs, he, hu, hbm, hrm⟩ := hm
    rw [flatten, List.foldr_cons, List.foldr_append, List.foldr_cons, ihr hrm hc r hw,
      ihb hbm (by simp [hu]) _ (by simp [hu])]
    simp [prepend, hs, he]

theorem toForest_foldr_prepend (hm : ts.IsMatched) (r : Reading)
    (hw : .opening ∈ ts.unmatched → r.waiting = []) :
    (ts.flatten.foldr prepend r).toForest = ts ++ r.toForest := by
  induction ts with
  | nil => rfl
  | leaf i rest ih =>
    have hrest := ih hm.2 fun h => hw (List.mem_append_right _ h)
    rw [leaf_append, ← hrest, flatten, List.foldr_cons]
    cases hb : i.bracket? with
    | none => simp [prepend, hb, toForest, close_leaf]
    | some b =>
      cases b with
      | closing => simp [prepend, hb, toForest, close]
      | opening =>
        -- Nothing right of this bracket waits for a partner.
        have hr : r.waiting = [] := hw (by simp [unmatched, hb])
        rw [foldr_prepend hm.2 (hm.1 hb) r fun _ => hr]
        simp [prepend, hb, hr, toForest, close]
  | loop start body stop rest _ ih =>
    obtain ⟨hs, he, hu, hbm, hrm⟩ := hm
    rw [loop_append, ← ih hrm hw, flatten, List.foldr_cons, List.foldr_append, List.foldr_cons,
      foldr_prepend hbm (by simp [hu]) _ (by simp [hu])]
    simp [prepend, hs, he, toForest, close_loop]

end Reading

@[simp] theorem flatten_ofList (is : List Instr) : (ofList is).flatten = is := by
  induction is with
  | nil => rfl
  | cons i is ih => exact (Reading.flatten_prepend i _).trans (congrArg _ ih)

theorem isMatched_ofList (is : List Instr) : (ofList is).IsMatched :=
  (Reading.isValid_foldr is).isMatched

/-- No other forest of the program has its loops matched. -/
theorem ofList_flatten (hm : ts.IsMatched) : ofList ts.flatten = ts := by
  have h := Reading.toForest_foldr_prepend hm {} fun _ => rfl
  simpa [ofList, Reading.toForest, Reading.close] using h

/-! ## What a scan finds -/

def pairs : Nat → Forest → List (Nat × Nat)
  | _, nil => []
  | n, leaf _ rest => rest.pairs (n + 1)
  | n, loop _ body _ rest =>
    rest.pairs (n + body.size + 2) ++ (n, n + body.size + 1) :: body.pairs (n + 1)

def unmatchedAt (b : Bracket) : Nat → Forest → List Nat
  | _, nil => []
  | n, leaf i rest => rest.unmatchedAt b (n + 1) ++ if i.bracket? = some b then [n] else []
  | n, loop _ body _ rest => rest.unmatchedAt b (n + body.size + 2)

theorem unmatchedAt_eq_nil_iff {b : Bracket} {n : Nat} :
    ts.unmatchedAt b n = [] ↔ b ∉ ts.unmatched := by
  induction ts generalizing n with
  | nil => simp [unmatchedAt, unmatched]
  | leaf i rest ih => simp [unmatchedAt, unmatched, ih, and_comm]
  | loop start body stop rest _ ih => exact ih

theorem unmatchedAt_append (b : Bracket) (n : Nat) (ts us : Forest) :
    (ts ++ us).unmatchedAt b n = us.unmatchedAt b (n + ts.size) ++ ts.unmatchedAt b n := by
  induction ts generalizing n with
  | nil => simp [unmatchedAt]
  | leaf i rest ih =>
    simp [unmatchedAt, ih, show n + 1 + rest.size = n + (rest.size + 1) by omega]
  | loop start body stop rest _ ih =>
    simp [unmatchedAt, ih,
      show n + body.size + 2 + rest.size = n + (body.size + rest.size + 2) by omega]

theorem scan_flatten (hm : ts.IsMatched) (n : Nat) (m : Matching)
    (hw : .closing ∈ ts.unmatched → m.waiting = []) :
    ((ts.flatten.map Instr.bracket?).zipIdx n).foldl Matching.step m =
      ⟨ts.pairs n ++ m.pairs, ts.unmatchedAt .opening n ++ m.waiting,
        ts.unmatchedAt .closing n ++ m.strays⟩ := by
  induction ts generalizing n m with
  | nil => rfl
  | leaf i rest ih =>
    simp only [flatten, List.map_cons, List.zipIdx_cons, List.foldl_cons, pairs, unmatchedAt]
    cases hb : i.bracket? with
    | none => simpa [Matching.step, hb] using ih hm.2 (n + 1) m (by simpa [unmatched, hb] using hw)
    | some b =>
      cases b with
      | opening =>
        have hc := hm.1 hb
        rw [ih hm.2 (n + 1) _ fun h => (hc h).elim]
        simp [Matching.step]
      | closing =>
        have hnil : m.waiting = [] := hw (by simp [unmatched, hb])
        rw [ih hm.2 (n + 1) _ fun _ => by simp [Matching.step, hnil]]
        simp [Matching.step, hnil]
  | loop start body stop rest ihb ihr =>
    obtain ⟨hs, he, hu, hbm, hrm⟩ := hm
    have hbody := ihb hbm (n + 1) { m with waiting := n :: m.waiting } (by simp [hu])
    have hopen : body.unmatchedAt .opening (n + 1) = [] := unmatchedAt_eq_nil_iff.2 (by simp [hu])
    have hclose : body.unmatchedAt .closing (n + 1) = [] := unmatchedAt_eq_nil_iff.2 (by simp [hu])
    simp only [flatten, List.map_cons, List.map_append, List.zipIdx_cons, List.zipIdx_append,
      List.foldl_cons, List.foldl_append, hs, he, List.length_map, length_flatten]
    rw [show Matching.step m (some .opening, n) = { m with waiting := n :: m.waiting } from rfl,
      hbody, hopen, hclose, show n + 1 + body.size + 1 = n + body.size + 2 by omega,
      ihr hrm _ _ fun h => ?_]
    · simp [Matching.step, pairs, unmatchedAt, show n + 1 + body.size = n + body.size + 1 by omega]
    · exact hw h

end Forest

namespace Program

def forest (p : Program) : Forest :=
  .ofList p.toList

@[simp] theorem flatten_forest (p : Program) : p.forest.flatten = p.toList :=
  Forest.flatten_ofList _

theorem size_forest (p : Program) : p.forest.size = p.size :=
  congrArg List.length p.flatten_forest

theorem isMatched_forest (p : Program) : p.forest.IsMatched :=
  Forest.isMatched_ofList _

theorem matching_eq (p : Program) :
    p.matching = ⟨p.forest.pairs 0, p.forest.unmatchedAt .opening 0,
      p.forest.unmatchedAt .closing 0⟩ := by
  have h := Forest.scan_flatten p.isMatched_forest 0 {} fun _ => rfl
  simpa [matching, Matching.ofList] using h

def IsBalanced (p : Program) : Prop :=
  p.matching.waiting = [] ∧ p.matching.strays = []

theorem isBalanced_iff {p : Program} : p.IsBalanced ↔ p.forest.unmatched = [] := by
  rw [IsBalanced, matching_eq, Forest.unmatchedAt_eq_nil_iff, Forest.unmatchedAt_eq_nil_iff,
    List.eq_nil_iff_forall_not_mem]
  constructor
  · rintro ⟨ho, hc⟩ b
    cases b with
    | opening => exact ho
    | closing => exact hc
  · intro h
    exact ⟨h _, h _⟩

end Program

end Brainfuck
