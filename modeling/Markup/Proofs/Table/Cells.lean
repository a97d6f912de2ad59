import Markup.Proofs.Position.Basic
import Markup.Table.Cell
import Mathlib.Algebra.Ring.Nat

/-! # Rows and their cells

The body of a row and the list of its cells say the same. A body that begins with a pipe is cut into cells without a
rest, and what cells are written as is cut into these cells again, provided that each spans a column, no text holds a
pipe, and no text but the last one is empty. -/
namespace Markup.Table
variable {t u r : Text} {k : Nat} {c : Cell} {cells : List Cell}

/-- What may stand behind the text of a cell: nothing, or the next pipe when the text is not empty. -/
def Follows (u r : Text) : Prop := r = [] ∨ u ≠ [] ∧ ∃ t, r = '|' :: t

theorem Follows.head? (h : Follows u r) : ∀ d ∈ r.head?, (d != '|') = false := by
  rcases h with rfl | ⟨-, t, rfl⟩
  · intro d hd
    contradiction
  · intro d hd
    obtain rfl := Option.some.inj hd
    rfl

theorem Follows.head?_append (h : Follows u r) (hu : '|' ∉ u) : ∀ d ∈ (u ++ r).head?, (d == '|') = false := by
  intro d hd
  refine beq_eq_false_iff_ne.2 ?_
  rintro rfl
  cases u with
  | nil =>
    rcases h with rfl | ⟨hne, -⟩
    · contradiction
    · exact hne rfl
  | cons e u =>
    obtain rfl := Option.some.inj hd
    exact hu List.mem_cons_self

theorem splitCells_first (hk : 0 < k) (hu : '|' ∉ u) (hr : Follows u r) :
    splitCells (List.replicate k '|' ++ (u ++ r)) = ⟨u, k⟩ :: splitCells r := by
  obtain ⟨k, rfl⟩ : ∃ j, k = j + 1 := ⟨k - 1, by omega⟩
  have hpipes : ∀ d ∈ List.replicate k '|', (d == '|') = true := fun d hd => beq_iff_eq.2 (List.eq_of_mem_replicate hd)
  have htext : ∀ d ∈ u, (d != '|') = true := fun d hd => bne_iff_ne.2 fun h => hu (h ▸ hd)
  have hahead := hr.head?_append hu
  rw [List.replicate_succ, List.cons_append, splitCells, Text.takeWhile_run hpipes hahead,
    Text.dropWhile_run hpipes hahead, Text.takeWhile_run htext hr.head?, Text.dropWhile_run htext hr.head?,
    List.length_replicate]

/-- A body begins with the pipes and the text of its first cell. -/
theorem exists_first_cell (t : Text) : ∃ k u r, 0 < k ∧ '|' ∉ u ∧ Follows u r ∧
    '|' :: t = List.replicate k '|' ++ (u ++ r) := by
  have hpipes : t.takeWhile (· == '|') = List.replicate (t.takeWhile (· == '|')).length '|' :=
    List.eq_replicate_of_mem fun d hd => beq_iff_eq.1 (List.all_eq_true.1 List.all_takeWhile d hd)
  have hnot := List.head?_dropWhile_not (· == '|') t
  have hsplit : '|' :: t = List.replicate ((t.takeWhile (· == '|')).length + 1) '|' ++ t.dropWhile (· == '|') := by
    rw [List.replicate_succ, ← hpipes, List.cons_append, List.takeWhile_append_dropWhile]
  generalize t.dropWhile (· == '|') = ahead at hnot hsplit
  have hnext := List.head?_dropWhile_not (· != '|') ahead
  have hcell : ahead.takeWhile (· != '|') ++ ahead.dropWhile (· != '|') = ahead := List.takeWhile_append_dropWhile
  have hpipe : '|' ∉ ahead.takeWhile (· != '|') := fun h => by simpa using List.all_eq_true.1 List.all_takeWhile _ h
  generalize ahead.takeWhile (· != '|') = u, ahead.dropWhile (· != '|') = r at hnext hcell hpipe
  subst hcell
  refine ⟨_, u, r, Nat.succ_pos _, hpipe, ?_, hsplit⟩
  cases r with
  | nil => exact .inl rfl
  | cons d r =>
    obtain rfl : d = '|' := by simpa using hnext
    refine .inr ⟨?_, r, rfl⟩
    rintro rfl
    contradiction

/-- The cells of some row. -/
structure Separated (cells : List Cell) : Prop where
  ne_nil : cells ≠ []
  spans : ∀ c ∈ cells, 0 < c.colspan
  pipeless : ∀ c ∈ cells, '|' ∉ c.text
  /-- Pipes with no text between them belong to one cell. -/
  filled : ∀ c ∈ cells.dropLast, c.text ≠ []

theorem separated_singleton : Separated [c] ↔ 0 < c.colspan ∧ '|' ∉ c.text := by
  constructor
  · intro h
    exact ⟨h.spans c List.mem_cons_self, h.pipeless c List.mem_cons_self⟩
  · rintro ⟨hspan, hpipe⟩
    exact ⟨List.cons_ne_nil c [], by simpa, by simpa, by simp⟩

theorem separated_cons (hne : cells ≠ []) :
    Separated (c :: cells) ↔ (0 < c.colspan ∧ '|' ∉ c.text ∧ c.text ≠ []) ∧ Separated cells := by
  have hlast : (c :: cells).dropLast = c :: cells.dropLast := List.dropLast_cons_of_ne_nil hne
  constructor
  · rintro ⟨-, hspans, hpipes, hfilled⟩
    rw [hlast] at hfilled
    rw [List.forall_mem_cons] at hspans hpipes hfilled
    exact ⟨⟨hspans.1, hpipes.1, hfilled.1⟩, hne, hspans.2, hpipes.2, hfilled.2⟩
  · rintro ⟨⟨hspan, hpipe, hfull⟩, h⟩
    refine ⟨List.cons_ne_nil c cells, List.forall_mem_cons.2 ⟨hspan, h.spans⟩,
      List.forall_mem_cons.2 ⟨hpipe, h.pipeless⟩, ?_⟩
    rw [hlast]
    exact List.forall_mem_cons.2 ⟨hfull, h.filled⟩

@[simp] theorem joinCells_nil : joinCells [] = [] := rfl

@[simp] theorem joinCells_cons (c : Cell) (cells : List Cell) :
    joinCells (c :: cells) = List.replicate c.colspan '|' ++ (c.text ++ joinCells cells) := by
  rw [joinCells, List.flatMap_cons, List.append_assoc]
  rfl

theorem Separated.exists_eq_cons (h : Separated cells) : ∃ t, joinCells cells = '|' :: t := by
  obtain ⟨c, cells, rfl⟩ := List.exists_cons_of_ne_nil h.ne_nil
  obtain ⟨k, hk⟩ : ∃ k, c.colspan = k + 1 := ⟨c.colspan - 1, by have := h.spans c List.mem_cons_self; omega⟩
  exact ⟨_, by rw [joinCells_cons, hk, List.replicate_succ, List.cons_append]⟩

theorem splitCells_nil : splitCells [] = [] := by
  rw [splitCells]
  intro t ht
  contradiction

/-- Cells are read as they were written. -/
theorem splitCells_joinCells (h : Separated cells) : splitCells (joinCells cells) = cells := by
  induction cells with
  | nil => exact absurd rfl h.ne_nil
  | cons c cells ih =>
    rw [joinCells_cons]
    by_cases hne : cells = []
    · subst hne
      obtain ⟨hspan, hpipe⟩ := separated_singleton.1 h
      rw [joinCells_nil, splitCells_first hspan hpipe (.inl rfl), splitCells_nil]
    · obtain ⟨⟨hspan, hpipe, hfull⟩, hcells⟩ := (separated_cons hne).1 h
      rw [splitCells_first hspan hpipe (.inr ⟨hfull, hcells.exists_eq_cons⟩), ih hcells]

/-- Every body that begins with a pipe is written by some cells. -/
theorem exists_separated (t : Text) : ∃ cells, Separated cells ∧ joinCells cells = '|' :: t := by
  induction hn : t.length using Nat.strongRecOn generalizing t with
  | ind n ih =>
    obtain ⟨k, u, r, hk, hu, hr, hbody⟩ := exists_first_cell t
    rcases hr with rfl | ⟨hne, t', rfl⟩
    · exact ⟨[⟨u, k⟩], separated_singleton.2 ⟨hk, hu⟩, by rw [hbody, joinCells_cons, joinCells_nil]⟩
    · have hlen := congrArg List.length hbody
      simp only [List.length_cons, List.length_append, List.length_replicate] at hlen
      obtain ⟨cells, hcells, hjoin⟩ := ih t'.length (by omega) t' rfl
      refine ⟨⟨u, k⟩ :: cells, (separated_cons hcells.ne_nil).2 ⟨⟨hk, hu, hne⟩, hcells⟩, ?_⟩
      rw [hbody, joinCells_cons, hjoin]

/-- Each pipe of a row adds to the columns that a cell spans. -/
theorem count_joinCells (h : ∀ c ∈ cells, '|' ∉ c.text) :
    (joinCells cells).count '|' = (cells.map Cell.colspan).sum := by
  induction cells with
  | nil => rfl
  | cons c cells ih =>
    rw [List.forall_mem_cons] at h
    have htext : c.text.count '|' = 0 := List.count_eq_zero.2 h.1
    rw [joinCells_cons, List.count_append, List.count_append, List.count_replicate_self, htext, ih h.2, Nat.zero_add,
      List.map_cons, List.sum_cons]

/-- Where a character stands first. -/
def position? (t : Text) (c : Char) : Option Nat :=
  match t with
  | [] => none
  | d :: t => if d = c then some 0 else (position? t c).map (d.utf8Size + ·)

/-- The cell at the beginning of what is left of a row, and what is left behind it; none where no pipe stands. -/
def cutCell (rest : Text) : Except PositionError (Option (Cell × Text)) :=
  match rest with
  | '|' :: afterPipe => do
    let pipes := Text.bytes afterPipe - Text.bytes (afterPipe.dropWhile (· == '|'))
    let afterPipes ← Text.sliceFrom afterPipe pipes
    let stop := (position? afterPipes '|').getD afterPipes.bytes
    return some (⟨← afterPipes.sliceTo stop, pipes + 1⟩, ← afterPipes.sliceFrom stop)
  | _ => return none

/-- The rounds over what is left of a row, each with its cell. -/
inductive CutsAll : Text → List Cell → Prop
  | done {rest : Text} (h : cutCell rest = .ok none) : CutsAll rest []
  | round {rest after : Text} {cell : Cell} {cells : List Cell} (h : cutCell rest = .ok (some (cell, after)))
      (more : CutsAll after cells) : CutsAll rest (cell :: cells)

theorem position?_of_not_mem {d : Char} (h : d ∉ u) : position? u d = none := by
  induction u with
  | nil => rfl
  | cons e u ih =>
    rw [List.mem_cons, not_or] at h
    rw [position?, if_neg (Ne.symm h.1), ih h.2, Option.map_none]

theorem position?_append_cons {d : Char} (h : d ∉ u) (t : Text) : position? (u ++ d :: t) d = some u.bytes := by
  induction u with
  | nil => exact if_pos rfl
  | cons e u ih =>
    rw [List.mem_cons, not_or] at h
    rw [List.cons_append, position?, if_neg (Ne.symm h.1), ih h.2, Option.map_some, Text.bytes_cons]

theorem Follows.stop_eq (h : Follows u r) (hu : '|' ∉ u) :
    (position? (u ++ r) '|').getD (Text.bytes (u ++ r)) = u.bytes := by
  rcases h with rfl | ⟨-, t, rfl⟩
  · rw [List.append_nil, position?_of_not_mem hu, Option.getD_none]
  · rw [position?_append_cons hu, Option.getD_some]

theorem bytes_pipes (k : Nat) : Text.bytes (List.replicate k '|') = k := by
  induction k with
  | zero => rfl
  | succ k ih => rw [List.replicate_succ, Text.bytes_cons, ih, Nat.add_comm]; rfl

/-- Pipes have one byte each, so a round ends where the first cell does. -/
theorem cutCell_first (hk : 0 < k) (hu : '|' ∉ u) (hr : Follows u r) :
    cutCell (List.replicate k '|' ++ (u ++ r)) = .ok (some (⟨u, k⟩, r)) := by
  obtain ⟨k, rfl⟩ : ∃ j, k = j + 1 := ⟨k - 1, by omega⟩
  have hpipes : ∀ d ∈ List.replicate k '|', (d == '|') = true := fun d hd => beq_iff_eq.2 (List.eq_of_mem_replicate hd)
  have hbytes : Text.bytes (List.replicate k '|' ++ (u ++ r)) - Text.bytes (u ++ r) = k := by
    rw [Text.bytes_append, bytes_pipes, Nat.add_sub_cancel]
  have hslice : Text.sliceFrom (List.replicate k '|' ++ (u ++ r)) k = .ok (u ++ r) :=
    Text.sliceFrom_of_eq rfl (bytes_pipes k)
  have hstop := hr.stop_eq hu
  rw [List.replicate_succ, List.cons_append, cutCell]
  simp only [Text.dropWhile_run hpipes (hr.head?_append hu), hbytes, hslice, ok_bind, hstop, Text.sliceTo_of_eq rfl rfl,
    Text.sliceFrom_of_eq rfl rfl, pure_eq]

theorem cutsAll_splitCells (body : Text) : CutsAll body (splitCells body) := by
  induction hn : body.length using Nat.strongRecOn generalizing body with
  | ind n ih =>
    by_cases hpipe : ∃ t, body = '|' :: t
    · obtain ⟨t, rfl⟩ := hpipe
      obtain ⟨k, u, r, hk, hu, hr, hbody⟩ := exists_first_cell t
      have hlen := congrArg List.length hbody
      simp only [List.length_cons, List.length_append, List.length_replicate] at hlen hn
      rw [hbody, splitCells_first hk hu hr]
      exact .round (cutCell_first hk hu hr) (ih r.length (by omega) r rfl)
    · have hstop : ∀ t, body ≠ '|' :: t := fun t ht => hpipe ⟨t, ht⟩
      have hnone : splitCells body = [] := by
        rw [splitCells]
        exact hstop
      rw [hnone]
      refine .done ?_
      rw [cutCell]
      · rfl
      · exact hstop

/-- The loop is never refused a slice, and there is one list of cells that it cuts. -/
theorem cutsAll_iff {body : Text} : CutsAll body cells ↔ cells = splitCells body := by
  constructor
  · intro h
    have hcells := cutsAll_splitCells body
    generalize splitCells body = others at hcells ⊢
    induction h generalizing others with
    | done h =>
      cases hcells with
      | done _ => rfl
      | round h' _ => exact nomatch Except.ok.inj (h.symm.trans h')
    | round h _ ih =>
      cases hcells with
      | done h' => exact nomatch Except.ok.inj (h.symm.trans h')
      | round h' more =>
        obtain ⟨rfl, rfl⟩ := Prod.mk.inj (Option.some.inj (Except.ok.inj (h.symm.trans h')))
        rw [ih _ more]
  · rintro rfl
    exact cutsAll_splitCells body

/-- A row is the same as the list of its cells: a body is cut into cells that are written as the body, with a column for
each of its pipes, and what is written for cells is cut into these cells. -/
theorem row_is_its_cells :
    (∀ body cells, CutsAll body cells ↔ cells = splitCells body) ∧
    (∀ t, joinCells (splitCells ('|' :: t)) = '|' :: t ∧ Separated (splitCells ('|' :: t)) ∧
      ((splitCells ('|' :: t)).map Cell.colspan).sum = ('|' :: t).count '|') ∧
    ∀ cells, Separated cells → (∃ t, joinCells cells = '|' :: t) ∧ splitCells (joinCells cells) = cells := by
  refine ⟨fun body cells => cutsAll_iff, fun t => ?_, fun cells h => ⟨h.exists_eq_cons, splitCells_joinCells h⟩⟩
  obtain ⟨cells, hcells, hjoin⟩ := exists_separated t
  rw [← hjoin, splitCells_joinCells hcells]
  exact ⟨rfl, hcells, (count_joinCells hcells.pipeless).symm⟩

theorem row_is_its_cells_of_empty_last_cell :
    Separated [⟨"a".toList, 1⟩, ⟨" é ".toList, 3⟩, ⟨[], 2⟩] ∧
    splitCells "|a||| é ||".toList = [⟨"a".toList, 1⟩, ⟨" é ".toList, 3⟩, ⟨[], 2⟩] := by
  have hcells : Separated [⟨"a".toList, 1⟩, ⟨" é ".toList, 3⟩, ⟨[], 2⟩] :=
    ⟨by decide, by decide, by decide, by decide⟩
  exact ⟨hcells, (row_is_its_cells.2.2 _ hcells).2⟩

end Markup.Table
