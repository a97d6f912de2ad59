import Markup.Proofs.Pattern.Takes
import Markup.Proofs.Token.Written

/-! # Searches without a choice

Where the first way that a search tries leads somewhere, the search goes that way: a greedy run takes all it can, and a
reluctant one ends at the first place from which the rest goes on. -/
namespace Markup.Pattern
variable {accepts : Char → Bool} {least : Nat} {next : State → Option State} {s e : State} {t u v rest : Text}

/-- The place behind `u`, with `rest` still to come. -/
def State.behind (s : State) (u rest : Text) : State := ⟨u.getLast?.or s.prev, s.taken + u.length, rest, s.captures⟩

@[simp] theorem State.behind_nil (s : State) (rest : Text) : s.behind [] rest = { s with ahead := rest } := rfl

theorem State.behind_cons (s : State) (c : Char) (u rest t : Text) :
    State.behind { s with prev := some c, taken := s.taken + 1, ahead := t } u rest = s.behind (c :: u) rest := by
  simp [State.behind, List.getLast?_cons, Nat.add_assoc, Nat.add_comm 1]

theorem State.behind_behind (s : State) (u v t rest : Text) :
    (s.behind u t).behind v rest = s.behind (u ++ v) rest := by
  simp [State.behind, List.getLast?_append, Option.or_assoc, Nat.add_assoc]

theorem walk_append (p q : Pattern) (next : State → Option State) (s : State) :
    (p ++ q).walk next s = p.walk (q.walk next) s := rfl

theorem walk_orElse (p q : Pattern) (next : State → Option State) (s : State) :
    (p <|> q).walk next s = (p.walk next s <|> q.walk next s) := rfl

theorem walk_group (i : Nat) (p : Pattern) (next : State → Option State) (s : State) : (group i p).walk next s =
    p.walk (fun e => next { e with captures := ⟨i, s.ahead, e.taken - s.taken⟩ :: e.captures }) s := rfl

theorem walk_word {w : String} (rest : Text) (h : s.ahead = w.toList ++ rest) :
    (word w).walk next s = next (s.behind w.toList rest) := by
  rw [word, walk, h, Token.isPrefixOf?_append]
  rfl

theorem walk_word_eq_none {w : String} (h : w.toList.isPrefixOf? s.ahead = none) : (word w).walk next s = none := by
  rw [word, walk, h]

theorem walk_one {c : Char} (h : s.ahead = c :: t) (hc : accepts c = true) :
    (one accepts).walk next s = next (s.behind [c] t) := by
  cases t <;> simp [one, walk, h, runEnds, hc, State.behind]

theorem walk_lineStart (h : s.prev.all (· == '\n') = true) : lineStart.walk next s = next s := if_pos h

theorem walk_lineEnd (h : s.ahead.head?.all (· == '\n') = true) : lineEnd.walk next s = next s := if_pos h

theorem furtherEnds_cons {c : Char} (hc : accepts c = true) (s : State) (t : Text) :
    furtherEnds accepts least none s (c :: t) =
    runEnds accepts (least - 1) none { s with prev := some c, taken := s.taken + 1 } t := by
  simp [furtherEnds, hc]

/-- The last place where a run may end is the end of the stretch of its class. -/
theorem exists_runEnds_eq (s : State) (hu : ∀ c ∈ u, accepts c = true) (hr : rest.head?.any accepts = false)
    (hl : least ≤ u.length) : ∃ ends, runEnds accepts least none s (u ++ rest) = ends ++ [s.behind u rest] := by
  induction u generalizing least s with
  | nil =>
    obtain rfl : least = 0 := by simpa using hl
    cases rest with
    | nil => exact ⟨[], rfl⟩
    | cons c rest =>
      have hc : accepts c = false := hr
      exact ⟨[], by simp [runEnds, hc]⟩
  | cons c u ih =>
    rw [List.forall_mem_cons] at hu
    have hl' : least - 1 ≤ u.length := by
      rw [List.length_cons] at hl
      omega
    obtain ⟨ends, he⟩ := ih { s with prev := some c, taken := s.taken + 1 } hu.2 hl'
    have hbehind : State.behind { s with prev := some c, taken := s.taken + 1 } u rest = s.behind (c :: u) rest :=
      s.behind_cons c u rest s.ahead
    refine ⟨(if least = 0 then [{ s with ahead := c :: (u ++ rest) }] else []) ++ ends, ?_⟩
    rw [List.cons_append, runEnds_eq, furtherEnds_cons hu.1, he, hbehind, List.append_assoc]

/-- A greedy run goes to the end of the stretch of its class, where the rest goes on from there. -/
theorem walk_atLeast (u rest : Text) (h : s.ahead = u ++ rest) (hu : ∀ c ∈ u, accepts c = true)
    (hr : rest.head?.any accepts = false)
    (hl : least ≤ u.length) (hn : next (s.behind u rest) ≠ none) :
    (atLeast least accepts).walk next s = next (s.behind u rest) := by
  obtain ⟨ends, he⟩ := exists_runEnds_eq s hu hr hl
  obtain ⟨r, hr⟩ := Option.ne_none_iff_exists'.1 hn
  simp [atLeast, walk, h, he, hr]

theorem walk_atLeast_eq_none (h : s.ahead.head?.any accepts = false) :
    (atLeast (least + 1) accepts).walk next s = none := by
  cases ha : s.ahead with
  | nil => simp [atLeast, walk, ha, runEnds]
  | cons c t =>
    have hc : accepts c = false := by simpa [ha] using h
    simp [atLeast, walk, ha, runEnds, hc]

/-- The places where a run may end come in the order of the text. -/
theorem exists_runEnds_split (s : State) (rest : Text) (hu : ∀ c ∈ u, accepts c = true) (hl : least ≤ u.length) :
    ∃ near far, runEnds accepts least none s (u ++ rest) = near ++ s.behind u rest :: far ∧
      ∀ e ∈ near, ∃ x y, u = x ++ y ∧ y ≠ [] ∧ least ≤ x.length ∧ e = s.behind x (y ++ rest) := by
  induction u generalizing least s with
  | nil =>
    obtain rfl : least = 0 := by simpa using hl
    exact ⟨[], furtherEnds accepts 0 none s rest, runEnds_eq accepts 0 none s rest, by simp⟩
  | cons c u ih =>
    rw [List.forall_mem_cons] at hu
    have hl' : least - 1 ≤ u.length := by
      rw [List.length_cons] at hl
      omega
    obtain ⟨near, far, he, hnear⟩ := ih { s with prev := some c, taken := s.taken + 1 } hu.2 hl'
    have hbehind (x y : Text) : State.behind { s with prev := some c, taken := s.taken + 1 } x y =
        s.behind (c :: x) y :=
      s.behind_cons c x y s.ahead
    refine ⟨(if least = 0 then [{ s with ahead := c :: (u ++ rest) }] else []) ++ near, far, ?_, fun e hmem => ?_⟩
    · rw [List.cons_append, runEnds_eq, furtherEnds_cons hu.1, he, hbehind, List.append_assoc]
    · rcases List.mem_append.1 hmem with hhere | hmem
      · split at hhere
        · next h0 => exact ⟨[], c :: u, rfl, List.cons_ne_nil c u, by omega, List.mem_singleton.1 hhere⟩
        · exact absurd hhere List.not_mem_nil
      · obtain ⟨x, y, rfl, hy, hx, rfl⟩ := hnear e hmem
        exact ⟨c :: x, y, rfl, hy, by simp; omega, hbehind x _⟩

/-- A reluctant run ends at the first place from which the rest goes on. -/
theorem walk_reluctant (u rest : Text) (h : s.ahead = u ++ rest) (hu : ∀ c ∈ u, accepts c = true) (hne : u ≠ [])
    (hnone : ∀ x y, u = x ++ y → x ≠ [] → y ≠ [] → next (s.behind x (y ++ rest)) = none)
    (hn : next (s.behind u rest) ≠ none) : (reluctant accepts).walk next s = next (s.behind u rest) := by
  obtain ⟨near, far, he, hnear⟩ := exists_runEnds_split s rest hu (List.length_pos_iff.2 hne)
  have hskip : near.findSome? next = none := List.findSome?_eq_none_iff.2 fun e hmem => by
    obtain ⟨x, y, hxy, hy, hx, rfl⟩ := hnear e hmem
    exact hnone x y hxy (List.ne_nil_of_length_pos hx) hy
  obtain ⟨r, hr⟩ := Option.ne_none_iff_exists'.1 hn
  simp [reluctant, walk, h, he, List.findSome?_append, hskip, hr]

end Markup.Pattern
