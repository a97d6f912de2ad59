import Markup.Proofs.Pattern.Forced

/-! # Where matches end

A greedy run goes on to the end of the stretch of its class. So a pattern that ends with such a run is not followed by a
character of the class, and one that ends with a fixed text ends with the last character of that text. -/
namespace Markup.Pattern
variable {accepts last : Char → Bool} {p : Pattern} {prev : Option Char} {t : Text}

/-- Whichever way the pattern goes, it ends with a greedy run over the one class, or with a text whose last character is
in the other. -/
inductive Shuts (accepts last : Char → Bool) : Pattern → Prop
  | atLeast (least : Nat) : Shuts accepts last (atLeast least accepts)
  | word (w : String) (h : w.toList.getLast?.any last = true) : Shuts accepts last (word w)
  | append (p : Pattern) {q : Pattern} (h : Shuts accepts last q) : Shuts accepts last (p ++ q)
  | orElse {p q : Pattern} (hp : Shuts accepts last p) (hq : Shuts accepts last q) : Shuts accepts last (p <|> q)
  | group (i : Nat) {p : Pattern} (h : Shuts accepts last p) : Shuts accepts last (group i p)

/-- No character of the one class comes next, or the one before is in the other. -/
def State.Shut (accepts last : Char → Bool) (s : State) : Prop :=
  s.ahead.head?.any accepts = false ∨ s.prev.any last = true

/-- Where the search goes on from anywhere, a greedy run goes as far as it can. -/
theorem walk_atLeast_ends {least : Nat} {next : State → Option State} (hn : ∀ e, next e ≠ none) {s r : State}
    (h : (atLeast least accepts).walk next s = some r) :
    ∃ e, next e = some r ∧ e.ahead.head?.any accepts = false := by
  have hsplit : s.ahead = s.ahead.takeWhile accepts ++ s.ahead.dropWhile accepts := List.takeWhile_append_dropWhile.symm
  have hall : ∀ c ∈ s.ahead.takeWhile accepts, accepts c = true := List.all_eq_true.1 List.all_takeWhile
  have hrest : (s.ahead.dropWhile accepts).head?.any accepts = false := by
    have hstop := List.head?_dropWhile_not accepts s.ahead
    cases hd : (s.ahead.dropWhile accepts).head? with
    | none => rfl
    | some c => rwa [hd] at hstop
  have hlong : least ≤ (s.ahead.takeWhile accepts).length := by
    obtain ⟨u, _, e, hpast, ⟨hu, hl, -⟩, -⟩ := walk_takes h
    rw [hpast.ahead, List.takeWhile_append_of_pos hu, List.length_append]
    exact hl.trans (Nat.le_add_right _ _)
  rw [walk_atLeast _ _ hsplit hall hrest hlong (hn _)] at h
  exact ⟨_, h, hrest⟩

theorem Shuts.of_walk (hp : Shuts accepts last p) {next : State → Option State} (hn : ∀ e, next e ≠ none)
    {s r : State} (h : p.walk next s = some r) : ∃ e, next e = some r ∧ e.Shut accepts last := by
  induction hp generalizing next s with
  | atLeast least =>
    obtain ⟨e, he, hrest⟩ := walk_atLeast_ends hn h
    exact ⟨e, he, .inl hrest⟩
  | word w hw =>
    obtain ⟨_, _, e, hpast, ⟨rfl, -⟩, he⟩ := walk_takes h
    refine ⟨e, he, .inr ?_⟩
    obtain ⟨c, hc, hlast⟩ := (Option.any_eq_true _ _).1 hw
    rw [hpast.prev, hc]
    exact hlast
  | append p _ ih =>
    rw [walk_append] at h
    obtain ⟨_, _, e, -, -, he⟩ := walk_takes h
    exact ih hn he
  | orElse _ _ ihp ihq =>
    rw [walk_orElse, Option.orElse_eq_orElse, Option.orElse_eq_or, Option.or_eq_some_iff] at h
    rcases h with h | ⟨-, h⟩
    · exact ihp hn h
    · exact ihq hn h
  | group i _ ih =>
    rw [walk_group] at h
    obtain ⟨e, he, hshut⟩ := ih (fun e => hn _) h
    exact ⟨_, he, hshut⟩

theorem Shuts.of_scanner (hp : Shuts accepts last p) {h : Hit} (hs : p.scanner prev t = some h) :
    h.rest.head?.any accepts = false ∨ (h.whole.getLast?.or prev).any last = true := by
  obtain ⟨r, hr, rfl⟩ := Option.map_eq_some_iff.1 hs
  obtain ⟨u, _, e, hpast, -, he⟩ := walk_takes hr
  obtain ⟨e', he', hshut⟩ := hp.of_walk (fun _ => Option.some_ne_none _) hr
  obtain rfl := Option.some.inj he
  obtain rfl := Option.some.inj he'
  have hahead : t = u ++ e'.ahead := hpast.ahead
  have hwhole : t.take e'.taken = u := by simp [hpast.taken, hahead]
  rw [State.Shut, hpast.prev] at hshut
  rw [State.hit, hwhole]
  exact hshut

theorem Shuts.of_find (hp : Shuts accepts last p) {behind : Text} {m : Match} (h : p.matcher.find behind t = some m)
    (hne : m.whole ≠ []) : m.after.head?.any accepts = false ∨ m.whole.getLast?.any last = true := by
  rw [matcher_eq] at h
  have hshut := hp.of_scanner (p.scanner_lawful.hit_of_search h)
  rwa [Option.or_of_isSome (List.getLast?_isSome.2 hne)] at hshut

end Markup.Pattern
