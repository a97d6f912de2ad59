import Markup.Pattern.Plan
import Markup.Proofs.Match
import Markup.Token.Basic

/-! # What patterns take

`p.Takes prev u rest caps` says that `p` may take `u` between `prev` and `rest`, with captures `caps`, the latest first.
Which of several ways the search prefers is left open: whatever a matcher finds has been taken by its pattern. -/
namespace Markup.Pattern

abbrev Taking := Option Char → Text → Text → List (Nat × Text) → Prop

/-- One stretch after the other. -/
inductive Repeated (step : Taking) : Taking
  | none (prev : Option Char) (rest : Text) : Repeated step prev [] rest []
  | more {prev : Option Char} {u v rest : Text} {c d : List (Nat × Text)} (head : step prev u (v ++ rest) c)
      (tail : Repeated step (u.getLast?.or prev) v rest d) : Repeated step prev (u ++ v) rest (d ++ c)

def Takes : Pattern → Taking
  | literal t, _, u, _, caps => u = t ∧ caps = []
  | run accepts least most _, _, u, _, caps =>
    (∀ c ∈ u, accepts c = true) ∧ least ≤ u.length ∧ (∀ n ∈ most, u.length ≤ n) ∧ caps = []
  | both p q, prev, u, rest, caps =>
    ∃ a b c d, u = a ++ b ∧ caps = d ++ c ∧ p.Takes prev a (b ++ rest) c ∧ q.Takes (a.getLast?.or prev) b rest d
  | either p q, prev, u, rest, caps => p.Takes prev u rest caps ∨ q.Takes prev u rest caps
  | star p, prev, u, rest, caps => Repeated p.Takes prev u rest caps
  | group i p, prev, u, rest, caps => ∃ c, p.Takes prev u rest c ∧ caps = (i, u) :: c
  | lineStart, prev, u, _, caps => prev.all (· == '\n') = true ∧ u = [] ∧ caps = []
  | lineEnd, _, u, rest, caps => rest.head?.all (· == '\n') = true ∧ u = [] ∧ caps = []
  | wordEdge, prev, u, rest, caps => atWordEdge prev rest.head? = true ∧ u = [] ∧ caps = []

/-- The captured text with its index. -/
def Capture.entry (c : Capture) : Nat × Text := (c.index, c.source.take c.size)

/-- The place `e` lies behind `u` as seen from `s`. -/
structure State.Past (s : State) (u : Text) (caps : List (Nat × Text)) (e : State) : Prop where
  ahead : s.ahead = u ++ e.ahead
  prev : e.prev = u.getLast?.or s.prev
  taken : e.taken = s.taken + u.length
  captures : e.captures.map Capture.entry = caps ++ s.captures.map Capture.entry

theorem State.Past.refl (s : State) : s.Past [] [] s := ⟨rfl, rfl, rfl, rfl⟩

theorem State.Past.trans {s m e : State} {u v : Text} {c d : List (Nat × Text)} (h : s.Past u c m) (k : m.Past v d e) :
    s.Past (u ++ v) (d ++ c) e where
  ahead := by rw [h.ahead, k.ahead, List.append_assoc]
  prev := by rw [k.prev, h.prev, List.getLast?_append, Option.or_assoc]
  taken := by rw [k.taken, h.taken, List.length_append, Nat.add_assoc]
  captures := by rw [k.captures, h.captures, List.append_assoc]

theorem past_of_mem_runEnds {accepts : Char → Bool} {least : Nat} {most : Option Nat} {s e : State} {t : Text}
    (h : e ∈ runEnds accepts least most s t) : ∃ u, (∀ c ∈ u, accepts c = true) ∧ least ≤ u.length ∧
      (∀ n ∈ most, u.length ≤ n) ∧ State.Past { s with ahead := t } u [] e := by
  induction t generalizing least most s with
  | nil =>
    rw [runEnds] at h
    split at h
    · next hl =>
      rw [List.mem_singleton.1 h]
      exact ⟨[], by simp, by omega, by simp, State.Past.refl _⟩
    · exact absurd h List.not_mem_nil
  | cons c t ih =>
    rw [runEnds_eq, List.mem_append] at h
    rcases h with h | h
    · split at h
      · next hl =>
        rw [List.mem_singleton.1 h]
        exact ⟨[], by simp, by omega, by simp, State.Past.refl _⟩
      · exact absurd h List.not_mem_nil
    · rw [furtherEnds] at h
      split at h
      · next hc =>
        rw [Bool.and_eq_true, bne_iff_ne] at hc
        obtain ⟨u, hu, hl, hm, hp⟩ := ih h
        refine ⟨c :: u, by simpa [hc.1] using hu, by simp; omega, fun n hn => ?_, ?_⟩
        · cases n with
          | zero => exact absurd hn hc.2
          | succ n =>
            have := hm n (by simp [Option.mem_def.1 hn])
            simpa using this
        · have step : State.Past { s with ahead := c :: t } [c] []
              { s with prev := some c, taken := s.taken + 1, ahead := t } := ⟨rfl, rfl, rfl, rfl⟩
          exact step.trans hp
      · exact absurd h List.not_mem_nil

theorem repeats_takes {p : Pattern} {next : State → Option State} {r : State}
    (step : ∀ {next : State → Option State} {s : State}, p.walk next s = some r →
      ∃ u caps e, s.Past u caps e ∧ p.Takes s.prev u e.ahead caps ∧ next e = some r)
    {n : Nat} {s : State} (h : repeats p.walk next n s = some r) :
    ∃ u caps e, s.Past u caps e ∧ Repeated p.Takes s.prev u e.ahead caps ∧ next e = some r := by
  induction n generalizing s with
  | zero => exact ⟨[], [], s, State.Past.refl s, .none _ _, h⟩
  | succ n ih =>
    rw [repeats, Option.orElse_eq_orElse, Option.orElse_eq_or, Option.or_eq_some_iff] at h
    rcases h with h | ⟨-, h⟩
    · obtain ⟨u, c, m, hp, ht, hm⟩ := step h
      obtain ⟨v, d, e, hp', ht', he⟩ := ih hm
      rw [hp.prev] at ht'
      rw [hp'.ahead] at ht
      exact ⟨u ++ v, d ++ c, e, hp.trans hp', .more ht ht', he⟩
    · exact ⟨[], [], s, State.Past.refl s, .none _ _, h⟩

/-- What the search goes on with has been taken. -/
theorem walk_takes {p : Pattern} {next : State → Option State} {s r : State} (h : p.walk next s = some r) :
    ∃ u caps e, s.Past u caps e ∧ p.Takes s.prev u e.ahead caps ∧ next e = some r := by
  induction p generalizing next s with
  | literal t =>
    rw [walk] at h
    split at h
    · next rest ht =>
      have hs := Token.eq_append_of_isPrefixOf? ht
      exact ⟨t, [], ⟨t.getLast?.or s.prev, s.taken + t.length, rest, s.captures⟩, ⟨hs, rfl, rfl, rfl⟩, ⟨rfl, rfl⟩, h⟩
    · contradiction
  | run accepts least most greedy =>
    rw [walk] at h
    obtain ⟨e, he, hn⟩ := List.exists_of_findSome?_eq_some h
    have he : e ∈ runEnds accepts least most s s.ahead := by
      split at he
      · exact List.mem_reverse.1 he
      · exact he
    obtain ⟨u, hu, hl, hm, hp⟩ := past_of_mem_runEnds he
    exact ⟨u, [], e, hp, ⟨hu, hl, hm, rfl⟩, hn⟩
  | both p q ihp ihq =>
    obtain ⟨u, c, m, hp, ht, hm⟩ := ihp h
    obtain ⟨v, d, e, hp', ht', he⟩ := ihq hm
    rw [hp.prev] at ht'
    rw [hp'.ahead] at ht
    exact ⟨u ++ v, d ++ c, e, hp.trans hp', ⟨u, v, c, d, rfl, rfl, ht, ht'⟩, he⟩
  | either p q ihp ihq =>
    rw [walk, Option.orElse_eq_orElse, Option.orElse_eq_or, Option.or_eq_some_iff] at h
    rcases h with h | ⟨-, h⟩
    · obtain ⟨u, c, e, hp, ht, he⟩ := ihp h
      exact ⟨u, c, e, hp, .inl ht, he⟩
    · obtain ⟨u, c, e, hp, ht, he⟩ := ihq h
      exact ⟨u, c, e, hp, .inr ht, he⟩
  | star p ih => exact repeats_takes ih h
  | group i p ih =>
    obtain ⟨u, c, e, hp, ht, he⟩ := ih h
    refine ⟨u, (i, u) :: c, { e with captures := ⟨i, s.ahead, e.taken - s.taken⟩ :: e.captures },
      ⟨hp.ahead, hp.prev, hp.taken, ?_⟩, ⟨c, ht, rfl⟩, he⟩
    have hsize : e.taken - s.taken = u.length := by rw [hp.taken]; omega
    simp [Capture.entry, hp.captures, hsize, hp.ahead]
  | lineStart =>
    rw [walk] at h
    split at h
    · next hs => exact ⟨[], [], s, State.Past.refl s, ⟨hs, rfl, rfl⟩, h⟩
    · contradiction
  | lineEnd =>
    rw [walk] at h
    split at h
    · next hs => exact ⟨[], [], s, State.Past.refl s, ⟨hs, rfl, rfl⟩, h⟩
    · contradiction
  | wordEdge =>
    rw [walk] at h
    split at h
    · next hs => exact ⟨[], [], s, State.Past.refl s, ⟨hs, rfl, rfl⟩, h⟩
    · contradiction

/-- How many characters the pattern takes at least, where a token may count as one. -/
def size : Pattern → Nat
  | literal t => t.length
  | run _ least _ _ => least
  | both p q => p.size + q.size
  | either p q => min p.size q.size
  | group _ p => p.size
  | _ => 0

theorem size_le_of_takes {p : Pattern} {prev : Option Char} {u rest : Text} {caps : List (Nat × Text)}
    (h : p.Takes prev u rest caps) : p.size ≤ u.length := by
  induction p generalizing prev u rest caps with
  | literal t => exact Nat.le_of_eq (congrArg List.length h.1.symm)
  | run accepts least most greedy => exact h.2.1
  | both p q ihp ihq =>
    obtain ⟨a, b, c, d, rfl, -, hp, hq⟩ := h
    rw [List.length_append]
    exact Nat.add_le_add (ihp hp) (ihq hq)
  | either p q ihp ihq =>
    rcases h with h | h
    · exact Nat.le_trans (Nat.min_le_left _ _) (ihp h)
    · exact Nat.le_trans (Nat.min_le_right _ _) (ihq h)
  | group i p ih =>
    obtain ⟨c, hp, -⟩ := h
    exact ih hp
  | star | lineStart | lineEnd | wordEdge => exact Nat.zero_le _

/-- Whether the pattern takes no such character. -/
def avoids (c : Char) : Pattern → Bool
  | literal t => !t.contains c
  | run accepts _ _ _ => !accepts c
  | both p q | either p q => p.avoids c && q.avoids c
  | star p | group _ p => p.avoids c
  | _ => true

theorem not_mem_of_takes {p : Pattern} {c : Char} (hp : p.avoids c = true) {prev : Option Char} {u rest : Text}
    {caps : List (Nat × Text)} (h : p.Takes prev u rest caps) : c ∉ u := by
  induction p generalizing prev u rest caps with
  | literal t =>
    obtain ⟨rfl, -⟩ := h
    simpa [avoids] using hp
  | run accepts least most greedy =>
    intro hc
    simp [avoids, h.1 c hc] at hp
  | both p q ihp ihq =>
    rw [avoids, Bool.and_eq_true] at hp
    obtain ⟨a, b, _, _, rfl, -, ha, hb⟩ := h
    rw [List.mem_append, not_or]
    exact ⟨ihp hp.1 ha, ihq hp.2 hb⟩
  | either p q ihp ihq =>
    rw [avoids, Bool.and_eq_true] at hp
    exact h.elim (ihp hp.1) (ihq hp.2)
  | star p ih =>
    induction h with
    | none => exact List.not_mem_nil
    | more head _ tail =>
      rw [List.mem_append, not_or]
      exact ⟨ih hp head, tail⟩
  | group i p ih =>
    obtain ⟨_, h, -⟩ := h
    exact ih hp h
  | lineStart | lineEnd | wordEdge => exact h.2.1 ▸ List.not_mem_nil

/-- At the end of the text a pattern that takes something is at an end. -/
theorem walk_eq_none_of_size {p : Pattern} (hp : 1 ≤ p.size) {s : State} (hs : s.ahead = [])
    (next : State → Option State) : p.walk next s = none := by
  cases h : p.walk next s with
  | none => rfl
  | some r =>
    obtain ⟨u, _, e, hpast, ht, -⟩ := walk_takes h
    have hu := size_le_of_takes ht
    have ha := congrArg List.length hpast.ahead
    rw [hs, List.length_append, List.length_nil] at ha
    omega

/-- When each repetition takes something, the number of characters to come does not bound the repetitions. -/
theorem repeats_eq {p : Pattern} (hp : 1 ≤ p.size) (next : State → Option State) {n : Nat} {s : State}
    (hn : s.ahead.length ≤ n) :
    repeats p.walk next n s = (p.walk (repeats p.walk next (n - 1)) s <|> next s) := by
  cases n with
  | zero =>
    have hs := List.eq_nil_of_length_eq_zero (Nat.le_zero.1 hn)
    rw [walk_eq_none_of_size hp hs]
    rfl
  | succ n => rfl

theorem repeats_of_end {p : Pattern} (hp : 1 ≤ p.size) (next : State → Option State) (n : Nat) {s : State}
    (hs : s.ahead = []) : repeats p.walk next n s = next s := by
  rw [repeats_eq hp next (by rw [hs]; exact n.zero_le), walk_eq_none_of_size hp hs]
  rfl

theorem rel_or {End : State → State → Prop} {a b c d : Option State} (h : Option.Rel End a b)
    (k : Option.Rel End c d) : Option.Rel End (a <|> c) (b <|> d) := by
  cases h with
  | some h => exact .some h
  | none => exact k

theorem find?_eq_lookup (caps : List Capture) (i : Nat) :
    Capture.find? caps i = (caps.map Capture.entry).lookup i := by
  induction caps with
  | nil => rfl
  | cons c caps ih =>
    rw [Capture.find?, List.map_cons, Capture.entry, List.lookup_cons, ← ih, List.find?_cons, BEq.comm]
    cases i == c.index <;> rfl

/-- Where the search ends, a text has been taken with the groups in it. -/
theorem takes_of_walk {p : Pattern} {prev : Option Char} {t : Text} {r : State}
    (h : p.walk some ⟨prev, 0, t, []⟩ = some r)
    (k : Nat) : t = (State.hit k t r).whole ++ r.ahead ∧ ∃ caps, p.Takes prev (State.hit k t r).whole r.ahead caps ∧
      (State.hit k t r).groups = (List.range k).map fun i => caps.lookup (i + 1) := by
  obtain ⟨u, caps, e, hp, ht, hn⟩ := walk_takes h
  obtain rfl := Option.some.inj hn
  have ha : t = u ++ e.ahead := hp.ahead
  have hw : t.take e.taken = u := by rw [hp.taken, ha]; simp
  have hc : e.captures.map Capture.entry = caps := by simpa using hp.captures
  simp only [State.hit, hw, find?_eq_lookup, hc]
  exact ⟨ha, caps, ht, rfl⟩

/-- A hit of a pattern is a text that the pattern takes, with the groups that it captured. -/
theorem takes_of_scanner {p : Pattern} {prev : Option Char} {t : Text} {h : Hit} (hs : p.scanner prev t = some h) :
    t = h.whole ++ h.rest ∧ ∃ caps, p.Takes prev h.whole h.rest caps ∧
      h.groups = (List.range p.groupCount).map fun i => caps.lookup (i + 1) := by
  obtain ⟨e, he, rfl⟩ := Option.map_eq_some_iff.1 hs
  exact takes_of_walk he p.groupCount

theorem scanner_lawful (p : Pattern) : p.scanner.Lawful := fun _ _ _ h => (takes_of_scanner h).1.symm

theorem takes_of_match {p : Pattern} {behind t : Text} {m : Match} (h : p.matcher.find behind t = some m) :
    ∃ caps, p.Takes m.behind.head? m.whole m.after caps ∧
      m.groups = (List.range p.groupCount).map fun i => caps.lookup (i + 1) := by
  rw [matcher_eq] at h
  exact (takes_of_scanner (p.scanner_lawful.hit_of_search h)).2

theorem matcher_lawful (p : Pattern) : p.matcher.Lawful := by
  rw [matcher_eq]
  exact Matcher.lawful_ofScanner p.scanner_lawful _

theorem takes_of_find {p : Pattern} {t : Text} {m : Match} (h : p.matcher.find [] t = some m) :
    m.text = t ∧ ∃ caps, p.Takes m.behind.head? m.whole m.after caps ∧
      m.groups = (List.range p.groupCount).map fun i => caps.lookup (i + 1) :=
  ⟨(p.matcher_lawful _ _ _ h).1, takes_of_match h⟩

section
variable {p q : Pattern} {prev : Option Char} {u rest : Text} {caps : List (Nat × Text)} {accepts : Char → Bool}

@[simp] theorem takes_append : (p ++ q).Takes prev u rest caps ↔ ∃ a b c d, u = a ++ b ∧ caps = d ++ c ∧
    p.Takes prev a (b ++ rest) c ∧ q.Takes (a.getLast?.or prev) b rest d := Iff.rfl

@[simp] theorem takes_orElse : (p <|> q).Takes prev u rest caps ↔
    p.Takes prev u rest caps ∨ q.Takes prev u rest caps := Iff.rfl

@[simp] theorem takes_group {i : Nat} : (group i p).Takes prev u rest caps ↔
    ∃ c, p.Takes prev u rest c ∧ caps = (i, u) :: c := Iff.rfl

@[simp] theorem takes_word {s : String} : (word s).Takes prev u rest caps ↔ u = s.toList ∧ caps = [] := Iff.rfl

@[simp] theorem takes_atLeast {n : Nat} : (atLeast n accepts).Takes prev u rest caps ↔
    (∀ c ∈ u, accepts c = true) ∧ n ≤ u.length ∧ caps = [] := by
  simp [atLeast, Takes]

@[simp] theorem takes_reluctant : (reluctant accepts).Takes prev u rest caps ↔
    (∀ c ∈ u, accepts c = true) ∧ 1 ≤ u.length ∧ caps = [] := by
  simp [reluctant, Takes]

@[simp] theorem takes_one : (one accepts).Takes prev u rest caps ↔
    ∃ c, accepts c = true ∧ u = [c] ∧ caps = [] := by
  cases u with
  | nil => simp [one, Takes]
  | cons c u =>
    cases u with
    | nil =>
      simp only [one, Takes, List.mem_singleton, forall_eq, List.length_singleton, List.cons.injEq, and_true]
      exact ⟨fun h => ⟨c, h.1, rfl, h.2.2.2⟩, fun ⟨_, h, rfl, hc⟩ => ⟨h, Nat.le_refl 1, by simp, hc⟩⟩
    | cons d u => simp [one, Takes]

@[simp] theorem takes_optional : (optional p).Takes prev u rest caps ↔
    p.Takes prev u rest caps ∨ u = [] ∧ caps = [] := Iff.rfl

@[simp] theorem takes_lineStart : lineStart.Takes prev u rest caps ↔
    prev.all (· == '\n') = true ∧ u = [] ∧ caps = [] := Iff.rfl

@[simp] theorem takes_lineEnd : lineEnd.Takes prev u rest caps ↔
    rest.head?.all (· == '\n') = true ∧ u = [] ∧ caps = [] := Iff.rfl

end

end Markup.Pattern
