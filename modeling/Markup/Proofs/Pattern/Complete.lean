import Markup.Proofs.Pattern.Forced

/-! # Searches miss nothing

Where a pattern may take something, its search finds something, though perhaps not the same. A pattern that asks for no
line edge and no word edge takes a text wherever it stands. -/
namespace Markup.Pattern
variable {p : Pattern} {prev : Option Char} {u rest : Text} {caps : List (Nat × Text)} {next : State → Option State}

/-- Whatever is repeated takes something each time. -/
def lively : Pattern → Bool
  | both p q | either p q => p.lively && q.lively
  | star p => decide (1 ≤ p.size) && p.lively
  | group _ p => p.lively
  | _ => true

theorem mem_runEnds {accepts : Char → Bool} {least : Nat} {most : Option Nat} (s : State)
    (hu : ∀ c ∈ u, accepts c = true)
    (hl : least ≤ u.length) (hm : ∀ n ∈ most, u.length ≤ n) :
    s.behind u rest ∈ runEnds accepts least most s (u ++ rest) := by
  induction u generalizing least most s with
  | nil =>
    obtain rfl : least = 0 := by simpa using hl
    rw [List.nil_append, runEnds_eq]
    exact List.mem_append_left _ (List.mem_singleton_self _)
  | cons c u ih =>
    rw [List.forall_mem_cons] at hu
    rw [List.length_cons] at hl hm
    have hmost : (most != some 0) = true := bne_iff_ne.2 fun h => by simpa using hm 0 h
    have hm' : ∀ n ∈ most.map (· - 1), u.length ≤ n := fun n hn => by
      obtain ⟨k, hk, rfl⟩ := Option.map_eq_some_iff.1 hn
      have := hm k hk
      omega
    have hl' : least - 1 ≤ u.length := by omega
    have hmem := ih { s with prev := some c, taken := s.taken + 1 } hu.2 hl' hm'
    rw [show State.behind { s with prev := some c, taken := s.taken + 1 } u rest = s.behind (c :: u) rest from
      s.behind_cons c u rest s.ahead] at hmem
    rw [List.cons_append, runEnds_eq, furtherEnds, hu.1, hmost, Bool.and_true, if_pos rfl]
    exact List.mem_append_right _ hmem

theorem findSome?_ne_none {α β : Type} {f : α → Option β} {l : List α} {a : α} (ha : a ∈ l) (hf : f a ≠ none) :
    l.findSome? f ≠ none := fun h => hf (List.findSome?_eq_none_iff.1 h a ha)

theorem orElse_ne_none {α : Type} {a b : Option α} (h : a ≠ none ∨ b ≠ none) : (a <|> b) ≠ none := by
  cases a with
  | none => exact h.resolve_left (fun h => h rfl)
  | some a => exact Option.some_ne_none a

/-- The search goes on behind `u`. -/
def GoesOn (next : State → Option State) (prev : Option Char) (u rest : Text) : Prop :=
  ∀ e, e.prev = u.getLast?.or prev → e.ahead = rest → next e ≠ none

theorem repeats_ne_none (hp : 1 ≤ p.size)
    (step : ∀ {prev u rest caps} {next : State → Option State} {s : State}, p.Takes prev u rest caps → s.prev = prev →
      s.ahead = u ++ rest → GoesOn next prev u rest → p.walk next s ≠ none)
    (h : Repeated p.Takes prev u rest caps) {n : Nat} {s : State} (hprev : s.prev = prev) (hahead : s.ahead = u ++ rest)
    (hn : s.ahead.length ≤ n) (hnext : GoesOn next prev u rest) : repeats p.walk next n s ≠ none := by
  induction h generalizing n s with
  | none prev rest =>
    rw [repeats_eq hp next hn]
    exact orElse_ne_none (.inr (hnext s hprev hahead))
  | @more prev u v rest c d head tail ih =>
    have hu := size_le_of_takes head
    have hlen : s.ahead.length = u.length + (v ++ rest).length := by
      rw [hahead, List.append_assoc, List.length_append]
    rw [repeats_eq hp next hn]
    refine orElse_ne_none (.inl (step head hprev (by rw [hahead, List.append_assoc]) fun e he ha => ?_))
    refine ih he ha (by rw [ha]; omega) fun e' he' ha' => hnext e' ?_ ha'
    rw [he', List.getLast?_append, Option.or_assoc]

theorem walk_ne_none (hp : p.lively = true) (h : p.Takes prev u rest caps) {s : State} (hprev : s.prev = prev)
    (hahead : s.ahead = u ++ rest) (hnext : GoesOn next prev u rest) : p.walk next s ≠ none := by
  induction p generalizing prev u rest caps next s with
  | literal t =>
    obtain ⟨rfl, -⟩ := h
    rw [walk, hahead, Token.isPrefixOf?_append]
    exact hnext _ (by rw [hprev]) rfl
  | run accepts least most greedy =>
    obtain ⟨hu, hl, hm, -⟩ := h
    have hmem : s.behind u rest ∈ runEnds accepts least most s s.ahead := hahead ▸ mem_runEnds s hu hl hm
    have hgo : next (s.behind u rest) ≠ none := hnext _ (by rw [State.behind, hprev]) rfl
    rw [walk]
    split
    · exact findSome?_ne_none (List.mem_reverse.2 hmem) hgo
    · exact findSome?_ne_none hmem hgo
  | both p q ihp ihq =>
    rw [lively, Bool.and_eq_true] at hp
    obtain ⟨a, b, c, d, rfl, rfl, ha, hb⟩ := h
    refine ihp hp.1 ha hprev (by rw [hahead, List.append_assoc]) fun e he hae =>
      ihq hp.2 hb he hae fun e' he' hae' => ?_
    exact hnext e' (by rw [he', List.getLast?_append, Option.or_assoc]) hae'
  | either p q ihp ihq =>
    rw [lively, Bool.and_eq_true] at hp
    rcases h with h | h
    · exact orElse_ne_none (.inl (ihp hp.1 h hprev hahead hnext))
    · exact orElse_ne_none (.inr (ihq hp.2 h hprev hahead hnext))
  | star p ih =>
    rw [lively, Bool.and_eq_true, decide_eq_true_eq] at hp
    exact repeats_ne_none hp.1 (fun h => ih hp.2 h) h hprev hahead (Nat.le_refl _) hnext
  | group i p ih =>
    obtain ⟨c, h, -⟩ := h
    exact ih hp h hprev hahead fun e he hae => hnext _ he hae
  | lineStart =>
    obtain ⟨hs, rfl, -⟩ := h
    rw [walk, if_pos (hprev ▸ hs)]
    exact hnext s hprev hahead
  | lineEnd =>
    obtain ⟨hs, rfl, -⟩ := h
    rw [walk, if_pos (show s.ahead.head?.all (· == '\n') = true by rw [hahead]; exact hs)]
    exact hnext s hprev hahead
  | wordEdge =>
    obtain ⟨hs, rfl, -⟩ := h
    rw [walk, if_pos (show atWordEdge s.prev s.ahead.head? = true by rw [hprev, hahead]; exact hs)]
    exact hnext s hprev hahead

theorem scanner_ne_none (hp : p.lively = true) (h : p.Takes prev u rest caps) : p.scanner prev (u ++ rest) ≠ none := by
  rw [scanner, Ne, Option.map_eq_none_iff]
  exact walk_ne_none hp h rfl rfl fun _ _ _ => Option.some_ne_none _

theorem find_ne_none (hp : p.lively = true) {v : Text} (h : p.Takes v.getLast? u rest caps) :
    p.matcher.find [] (v ++ (u ++ rest)) ≠ none := by
  rw [matcher_eq]
  intro hnone
  have hhere := Scanner.search_eq_none_iff.1 hnone v (u ++ rest) rfl
  rw [List.append_nil, List.head?_reverse] at hhere
  exact scanner_ne_none hp h hhere

/-- An optional part is left out only where it leads nowhere. -/
theorem walk_optional {s r : State} (h : (optional p).walk next s = some r) :
    p.walk next s = some r ∨ p.walk next s = none ∧ next s = some r := by
  have hskip : (literal []).walk next s = next s := by
    rw [walk, Text.isPrefixOf?_nil]
    rfl
  rw [optional, walk, Option.orElse_eq_orElse, Option.orElse_eq_or, Option.or_eq_some_iff, hskip] at h
  exact h

/-- No line edge and no word edge is asked for. -/
def floats : Pattern → Bool
  | both p q | either p q => p.floats && q.floats
  | star p | group _ p => p.floats
  | lineStart | lineEnd | wordEdge => false
  | _ => true

/-- What such a pattern takes at one place it takes at every place. -/
theorem takes_anywhere (hp : p.floats = true) (h : p.Takes prev u rest caps) (prev' : Option Char) (rest' : Text) :
    p.Takes prev' u rest' caps := by
  induction p generalizing prev u rest caps prev' rest' with
  | literal t => exact h
  | run accepts least most greedy => exact h
  | both p q ihp ihq =>
    rw [floats, Bool.and_eq_true] at hp
    obtain ⟨a, b, c, d, rfl, rfl, ha, hb⟩ := h
    exact ⟨a, b, c, d, rfl, rfl, ihp hp.1 ha _ _, ihq hp.2 hb _ _⟩
  | either p q ihp ihq =>
    rw [floats, Bool.and_eq_true] at hp
    exact h.imp (ihp hp.1 · _ _) (ihq hp.2 · _ _)
  | star p ih =>
    induction h generalizing prev' with
    | none => exact .none _ _
    | more head _ tail => exact .more (ih hp head _ _) (tail _)
  | group i p ih =>
    obtain ⟨c, h, hc⟩ := h
    exact ⟨c, ih hp h _ _, hc⟩
  | lineStart | lineEnd | wordEdge => exact absurd hp Bool.false_ne_true

/-- Whatever is taken begins with the sign. -/
def headed (c : Char) : Pattern → Bool
  | literal t => t.head? == some c
  | both p _ | group _ p => p.headed c
  | either p q => p.headed c && q.headed c
  | _ => false

theorem head?_of_takes {c : Char} (hp : p.headed c = true) (h : p.Takes prev u rest caps) : u.head? = some c := by
  induction p generalizing prev u rest caps with
  | literal t =>
    obtain ⟨rfl, -⟩ := h
    exact eq_of_beq hp
  | both p q ihp _ =>
    obtain ⟨a, b, _, _, rfl, -, ha, -⟩ := h
    rw [List.head?_append, ihp hp ha, Option.some_or]
  | either p q ihp ihq =>
    rw [headed, Bool.and_eq_true] at hp
    exact h.elim (ihp hp.1) (ihq hp.2)
  | group i p ih =>
    obtain ⟨_, h, -⟩ := h
    exact ih hp h
  | run | star | lineStart | lineEnd | wordEdge => exact absurd hp Bool.false_ne_true

end Markup.Pattern
