import Markup.Proofs.Pattern.Complete
import Markup.Proofs.Token.Numbers
import Markup.Proofs.Token.Shield

/-! # Readers of tokens

A token is looked up as a whole text, recognized at the beginning of a text, and found by a pattern where tokens are
resolved. All three read what is written for a number, with any number of zeros before it, and nothing else that a store
knows. -/
namespace Markup

namespace Token
variable {prev : Option Char} {t u rest digits : Text} {caps : List (Nat × Text)} {n : Nat}

/-- What is written for a number, with zeros before it. -/
def spelled (zeros n : Nat) : Text := marker ++ (List.replicate zeros '0' ++ Nat.toDigits 10 n) ++ [';']

theorem ofId_eq_spelled (n : Nat) : ofId n = spelled 0 n := rfl

theorem eq_spelled_iff : (∃ zeros, t = spelled zeros n) ↔
    ∃ digits, t = marker ++ digits ++ [';'] ∧ readId? digits = some n := by
  simp only [readId?_eq_some_iff]
  constructor
  · rintro ⟨zeros, rfl⟩
    exact ⟨_, rfl, zeros, rfl⟩
  · rintro ⟨_, rfl, zeros, rfl⟩
    exact ⟨zeros, rfl⟩

theorem id?_eq_some_iff : id? t = some n ↔ ∃ zeros, t = spelled zeros n := by
  rw [eq_spelled_iff, id?]
  constructor
  · intro h
    obtain ⟨rest, hrest, h⟩ := Option.bind_eq_some_iff.1 h
    split at h
    · next hlast =>
      refine ⟨rest.dropLast, ?_, h⟩
      rw [List.append_assoc, List.dropLast_append_getLast? _ hlast]
      exact eq_append_of_isPrefixOf? hrest
    · contradiction
  · rintro ⟨digits, rfl, h⟩
    rw [List.append_assoc, isPrefixOf?_append]
    simp [h]

theorem leads_spelled (zeros n : Nat) (t : Text) : leads (spelled zeros n ++ t) = true := by
  obtain ⟨hne, hd, -⟩ := readId?_eq_some.1 (readId?_eq_some_iff.2 ⟨zeros, rfl⟩)
  rw [spelled, List.append_assoc]
  exact leads_digits hne hd t

/-- What is replaced where tokens are resolved. -/
def pattern : Pattern := .word ";;xsv;" ++ .group 1 (.atLeast 1 isDecimal) ++ .word ";"

theorem pattern_takes_iff : pattern.Takes prev u rest caps ↔
    ∃ digits, u = marker ++ digits ++ [';'] ∧ digits ≠ [] ∧ (∀ c ∈ digits, isDecimal c = true) ∧
      caps = [(1, digits)] := by
  simp only [pattern, Pattern.takes_append, Pattern.takes_group, Pattern.takes_atLeast, Pattern.takes_word]
  constructor
  · rintro ⟨_, _, _, _, rfl, rfl, ⟨_, digits, _, _, rfl, rfl, ⟨rfl, rfl⟩, _, ⟨hd, hl, rfl⟩, rfl⟩, rfl, rfl⟩
    exact ⟨digits, rfl, List.ne_nil_of_length_pos hl, hd, rfl⟩
  · rintro ⟨digits, rfl, hne, hd, rfl⟩
    exact ⟨_, _, [(1, digits)], [], rfl, rfl, ⟨_, digits, [], [(1, digits)], rfl, rfl, ⟨rfl, rfl⟩, [],
      ⟨hd, List.length_pos_iff.2 hne, rfl⟩, rfl⟩, rfl, rfl⟩

/-- The match of a token-shaped stretch, with its digits as the group. -/
def stretchHit (p : Text × Text) : Hit := ⟨marker ++ p.1 ++ [';'], p.2, [some p.1]⟩

theorem pattern_scanner (prev : Option Char) (t : Text) : pattern.scanner prev t = (shape? t).map stretchHit := by
  cases hs : pattern.scanner prev t with
  | none =>
    cases hshape : shape? t with
    | none => rfl
    | some p =>
      obtain ⟨rfl, hne, hd⟩ := shape?_eq_some_iff.1 hshape
      have htakes : pattern.Takes prev (marker ++ p.1 ++ [';']) p.2 [(1, p.1)] :=
        pattern_takes_iff.2 ⟨p.1, rfl, hne, hd, rfl⟩
      have hhit := Pattern.scanner_ne_none rfl htakes
      rw [List.append_assoc, List.singleton_append] at hhit
      exact absurd hs hhit
  | some h =>
    obtain ⟨rfl, caps, htakes, hgroups⟩ := Pattern.takes_of_scanner hs
    obtain ⟨digits, hwhole, hne, hd, rfl⟩ := pattern_takes_iff.1 htakes
    have hshape : shape? (h.whole ++ h.rest) = some (digits, h.rest) := by
      rw [hwhole, List.append_assoc, List.singleton_append]
      exact shape?_eq_some_iff.2 ⟨rfl, hne, hd⟩
    rw [hshape, Option.map_some, stretchHit, ← hwhole]
    exact congrArg some (Hit.mk.injEq .. |>.mpr ⟨rfl, rfl, hgroups⟩)

theorem shape?_eq_whole_iff : shape? t = some (digits, []) ↔
    t = marker ++ digits ++ [';'] ∧ digits ≠ [] ∧ ∀ c ∈ digits, isDecimal c = true := shape?_eq_some_iff

theorem find_whole_iff :
    pattern.matcher.find [] t = some ⟨[], t, [], [some digits]⟩ ↔ shape? t = some (digits, []) := by
  rw [Pattern.matcher_eq]
  constructor
  · intro h
    have hhit := pattern.scanner_lawful.hit_of_search h
    rw [pattern_scanner, List.append_nil] at hhit
    obtain ⟨⟨d, after⟩, hshape, heq⟩ := Option.map_eq_some_iff.1 hhit
    obtain ⟨-, rfl, hgroups⟩ := Hit.mk.injEq .. |>.mp heq
    obtain rfl : d = digits := by simpa using hgroups
    exact hshape
  · intro h
    have hhit : pattern.scanner ([] : Text).head? t = some ⟨t, [], [some digits]⟩ := by
      rw [pattern_scanner, h, Option.map_some, stretchHit, ← eq_of_shape? h]
    exact Scanner.search_of_hit hhit

theorem pieces_of_whole (h : shape? t = some (digits, [])) : pieces t = [.token digits] := by
  rw [pieces_of_shape? h, pieces]

end Token

namespace Store
variable {s : Store} {t v : Text} {n : Nat}

/-- The text is written for the number of a value. -/
structure Names (s : Store) (t : Text) (n : Nat) (v : Text) : Prop where
  spelled : ∃ zeros, t = Token.spelled zeros n
  value : s.values[n]? = some v

theorem get?_eq_some_iff : s.get? t = some v ↔ ∃ n, s.Names t n v := by
  rw [get?, Option.bind_eq_bind, Option.bind_eq_some_iff]
  simp only [Token.id?_eq_some_iff]
  constructor
  · rintro ⟨n, hspelled, hvalue⟩
    exact ⟨n, hspelled, hvalue⟩
  · rintro ⟨n, hspelled, hvalue⟩
    exact ⟨n, hspelled, hvalue⟩

/-- A name is a token-shaped stretch of its own, with ASCII digits. -/
theorem Names.exists_digits (h : s.Names t n v) :
    ∃ digits, Token.shape? t = some (digits, []) ∧ Token.readId? digits = some n := by
  obtain ⟨digits, ht, hread⟩ := Token.eq_spelled_iff.1 h.spelled
  obtain ⟨hne, hd, -⟩ := Token.readId?_eq_some.1 hread
  exact ⟨digits, Token.shape?_eq_whole_iff.2 ⟨ht, hne, fun c hc => isDecimal_of_isDigit (hd c hc)⟩, hread⟩

theorem names_iff : s.Names t n v ↔ ∃ digits, Token.pattern.matcher.find [] t = some ⟨[], t, [], [some digits]⟩ ∧
    Token.readId? digits = some n ∧ n < s.size ∧ s.values[n]? = some v := by
  simp only [Token.find_whole_iff]
  constructor
  · intro h
    obtain ⟨digits, hshape, hread⟩ := h.exists_digits
    exact ⟨digits, hshape, hread, lt_size h.value, h.value⟩
  · rintro ⟨digits, hshape, hread, -, hvalue⟩
    obtain ⟨ht, -⟩ := Token.shape?_eq_whole_iff.1 hshape
    exact ⟨Token.eq_spelled_iff.2 ⟨digits, ht, hread⟩, hvalue⟩

/-- A name resolves to what its value does below the number. -/
theorem Names.detokenize_eq (h : s.Names t n v) : s.detokenize t = s.resolve n v := by
  obtain ⟨digits, hshape, hread⟩ := h.exists_digits
  have hlt : n < s.size := lt_size h.value
  rw [detokenize, resolve, Token.pieces_of_whole hshape]
  simp only [List.flatMap_singleton, Token.Piece.id?, hread, dif_pos hlt, h.value]

theorem Names.leads (h : s.Names t n v) (r : Text) : Token.leads (t ++ r) = true := by
  obtain ⟨zeros, rfl⟩ := h.spelled
  exact Token.leads_spelled zeros n r

theorem Names.mono {s' : Store} (h : s.Names t n v) (hs : s.Le s') : s'.Names t n v := ⟨h.spelled, hs n v h.value⟩

theorem names_mint (s : Store) (v : Text) : (s.mint v).2.Names (s.mint v).1 s.size v :=
  ⟨⟨0, Token.ofId_eq_spelled s.size⟩, s.mint_values v⟩

theorem size_mintAll (s : Store) (vs : List Text) : (s.mintAll vs).size = s.size + vs.length := by
  induction vs generalizing s with
  | nil => rfl
  | cons v vs ih =>
    have hrest := ih (s.mint v).2
    rw [size_mint] at hrest
    rw [List.length_cons]
    exact hrest.trans (by omega)

theorem mintAll_append_cons (s : Store) (before : List Text) (v : Text) (after : List Text) :
    s.mintAll (before ++ v :: after) = ((s.mintAll before).mint v).2.mintAll after := by
  rw [mintAll, List.foldl_append, List.foldl_cons]
  rfl

/-- The readers of tokens agree. A text is looked up to a value exactly if it is written for the number of the value,
and exactly if it is, as a whole, what is replaced by the value where tokens are resolved. Then it is recognized
whatever stands behind it. What is handed out for the `n`-th value is written for `n`, in that store and in every later
one. -/
theorem token_readers_agree (s : Store) (t : Text) :
    (∀ v, s.get? t = some v ↔ ∃ n, s.Names t n v) ∧
    (∀ n v, s.Names t n v ↔ ∃ digits, Token.pattern.matcher.find [] t = some ⟨[], t, [], [some digits]⟩ ∧
      Token.readId? digits = some n ∧ n < s.size ∧ s.values[n]? = some v) ∧
    (∀ n v, s.Names t n v → s.detokenize t = s.resolve n v ∧ ∀ r, Token.leads (t ++ r) = true) ∧
    (∀ digits n, Token.readWord? digits = some n ↔ Token.readId? digits = some n ∧ n < 2 ^ 64) ∧
    ∀ before v after,
      (empty.mintAll (before ++ v :: after)).Names ((empty.mintAll before).mint v).1 before.length v := by
  refine ⟨fun v => get?_eq_some_iff, fun n v => names_iff, fun n v h => ⟨h.detokenize_eq, h.leads⟩,
    fun digits n => Token.readWord?_eq_some_iff, fun before v after => ?_⟩
  have hsize : (empty.mintAll before).size = before.length := by
    rw [size_mintAll]
    exact Nat.zero_add _
  have hnames := (empty.mintAll before).names_mint v
  rw [hsize] at hnames
  rw [mintAll_append_cons]
  exact hnames.mono (le_mintAll _ after)

theorem token_readers_agree_of_zeros :
    Store.Names ⟨#["x".toList, "<b>;;xsv;0;</b>".toList]⟩ ";;xsv;001;".toList 1 "<b>;;xsv;0;</b>".toList ∧
    Store.get? ⟨#["x".toList, "<b>;;xsv;0;</b>".toList]⟩ ";;xsv;001;".toList = some "<b>;;xsv;0;</b>".toList ∧
    Store.detokenize ⟨#["x".toList, "<b>;;xsv;0;</b>".toList]⟩ ";;xsv;001;".toList = "<b>x</b>".toList ∧
    Token.leads ";;xsv;001;;;xsv;".toList = true := by
  have hnames : Store.Names ⟨#["x".toList, "<b>;;xsv;0;</b>".toList]⟩ ";;xsv;001;".toList 1 "<b>;;xsv;0;</b>".toList :=
    ⟨⟨2, by decide⟩, rfl⟩
  obtain ⟨hget, -, hresolves, -⟩ := token_readers_agree ⟨#["x".toList, "<b>;;xsv;0;</b>".toList]⟩ ";;xsv;001;".toList
  refine ⟨hnames, (hget _).2 ⟨1, hnames⟩, ?_, (hresolves 1 _ hnames).2 _⟩
  rw [(hresolves 1 _ hnames).1]
  decide +kernel

end Store
end Markup
