import Markup.Token.Basic
import Mathlib.Tactic.IntervalCases

/-! # Written tokens

The characters of a token, and the number read back from it. -/
namespace Markup.Token

theorem pieces_of_shape? {t digits after : Text} (h : shape? t = some (digits, after)) :
    pieces t = .token digits :: pieces after := by
  cases t with
  | nil => simp [shape?, marker] at h
  | cons c r =>
    rw [pieces]
    split
    · next h' =>
      obtain ⟨rfl, rfl⟩ := Prod.mk.inj (Option.some.inj (h.symm.trans h'))
      rfl
    · next h' => rw [h] at h'; contradiction

theorem pieces_cons {c : Char} {r : Text} (h : shape? (c :: r) = none) : pieces (c :: r) = .char c :: pieces r := by
  rw [pieces]
  split
  · next h' => rw [h] at h'; contradiction
  · rfl

/-- Asking all characters of a text looks at these alone, and not at all characters there are. -/
instance decidableForallMem (t : Text) (p : Char → Prop) [DecidablePred p] : Decidable (∀ c ∈ t, p c) :=
  List.decidableBAll p t

/-- The characters that tokens are written with. -/
def alphabet : Text := ";xsv0123456789".toList

theorem mem_alphabet_of_isDigit {c : Char} (h : c.isDigit = true) : c ∈ alphabet := by
  simp only [Char.isDigit, Bool.and_eq_true, decide_eq_true_eq, ge_iff_le, UInt32.le_iff_toNat_le] at h
  have hc : c.toNat ∈ alphabet.map Char.toNat := by
    have h₁ : 48 ≤ c.toNat := h.1
    have h₂ : c.toNat ≤ 57 := h.2
    generalize c.toNat = n at h₁ h₂ ⊢
    interval_cases n <;> decide
  obtain ⟨d, hd, he⟩ := List.mem_map.1 hc
  rwa [← Char.toNat_inj.1 he]

theorem mem_alphabet {n : Nat} {c : Char} (h : c ∈ ofId n) : c ∈ alphabet := by
  simp only [ofId, List.append_assoc, List.mem_append] at h
  rcases h with h | h | h
  · revert c
    decide
  · exact mem_alphabet_of_isDigit (Nat.isDigit_of_mem_toDigits (by omega) (by omega) h)
  · rw [List.mem_singleton.1 h]
    decide

theorem ofId_ne_nil (n : Nat) : ofId n ≠ [] := by simp [ofId]

theorem head?_ofId (n : Nat) : (ofId n).head? = some ';' := rfl

theorem getLast?_ofId (n : Nat) : (ofId n).getLast? = some ';' := by simp [ofId]

theorem exists_ofId_eq (n : Nat) : ∃ u, ofId n = ';' :: (u ++ [';']) ∧ ∀ c ∈ u, c ∈ alphabet := by
  have h : ofId n = ';' :: (";xsv;".toList ++ Nat.toDigits 10 n ++ [';']) := rfl
  refine ⟨";xsv;".toList ++ Nat.toDigits 10 n, h, fun c hc => mem_alphabet (n := n) ?_⟩
  rw [h]
  exact List.mem_cons_of_mem _ (List.mem_append_left _ hc)

theorem digitsValue_toDigits (n : Nat) : digitsValue (Nat.toDigits 10 n) = n :=
  Nat.ofDigitChars_toDigits (by omega) (by omega)

theorem readId?_toDigits (n : Nat) : readId? (Nat.toDigits 10 n) = some n := by
  have hd : (Nat.toDigits 10 n).all Char.isDigit = true :=
    List.all_eq_true.2 fun c hc => Nat.isDigit_of_mem_toDigits (by omega) (by omega) hc
  rw [readId?, if_pos ⟨Nat.toDigits_ne_nil, hd⟩, digitsValue_toDigits]

theorem not_mem_ofId {c : Char} (h : c ∉ alphabet) (n : Nat) : c ∉ ofId n := fun hc => h (mem_alphabet hc)

theorem isPrefixOf?_append (u v : Text) : u.isPrefixOf? (u ++ v) = some v := by
  induction u with
  | nil => rfl
  | cons c u ih => simp [ih]

/-- A token is recognized whatever stands behind it. -/
theorem leads_digits {digits : Text} (hne : digits ≠ []) (hd : ∀ c ∈ digits, c.isDigit = true) (t : Text) :
    leads (marker ++ digits ++ ';' :: t) = true := by
  have hs : ¬ Char.isDigit ';' = true := by decide
  have htake : (digits ++ ';' :: t).takeWhile Char.isDigit = digits := by
    rw [List.takeWhile_append_of_pos hd, List.takeWhile_cons_of_neg hs, List.append_nil]
  have hdrop : (digits ++ ';' :: t).dropWhile Char.isDigit = ';' :: t := by
    rw [List.dropWhile_append_of_pos hd, List.dropWhile_cons_of_neg hs]
  simp [leads, List.append_assoc, isPrefixOf?_append, htake, hdrop, hne]

theorem leads_ofId (n : Nat) (t : Text) : leads (ofId n ++ t) = true := by
  have happ : ofId n ++ t = marker ++ Nat.toDigits 10 n ++ ';' :: t := by simp [ofId]
  rw [happ]
  exact leads_digits Nat.toDigits_ne_nil (fun c hc => Nat.isDigit_of_mem_toDigits (by omega) (by omega) hc) t

end Markup.Token
