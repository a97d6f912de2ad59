import Markup.Proofs.Token.Written
import Mathlib.Data.List.Induction

/-! # Numbers of tokens

Digits spell a number, with any number of zeros before the digits that it is written with. A reader whose numbers are
machine words reads the same numbers as far as they go. -/
namespace Markup.Token
variable {digits : Text} {m n : Nat} {c : Char}

theorem exists_digitChar (h : c.isDigit = true) : ∃ d < 10, c = Nat.digitChar d ∧ c.toNat - '0'.toNat = d := by
  obtain ⟨hlow, hhigh⟩ := Char.isDigit_iff_toNat.1 h
  have hzero : '0'.toNat = 48 := rfl
  have hnine : '9'.toNat = 57 := rfl
  have hlt : c.toNat - '0'.toNat < 10 := by omega
  refine ⟨c.toNat - '0'.toNat, hlt, Char.toNat_inj.1 ?_, rfl⟩
  rw [Nat.toNat_digitChar_of_lt_ten hlt]
  omega

theorem digitsValue_concat (digits : Text) (c : Char) :
    digitsValue (digits ++ [c]) = 10 * digitsValue digits + (c.toNat - '0'.toNat) := by
  rw [digitsValue, List.foldl_append, List.foldl_cons, List.foldl_nil]
  rfl

theorem digitsValue_zeros (zeros : Nat) (digits : Text) :
    digitsValue (List.replicate zeros '0' ++ digits) = digitsValue digits := by
  induction zeros with
  | zero => rfl
  | succ zeros ih => exact ih

theorem exists_zeros (hne : digits ≠ []) (hd : ∀ c ∈ digits, c.isDigit = true) :
    ∃ zeros, digits = List.replicate zeros '0' ++ Nat.toDigits 10 (digitsValue digits) := by
  induction digits using List.reverseRecOn with
  | nil => exact absurd rfl hne
  | append_singleton ds c ih =>
    rw [List.forall_mem_append, List.forall_mem_singleton] at hd
    obtain ⟨d, hlt, rfl, hval⟩ := exists_digitChar hd.2
    have hone : Nat.toDigits 10 d = [d.digitChar] := Nat.toDigits_of_lt_base hlt
    rw [digitsValue_concat, hval]
    by_cases hds : ds = []
    · subst hds
      exact ⟨0, by rw [digitsValue, List.foldl_nil, Nat.mul_zero, Nat.zero_add, hone]; rfl⟩
    obtain ⟨zeros, hzeros⟩ := ih hds hd.1
    by_cases hvalue : digitsValue ds = 0
    · rw [hvalue, Nat.toDigits_zero, ← List.replicate_succ'] at hzeros
      exact ⟨zeros + 1, by rw [hvalue, Nat.mul_zero, Nat.zero_add, hone, ← hzeros]⟩
    · have hlong := Nat.toDigits_append_toDigits (by decide) (Nat.pos_of_ne_zero hvalue) hlt
      exact ⟨zeros, by rw [← hlong, hone, ← List.append_assoc, ← hzeros]⟩

theorem readId?_eq_some : readId? digits = some n ↔
    digits ≠ [] ∧ (∀ c ∈ digits, c.isDigit = true) ∧ digitsValue digits = n := by
  rw [readId?]
  by_cases h : digits ≠ [] ∧ digits.all Char.isDigit = true
  · rw [if_pos h, Option.some.injEq]
    rw [List.all_eq_true] at h
    rw [← and_assoc, and_iff_right h]
  · rw [if_neg h]
    rw [List.all_eq_true] at h
    exact iff_of_false (Option.some_ne_none n).symm fun hall => h ⟨hall.1, hall.2.1⟩

/-- What is read as a number are the spellings of the number. -/
theorem readId?_eq_some_iff :
    readId? digits = some n ↔ ∃ zeros, digits = List.replicate zeros '0' ++ Nat.toDigits 10 n := by
  rw [readId?_eq_some]
  constructor
  · rintro ⟨hne, hd, rfl⟩
    exact exists_zeros hne hd
  · rintro ⟨zeros, rfl⟩
    refine ⟨?_, ?_, ?_⟩
    · exact List.append_ne_nil_of_right_ne_nil _ Nat.toDigits_ne_nil
    · rw [List.forall_mem_append]
      constructor
      · intro c hc
        rw [List.eq_of_mem_replicate hc]
        rfl
      · intro c hc
        exact Nat.isDigit_of_mem_toDigits (by omega) (by omega) hc
    · rw [digitsValue_zeros, digitsValue_toDigits]

/-- A digit more behind a number; refused when no machine word holds the new number. -/
def wordStep? (n : Nat) (c : Char) : Option Nat :=
  if c.isDigit = true ∧ 10 * n + (c.toNat - '0'.toNat) < 2 ^ 64 then some (10 * n + (c.toNat - '0'.toNat)) else none

/-- The number that digits spell, read into a machine word. -/
def readWord? (digits : Text) : Option Nat := if digits = [] then none else digits.foldlM wordStep? 0

/-- Reading on makes no number smaller, so one that has become too large stays so. -/
theorem le_foldl_digits (m : Nat) (digits : Text) :
    m ≤ digits.foldl (fun n c => 10 * n + (c.toNat - '0'.toNat)) m := by
  induction digits generalizing m with
  | nil => exact Nat.le_refl m
  | cons c digits ih =>
    have hrest := ih (10 * m + (c.toNat - '0'.toNat))
    rw [List.foldl_cons]
    omega

theorem foldlM_wordStep? (hm : m < 2 ^ 64) : digits.foldlM wordStep? m = some n ↔
    (∀ c ∈ digits, c.isDigit = true) ∧ digits.foldl (fun n c => 10 * n + (c.toNat - '0'.toNat)) m = n ∧ n < 2 ^ 64 := by
  induction digits generalizing m with
  | nil =>
    simp only [List.foldlM_nil, List.foldl_nil, List.not_mem_nil, false_implies, implies_true, true_and]
    constructor
    · intro h
      obtain rfl := Option.some.inj h
      exact ⟨rfl, hm⟩
    · rintro ⟨rfl, -⟩
      rfl
  | cons c digits ih =>
    rw [List.foldlM_cons, List.forall_mem_cons, List.foldl_cons, wordStep?]
    by_cases hc : c.isDigit = true ∧ 10 * m + (c.toNat - '0'.toNat) < 2 ^ 64
    · rw [if_pos hc, Option.bind_eq_bind, Option.bind_some, ih hc.2, and_iff_right hc.1]
    · rw [if_neg hc]
      refine iff_of_false (fun h => nomatch h) ?_
      rintro ⟨⟨hdigit, -⟩, rfl, hlt⟩
      have hle := le_foldl_digits (10 * m + (c.toNat - '0'.toNat)) digits
      exact hc ⟨hdigit, by omega⟩

/-- Machine words are read as numbers are, and no others are refused than those that no machine word holds. -/
theorem readWord?_eq_some_iff : readWord? digits = some n ↔ readId? digits = some n ∧ n < 2 ^ 64 := by
  rw [readId?_eq_some, readWord?, and_assoc, and_assoc]
  by_cases h : digits = []
  · rw [if_pos h]
    exact iff_of_false (Option.some_ne_none n).symm fun hall => hall.1 h
  · rw [if_neg h, foldlM_wordStep? (by decide), and_iff_right h]
    rfl

end Markup.Token
