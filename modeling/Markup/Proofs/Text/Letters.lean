import Markup.Unicode.Space
import Markup.Unicode.Word

/-! # Letters and digits

ASCII letters and digits are no white space, and belong to words. -/
namespace Markup
variable {c : Char}

section
variable (h : c.isDigit = true)
include h

theorem toNat_of_isDigit : 48 ≤ c.toNat ∧ c.toNat ≤ 57 := by
  simp only [Char.isDigit, Bool.and_eq_true, decide_eq_true_eq, ge_iff_le, UInt32.le_iff_toNat_le] at h
  exact h

theorem isSpace_of_isDigit : isSpace c = false := by
  have hn := toNat_of_isDigit h
  simp only [isSpace, Bool.or_eq_false_iff, Bool.and_eq_false_iff, decide_eq_false_iff_not, beq_eq_false_iff_ne]
  omega

theorem isWord_of_isDigit : isWord c = true := by
  have hn := toNat_of_isDigit h
  rw [isWord, if_pos (by omega), Char.isAlphanum, h, Bool.or_true, Bool.true_or]

end

section
variable (h : c.isAlpha = true)
include h

theorem toNat_of_isAlpha : (65 ≤ c.toNat ∧ c.toNat ≤ 90) ∨ (97 ≤ c.toNat ∧ c.toNat ≤ 122) := by
  obtain hupper | hlower := Bool.or_eq_true_iff.1 (h : (c.isUpper || c.isLower) = true)
  · exact .inl (of_decide_eq_true hupper)
  · obtain ⟨hlo, hhi⟩ := Bool.and_eq_true_iff.1 hlower
    exact .inr ⟨of_decide_eq_true hlo, of_decide_eq_true hhi⟩

theorem isSpace_of_isAlpha : isSpace c = false := by
  have hn := toNat_of_isAlpha h
  simp only [isSpace, Bool.or_eq_false_iff, Bool.and_eq_false_iff, decide_eq_false_iff_not, beq_eq_false_iff_ne]
  omega

theorem isDigit_of_isAlpha : c.isDigit = false := by
  have hn := toNat_of_isAlpha h
  rw [Bool.eq_false_iff]
  intro hd
  have hn' := toNat_of_isDigit hd
  omega

theorem isWord_of_isAlpha : isWord c = true := by
  have hn := toNat_of_isAlpha h
  rw [isWord, if_pos (by omega), Char.isAlphanum, h]
  rfl

end

end Markup
