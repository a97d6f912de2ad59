import Markup.Proofs.Pattern.Takes
import Markup.Proofs.Seam.Lines

/-! # Lines that tokens do not make

A rule that takes whole lines leaves the lines of tokens alone when each line of its match has a character that no token
is written with. -/
namespace Markup.Text
variable {t u v w : Text}

/-- No line holds tokens and nothing else. -/
def Untokened (t : Text) : Prop := ∀ n, ∀ ns : List Nat, (n :: ns).flatMap Token.ofId ∉ t.lines

/-- A token behind a closed text, with nothing after it, is in a line of tokens. -/
theorem Closed.not_untokened (h : Closed u) (hv : v.head?.all (· == '\n') = true) (k : Nat) :
    ¬ Untokened (u ++ Token.ofId k ++ v) := by
  obtain ⟨u, ns, rfl, hu⟩ := h
  obtain ⟨ls, hls⟩ := hu.exists_lines
  have hline : v.line = [] := by
    cases v with
    | nil => rfl
    | cons d v =>
      obtain rfl : d = '\n' := by simpa using hv
      rfl
  have hmem : (ns ++ [k]).flatMap Token.ofId ∈ (u ++ ns.flatMap Token.ofId ++ Token.ofId k ++ v).lines := by
    have htokens : ns.flatMap Token.ofId ++ Token.ofId k = (ns ++ [k]).flatMap Token.ofId := by simp
    rw [List.append_assoc u, htokens, List.append_assoc, hls, lines_append_of_not_mem (newline_not_mem_tokens _), hline,
      List.append_nil]
    exact List.mem_append_right _ List.mem_cons_self
  obtain ⟨n, ms, hns⟩ := List.exists_cons_of_ne_nil (List.append_ne_nil_of_right_ne_nil ns (List.cons_ne_nil k []))
  exact fun hun => hun n ms (hns ▸ hmem)

/-- Every line that is not empty has a character that no token is written with. -/
def Apart (t : Text) : Prop := ∀ l ∈ t.lines, l ≠ [] → ∃ d ∈ l, d ∉ Token.alphabet

theorem Apart.untokened (h : Apart t) : Untokened t := by
  intro n ns hl
  have hne : (n :: ns).flatMap Token.ofId ≠ [] := List.append_ne_nil_of_left_ne_nil (Token.ofId_ne_nil n) _
  obtain ⟨d, hd, ha⟩ := h _ hl hne
  obtain ⟨k, -, hk⟩ := List.mem_flatMap.1 hd
  exact ha (Token.mem_alphabet hk)

/-- Every line that is not empty has the property. -/
def Lined (W : Text → Prop) (t : Text) : Prop := ∀ l ∈ t.lines, l ≠ [] → W l

theorem Lined.imp {W V : Text → Prop} (h : Lined W t) (himp : ∀ l, W l → V l) : Lined V t :=
  fun l hl hne => himp l (h l hl hne)

section
variable {W : Text → Prop}

theorem lined_newline : Lined W ['\n'] := by
  simp [Lined, lines]

theorem lined_nil : Lined W [] := by
  simp [Lined, lines]

theorem lined_of_line (h : W t) (ht : '\n' ∉ t) : Lined W t := by
  intro l hl _
  rw [lines_eq_singleton ht, List.mem_singleton] at hl
  exact hl ▸ h

variable (hW : ∀ l u v, W l → W (u ++ l ++ v))
include hW

theorem Lined.append (hu : Lined W u) (hv : Lined W v) : Lined W (u ++ v) := by
  obtain ⟨ls, l, hl, hlines⟩ := exists_lines_append u
  obtain ⟨ms, hms⟩ := exists_lines_eq_line_cons v
  have hu' := hlines []
  rw [List.append_nil, List.append_nil, lines_eq_singleton hl] at hu'
  rw [Lined, hu', List.forall_mem_append, List.forall_mem_singleton] at hu
  rw [Lined, hms, List.forall_mem_cons] at hv
  rw [Lined, hlines, lines_append_of_not_mem hl, hms, List.tail_cons, List.forall_mem_append, List.forall_mem_cons]
  refine ⟨hu.1, fun hne => ?_, hv.2⟩
  rcases not_and_or.1 (mt List.append_eq_nil_iff.2 hne) with hl | hline
  · exact hW _ [] _ (hu.2 hl)
  · rw [← List.append_nil (l ++ line v)]
    exact hW _ l [] (hv.1 hline)

theorem lined_flatMap {α : Type} {xs : List α} {f : α → Text} (h : ∀ x ∈ xs, Lined W (f x)) :
    Lined W (xs.flatMap f) := by
  induction xs with
  | nil => exact lined_nil
  | cons x xs ih =>
    rw [List.forall_mem_cons] at h
    exact h.1.append hW (ih h.2)

theorem lined_of_repeated {step : Pattern.Taking} {prev : Option Char} {caps : List (Nat × Text)}
    (hstep : ∀ prev w rest caps, step prev w rest caps → Lined W w) (h : Pattern.Repeated step prev t u caps) :
    Lined W t := by
  induction h with
  | none => exact lined_nil
  | more head _ ih => exact (hstep _ _ _ _ head).append hW ih

end

theorem exists_not_mem_alphabet (l u v : Text) (h : ∃ d ∈ l, d ∉ Token.alphabet) :
    ∃ d ∈ u ++ l ++ v, d ∉ Token.alphabet := by
  obtain ⟨d, hd, ha⟩ := h
  exact ⟨d, by simp [hd], ha⟩

end Markup.Text
