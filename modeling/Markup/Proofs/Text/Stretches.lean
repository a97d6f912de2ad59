import Markup.Text.Lines
import Mathlib.Data.List.SplitBy

/-! # Stretches of lines

The longest runs of lines with a property, and every other line on its own. -/
namespace Markup.Text
variable {p : Text → Bool} {ls g : List Text} {gs : List (List Text)}

def stretches (p : Text → Bool) (ls : List Text) : List (List Text) := ls.splitBy fun k l => p k && p l

/-- Either all lines have the property, or the one that there is does not. -/
def Stretch (p : Text → Bool) (g : List Text) : Prop :=
  g ≠ [] ∧ ((∀ l ∈ g, p l = true) ∨ ∃ l, g = [l] ∧ p l = false)

/-- No two stretches in a row have the property. -/
def Alternate (p : Text → Bool) (gs : List (List Text)) : Prop :=
  gs.IsChain fun g h => ∃ (hg : g ≠ []) (hh : h ≠ []), (p (g.getLast hg) && p (h.head hh)) = false

theorem flatten_stretches (p : Text → Bool) (ls : List Text) : (stretches p ls).flatten = ls :=
  List.flatten_splitBy _ ls

theorem stretches_alternate (p : Text → Bool) (ls : List Text) : Alternate p (stretches p ls) :=
  List.isChain_getLast_head_splitBy (fun k l => p k && p l) ls

theorem forall_of_isChain {k : Text} (hne : ls ≠ []) (h : (k :: ls).IsChain fun k l => (p k && p l) = true) :
    ∀ l ∈ k :: ls, p l = true := by
  induction ls generalizing k with
  | nil => exact absurd rfl hne
  | cons l ls ih =>
    rw [List.isChain_cons_cons, Bool.and_eq_true] at h
    rw [List.forall_mem_cons]
    refine ⟨h.1.1, ?_⟩
    cases ls with
    | nil => simpa using h.1.2
    | cons m ls => exact ih (List.cons_ne_nil m ls) h.2

theorem stretch_of_mem (h : g ∈ stretches p ls) : Stretch p g := by
  have hne := List.ne_nil_of_mem_splitBy h
  refine ⟨hne, ?_⟩
  obtain ⟨l, g, rfl⟩ := List.exists_cons_of_ne_nil hne
  by_cases hg : g = []
  · subst hg
    cases hl : p l with
    | true => exact .inl (by simpa using hl)
    | false => exact .inr ⟨l, rfl, hl⟩
  · exact .inl (forall_of_isChain hg (List.isChain_of_mem_splitBy h))

theorem Alternate.head_flatten (h : Alternate p (g :: gs)) (hg : ∀ l ∈ g, p l = true) :
    ∀ l ∈ gs.flatten.head?, p l = false := by
  intro l hl
  cases gs with
  | nil => simp at hl
  | cons k gs =>
    obtain ⟨hne, hne', hkl⟩ := (List.isChain_cons_cons.1 h).1
    obtain ⟨m, k, rfl⟩ := List.exists_cons_of_ne_nil hne'
    rw [hg _ (List.getLast_mem hne), Bool.true_and] at hkl
    obtain rfl : m = l := by simpa using hl
    exact hkl

/-- The lines as a row of stretches. -/
structure Parted (p : Text → Bool) (ls : List Text) (gs : List (List Text)) : Prop where
  flatten : gs.flatten = ls
  stretch : ∀ g ∈ gs, Stretch p g
  alternate : Alternate p gs

theorem Stretch.isChain (h : Stretch p g) : g.IsChain fun k l => (p k && p l) = true := by
  obtain ⟨-, hall | ⟨l, rfl, -⟩⟩ := h
  · refine (List.pairwise_of_forall_mem_list fun k hk l hl => ?_).isChain
    rw [hall k hk, hall l hl, Bool.and_self]
  · exact List.isChain_singleton l

/-- There is one way to part the lines. -/
theorem parted_iff : Parted p ls gs ↔ gs = stretches p ls := by
  constructor
  · rintro ⟨rfl, hstretch, halternate⟩
    have hnil : [] ∉ gs := fun h => (hstretch [] h).1 rfl
    exact (List.splitBy_eq_iff.2 ⟨rfl, hnil, fun g hg => (hstretch g hg).isChain, halternate⟩).symm
  · rintro rfl
    exact ⟨flatten_stretches p ls, fun g => stretch_of_mem, stretches_alternate p ls⟩

theorem stretches_congr {q : Text → Bool} (h : ∀ l ∈ ls, p l = q l) : stretches p ls = stretches q ls := by
  have hmem {g : List Text} (hg : g ∈ stretches q ls) {l : Text} (hl : l ∈ g) : p l = q l := by
    refine h l ?_
    rw [← flatten_stretches q ls]
    exact List.mem_flatten_of_mem hg hl
  refine (parted_iff.1 ⟨flatten_stretches q ls, fun g hg => ?_, ?_⟩).symm
  · obtain ⟨hne, hall | ⟨l, rfl, hl⟩⟩ := stretch_of_mem hg
    · exact ⟨hne, .inl fun l hl => (hmem hg hl).trans (hall l hl)⟩
    · exact ⟨hne, .inr ⟨l, rfl, (hmem hg (List.mem_singleton_self l)).trans hl⟩⟩
  · refine List.IsChain.imp_of_mem_imp (fun g k hg hk hgk => ?_) (stretches_alternate q ls)
    obtain ⟨hne, hne', hlast⟩ := hgk
    refine ⟨hne, hne', ?_⟩
    rw [hmem hg (List.getLast_mem hne), hmem hk (List.head_mem hne')]
    exact hlast

end Markup.Text
