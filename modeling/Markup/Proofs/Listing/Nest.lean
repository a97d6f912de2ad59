import Markup.Proofs.Line.Row
import Markup.Proofs.Listing.Apart
import Markup.Proofs.Listing.Entry

/-! # Lists of rows

While the list stage runs, the items that are done stand on lines of their own between `<li>` and `</li>`. A mark or a
colon alone on its line would let an item or a definition go on over the line break; such a line is the whole content
of an item, so its closing tag is all that it can take. -/
namespace Markup.Listing
open Line (Row Rows Trimmed Spun)
open Html (Neat Reading)
open Text (lines joinLines startLines endLines)
variable {s s' : Store} {t v w l m content : Text} {ls ms ks others : List Text} {d e n : Nat}

/-- A line that says nothing behind a mark or before a colon. -/
def Lone (l : Text) : Prop := IsMark l ∨ l = [':']

/-- The line belongs to no item above it. -/
def Low (l : Text) : Prop := (Text.indent l).length < 2

instance (l : Text) : Decidable (Low l) := inferInstanceAs (Decidable (_ < _))

def opener : Text := "<li>".toList

def closer : Text := "</li>".toList

/-- The lines of a list that are left, inside of as many items. -/
inductive Listed (s : Store) : Nat → List Text → Prop
  | nil : Listed s 0 []
  | opens {d : Nat} {ls : List Text} (h : Listed s (d + 1) ls) : Listed s d (opener :: ls)
  | closes {d : Nat} {ls : List Text} (h : Listed s d ls) : Listed s (d + 1) (closer :: ls)
  | row {d : Nat} {l : Text} {ls : List Text} (hl : Row s l)
      (hlone : Lone l → ∃ ms, ls = closer :: ms ∧ ∀ m ∈ ms.head?, Low m) (h : Listed s d ls) : Listed s d (l :: ls)

theorem sound_tag : Sound s opener ∧ Sound s closer := ⟨same_of_not_mem (by decide), same_of_not_mem (by decide)⟩

theorem detokenize_tag (s : Store) : s.detokenize opener = opener ∧ s.detokenize closer = closer :=
  ⟨s.detokenize_of_marker (by decide), s.detokenize_of_marker (by decide)⟩

theorem run_opener (stack : List Text) :
    (Reading.outside stack).run opener = some (.outside ("li".toList :: stack)) :=
  have hnone : ([] : Text).head?.all (· == ' ') = true := rfl
  Reading.run_opening (by decide : Html.IsName "li".toList) hnone List.not_mem_nil

theorem run_closer (stack : List Text) :
    (Reading.outside ("li".toList :: stack)).run closer = some (.outside stack) :=
  Reading.run_closing (by decide : Html.IsName "li".toList)

namespace Listed

theorem mono (h : Listed s d ls) (hle : s.Le s') : Listed s' d ls := by
  induction h with
  | nil => exact nil
  | opens _ ih => exact opens ih
  | closes _ ih => exact closes ih
  | row hl hlone _ ih => exact row (hl.mono hle) hlone ih

theorem sound_lines (h : Listed s d ls) : ∀ l ∈ ls, Sound s l := by
  induction h with
  | nil => exact fun l hl => absurd hl List.not_mem_nil
  | opens _ ih => exact List.forall_mem_cons.2 ⟨sound_tag.1, ih⟩
  | closes _ ih => exact List.forall_mem_cons.2 ⟨sound_tag.2, ih⟩
  | row hl _ _ ih => exact List.forall_mem_cons.2 ⟨hl.tidy.sound, ih⟩

end Listed

theorem sound_joinLines (h : ∀ l ∈ ls, Sound s l) : Sound s (joinLines ls) := by
  induction ls with
  | nil => exact same_of_not_mem List.not_mem_nil
  | cons l ls ih =>
    rw [List.forall_mem_cons] at h
    cases ls with
    | nil =>
      rw [Text.joinLines_singleton]
      exact h.1
    | cons k ls =>
      have hbreak : Same Script.Solid s s ['\n'] ['\n'] := same_of_walled (by decide)
      have hsound := h.1.between hbreak (ih h.2)
      rw [Text.joinLines_cons_cons]
      rwa [List.append_assoc] at hsound

theorem run_joinLines_cons (h : ∀ k ∈ l :: ls, Sound s k) {r : Reading} {stack : List Text}
    (hr : r.run (s.detokenize l) = some (.outside stack)) :
    r.run (s.detokenize (joinLines (l :: ls))) = (Reading.outside stack).run (s.detokenize (joinLines ls)) := by
  cases ls with
  | nil =>
    have hnil : s.detokenize (joinLines []) = [] := s.detokenize_of_marker (by decide)
    rw [Text.joinLines_singleton, hr, hnil]
    rfl
  | cons k ls =>
    have hsound := sound_joinLines h
    rw [Text.joinLines_cons_cons] at hsound ⊢
    rw [(Tidy.cut hsound (by decide)).2.2, Reading.run_append, hr, Option.bind_some, Reading.run_cons]
    rfl

/-- Behind the lines all items are closed. -/
theorem Listed.run (h : Listed s d ls) (stack : List Text) :
    (Reading.outside (List.replicate d "li".toList ++ stack)).run (s.detokenize (joinLines ls)) =
    some (.outside stack) := by
  induction h with
  | nil =>
    have hnil : s.detokenize (joinLines []) = [] := s.detokenize_of_marker (by decide)
    rw [hnil]
    rfl
  | @opens d ls h ih =>
    have hopen := run_opener (List.replicate d "li".toList ++ stack)
    rw [← (detokenize_tag s).1] at hopen
    rw [run_joinLines_cons h.opens.sound_lines hopen]
    exact ih
  | @closes d ls h ih =>
    have hclose := run_closer (List.replicate d "li".toList ++ stack)
    rw [← (detokenize_tag s).2] at hclose
    rw [List.replicate_succ, List.cons_append, run_joinLines_cons h.closes.sound_lines hclose]
    exact ih
  | @row d l ls hl hlone h ih => rw [run_joinLines_cons (h.row hl hlone).sound_lines (hl.tidy.neat _), ih]

theorem Listed.tidy (h : Listed s 0 (lines t)) : Tidy s t := by
  have hsound := sound_joinLines h.sound_lines
  have hrun := h.run
  rw [Text.joinLines_lines] at hsound hrun
  exact ⟨hsound, hrun⟩

namespace Listed

theorem append_rows (hks : ∀ k ∈ ks, Row s k ∧ ¬ Lone k) (h : Listed s d ls) : Listed s d (ks ++ ls) := by
  induction ks with
  | nil => exact h
  | cons k ks ih =>
    rw [List.forall_mem_cons] at hks
    exact row hks.1.1 (fun hlone => absurd hlone hks.1.2) (ih hks.2)

theorem row_inv (h : Listed s d (l :: ls)) (hl : l ≠ opener ∧ l ≠ closer) :
    Row s l ∧ (Lone l → ∃ ms, ls = closer :: ms ∧ ∀ m ∈ ms.head?, Low m) ∧ Listed s d ls := by
  cases h with
  | opens => exact absurd rfl hl.1
  | closes => exact absurd rfl hl.2
  | row hrow hlone h => exact ⟨hrow, hlone, h⟩

theorem rows_inv (h : Listed s d (ks ++ ls)) (hks : ∀ k ∈ ks, k ≠ opener ∧ k ≠ closer) :
    (∀ k ∈ ks, Row s k) ∧ Listed s d ls := by
  induction ks with
  | nil => exact ⟨fun k hk => absurd hk List.not_mem_nil, h⟩
  | cons k ks ih =>
    rw [List.forall_mem_cons] at hks
    obtain ⟨hrow, -, hrest⟩ := row_inv h hks.1
    obtain ⟨hrows, hls⟩ := ih hrest hks.2
    exact ⟨List.forall_mem_cons.2 ⟨hrow, hrows⟩, hls⟩

theorem closer_inv (h : Listed s d (closer :: ls)) : ∃ e, d = e + 1 ∧ Listed s e ls := by
  generalize hks : closer :: ls = ks at h
  cases h with
  | nil => contradiction
  | opens h => exact absurd (List.cons.inj hks).1 (by decide)
  | @closes e ks h =>
    obtain rfl := (List.cons.inj hks).2
    exact ⟨e, rfl, h⟩
  | row hl hlone h =>
    obtain ⟨rfl, rfl⟩ := List.cons.inj hks
    have hneat := hl.tidy.neat []
    rw [(detokenize_tag s).2] at hneat
    exact absurd hneat (by decide)

theorem exists_suffix (h : Listed s d (ks ++ ls)) : ∃ e, Listed s e ls := by
  induction ks generalizing d with
  | nil => exact ⟨d, h⟩
  | cons k ks ih =>
    rw [List.cons_append] at h
    cases h with
    | opens h => exact ih h
    | closes h => exact ih h
    | row _ _ h => exact ih h

/-- From a line on that closes no item, other lines may follow what stands above it. -/
theorem replace {m' : Text} {ms' : List Text} (h : Listed s d (ls ++ m :: ms)) (hm : m ≠ closer) (hlow : Low m')
    (hle : s.Le s') (hnew : ∀ e, Listed s e (m :: ms) → Listed s' e (m' :: ms')) : Listed s' d (ls ++ m' :: ms') := by
  have hnext {l : Text} {ls : List Text} (hlone : Lone l → ∃ ks, ls ++ m :: ms = closer :: ks ∧ ∀ k ∈ ks.head?, Low k) :
      Lone l → ∃ ks, ls ++ m' :: ms' = closer :: ks ∧ ∀ k ∈ ks.head?, Low k := fun hl => by
    obtain ⟨ks, hks, hlows⟩ := hlone hl
    cases ls with
    | nil => exact absurd (List.cons.inj hks).1 hm
    | cons k ls =>
      obtain ⟨rfl, rfl⟩ := List.cons.inj hks
      refine ⟨ls ++ m' :: ms', rfl, ?_⟩
      cases ls with
      | nil =>
        rintro k ⟨⟩
        exact hlow
      | cons k ls => exact hlows
  induction ls generalizing d with
  | nil => exact hnew d h
  | cons l ls ih =>
    rw [List.cons_append] at h ⊢
    cases h with
    | opens h => exact opens (ih h)
    | closes h => exact closes (ih h)
    | row hl hlone h => exact row (hl.mono hle) (hnext hlone) (ih h)

end Listed
end Markup.Listing
