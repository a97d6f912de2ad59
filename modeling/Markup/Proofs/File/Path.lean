import Markup.File.Path

/-! # The names of written files

The file that is written for a document stands beside it, under a name that ends in the extension. Such a name stays as
it is when the extension is put there again. -/
namespace Markup.Path
variable {p part name : Text} {before qs : List Text}

theorem parts_eq_splitOn (p : Text) : parts p = p.splitOn '/' := by
  induction p with
  | nil => rfl
  | cons c t ih =>
    rw [parts, ih, List.splitOn, List.splitOn, List.splitOnP_cons_eq_if_modifyHead]
    cases hs : t.splitOnP (· == '/') with
    | nil => exact absurd hs (List.splitOnP_ne_nil _ _)
    | cons q qs => by_cases hc : c = '/' <;> simp [hc]

theorem parts_ne_nil (p : Text) : parts p ≠ [] := by
  rw [parts_eq_splitOn]
  exact List.splitOnP_ne_nil _ _

theorem intercalate_parts (p : Text) : ['/'].intercalate (parts p) = p := by
  rw [parts_eq_splitOn, List.intercalate_splitOn]

theorem parts_intercalate (hne : qs ≠ []) (h : ∀ q ∈ qs, '/' ∉ q) : parts (['/'].intercalate qs) = qs := by
  rw [parts_eq_splitOn, List.splitOn_intercalate _ h hne]

theorem slash_not_mem (h : part ∈ parts p) : '/' ∉ part := by
  induction p generalizing part with
  | nil =>
    obtain rfl := List.mem_singleton.1 h
    exact List.not_mem_nil
  | cons c t ih =>
    rw [parts] at h
    split at h
    · rcases List.mem_cons.1 h with rfl | h
      · exact List.not_mem_nil
      · exact ih h
    · next hc =>
      split at h
      · next hs => exact absurd hs (parts_ne_nil t)
      · next q qs hs =>
        rcases List.mem_cons.1 h with rfl | h
        · rw [List.mem_cons, not_or]
          exact ⟨Ne.symm hc, ih (hs ▸ List.mem_cons_self)⟩
        · exact ih (hs ▸ List.mem_cons_of_mem q h)

/-- The part leads on: it neither stays in place nor goes back. -/
structure IsName (part : Text) : Prop where
  moves : isIdle part = false
  ne_dots : part ≠ "..".toList

theorem isName_iff : IsName part ↔ isIdle part = false ∧ part ≠ "..".toList :=
  ⟨fun h => ⟨h.moves, h.ne_dots⟩, fun h => ⟨h.1, h.2⟩⟩

theorem IsName.ne_nil (h : IsName name) : name ≠ [] := by
  rintro rfl
  exact absurd h.moves (by decide)

theorem splitName?_of_parts (h : parts p = before ++ [name]) (hn : IsName name) :
    splitName? p = some (before, name, []) := by
  rw [splitName?, h, List.reverse_append]
  simpa [hn.moves] using hn.ne_dots

def stem (name : Text) : Text := (stemAndExtension name).1

theorem stem_isPrefix (name : Text) : stem name <+: name := by
  rw [stem, stemAndExtension]
  split
  · exact List.prefix_rfl
  · next hs =>
    have hdrop : (name.reverse.dropWhile (· != '.')).reverse <+: name := by
      rw [← List.reverse_suffix, List.reverse_reverse]
      exact List.dropWhile_suffix _
    exact (List.dropLast_prefix _).trans hdrop

theorem stem_ne_nil (hne : name ≠ []) : stem name ≠ [] := by
  rw [stem, stemAndExtension]
  split
  · exact hne
  · next hs => exact hs

theorem stem_append_html {s : Text} (hne : s ≠ []) : stem (s ++ ".html".toList) = s := by
  obtain ⟨c, s, rfl⟩ := List.exists_cons_of_ne_nil hne
  have hlast : (c :: (s ++ ['.'])).dropLast = c :: s := by
    rw [← List.cons_append, List.dropLast_concat]
  simp [stem, stemAndExtension, hlast]

/-- The name of the file that is written for a file of that name. -/
def htmlName (name : Text) : Text := if stem name = ".".toList then "..".toList else stem name ++ ".html".toList

theorem withHtml_of_parts (h : parts p = before ++ [name]) (hn : IsName name) :
    withHtml p = ['/'].intercalate (before ++ [htmlName name]) := by
  rw [withHtml, splitName?_of_parts h hn, htmlName, stem]
  by_cases hs : (stemAndExtension name).1 = ".".toList <;> simp only [hs, and_self, false_and, if_true, if_false]

theorem slash_not_mem_htmlName (h : '/' ∉ name) : '/' ∉ htmlName name := by
  rw [htmlName]
  split
  · decide
  · rw [List.mem_append, not_or]
    exact ⟨fun hm => h ((stem_isPrefix name).subset hm), by decide⟩

theorem parts_withHtml (h : parts p = before ++ [name]) (hn : IsName name) :
    parts (withHtml p) = before ++ [htmlName name] := by
  have hslash : ∀ q ∈ before ++ [name], '/' ∉ q := fun q hq => slash_not_mem (h ▸ hq)
  rw [List.forall_mem_append, List.forall_mem_singleton] at hslash
  rw [withHtml_of_parts h hn, parts_intercalate (by simp)]
  rw [List.forall_mem_append, List.forall_mem_singleton]
  exact ⟨hslash.1, slash_not_mem_htmlName hslash.2⟩

/-- A written name is not changed again, unless it leads back. -/
theorem htmlName_htmlName (hn : IsName name) (h : htmlName name ≠ "..".toList) :
    htmlName (htmlName name) = htmlName name := by
  have hstem : stem name ≠ ".".toList := fun hs => h (if_pos hs)
  have hname : htmlName name = stem name ++ ".html".toList := if_neg hstem
  rw [hname, htmlName, stem_append_html (stem_ne_nil hn.ne_nil), if_neg hstem]

/-- A path whose name is a written one is where its own file is written. -/
theorem withHtml_eq_self (h : parts p = before ++ [htmlName name]) (hn : IsName name) (hp : IsName (htmlName name)) :
    withHtml p = p := by
  rw [withHtml_of_parts h hp, htmlName_htmlName hn hp.ne_dots, ← h, intercalate_parts]

end Markup.Path
