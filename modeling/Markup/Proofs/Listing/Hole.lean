import Markup.Proofs.Listing.Seam
import Markup.Proofs.Seam.Apart

/-! # Definition lists have no lines of tokens

The first line of a strict definition has a colon, and the lines of its body begin with white space. -/
namespace Markup.Listing.Definition
open Text
variable {t indent : Text}

/-- The line holds white space, or more than a colon. -/
def Full (l : Text) : Prop := ∃ d ∈ l, isSpace d = true ∨ d = ':' ∧ 2 ≤ l.length

theorem Full.spread (l u v : Text) (h : Full l) : Full (u ++ l ++ v) := by
  obtain ⟨d, hd, hfull⟩ := h
  refine ⟨d, by simp [hd], hfull.imp_right fun ⟨hcolon, hlen⟩ => ⟨hcolon, ?_⟩⟩
  rw [List.length_append, List.length_append]
  omega

theorem Full.exists_not_mem {l : Text} (h : Full l) : ∃ d ∈ l, d ∉ Token.alphabet := by
  have halphabet : ∀ c ∈ Token.alphabet, isSpace c = false ∧ c ≠ ':' := by decide
  obtain ⟨d, hd, hfull⟩ := h
  refine ⟨d, hd, fun ha => ?_⟩
  rcases hfull with hspace | ⟨hcolon, -⟩
  · simp [(halphabet d ha).1] at hspace
  · exact (halphabet d ha).2 hcolon

theorem full_of_continues {l : Text} (hl : 2 ≤ indent.length) (hi : ∀ c ∈ indent, isSpace c = true)
    (h : continues indent l = true) : Full l := by
  obtain ⟨c, indent, rfl⟩ := List.exists_cons_of_length_pos (show 0 < indent.length by omega)
  rw [continues, Bool.and_eq_true] at h
  obtain ⟨rest, rfl⟩ := List.isPrefixOf_iff_prefix.1 h.1
  exact ⟨c, by simp, .inl (hi c List.mem_cons_self)⟩

theorem lined_bodyOf (hl : 2 ≤ indent.length) (hi : ∀ c ∈ indent, isSpace c = true) (t : Text) :
    Lined Full (bodyOf indent t).1 := by
  unfold bodyOf
  split
  · next h =>
    exact fun l hmem _ => full_of_continues hl hi (List.dropWhile_eq_nil_iff.1 h l hmem)
  · refine lined_flatMap Full.spread fun l hmem => ?_
    have hbreak := not_mem_of_mem_lines (List.takeWhile_subset _ hmem)
    have hfull := full_of_continues hl hi (List.all_eq_true.1 List.all_takeWhile l hmem)
    exact (lined_of_line hfull hbreak).append Full.spread lined_newline

theorem lines_of_below? {space y gap body rest : Text} (h : below? true space y = some (gap, indent, body, rest)) :
    '\n' ∉ space ∧ (∃ blank, gap = blank ++ ['\n'] ∧ '\n' ∉ blank) ∧ Lined Full body := by
  have hspaces : ∀ c ∈ ((y.takeWhile isSpace).reverse.takeWhile (· != '\n')).reverse, isSpace c = true := fun c hc => by
    have := List.takeWhile_subset _ (List.mem_reverse.1 hc)
    exact List.all_eq_true.1 List.all_takeWhile c (List.mem_reverse.1 this)
  have hgap := starts_gap (y.takeWhile isSpace)
  simp only [below?] at h
  generalize ((y.takeWhile isSpace).reverse.dropWhile (· != '\n')).reverse = gap' at h hgap
  generalize ((y.takeWhile isSpace).reverse.takeWhile (· != '\n')).reverse = indent' at h hspaces
  split at h
  · contradiction
  · next hcond =>
    split at h
    · contradiction
    · next hstrict =>
      simp only [Option.some.injEq, Prod.mk.injEq] at h
      obtain ⟨rfl, rfl, hbody⟩ := h
      simp only [Bool.or_eq_true, List.isEmpty_iff, decide_eq_true_eq, not_or, Nat.not_lt] at hcond
      simp only [Bool.true_and, Bool.or_eq_true, List.contains_iff_mem, bne_iff_ne, not_or, not_not] at hstrict
      have hlined := lined_bodyOf hcond.2 hspaces (indent' ++ y.dropWhile isSpace)
      rw [hbody] at hlined
      refine ⟨hstrict.1, ?_, hlined⟩
      rcases List.eq_nil_or_concat' gap' with hnil | ⟨blank, d, rfl⟩
      · exact absurd hnil hcond.1.2
      · obtain rfl : d = '\n' := by simpa [Starts] using hgap
        refine ⟨blank, rfl, List.count_eq_zero.1 ?_⟩
        have hcount := hstrict.2
        rw [List.count_append, List.count_singleton_self] at hcount
        omega

theorem lined_of_at? {d : Definition} (h : at? true t = some d) : Lined Full d.whole := by
  cases t with
  | nil => contradiction
  | cons c t =>
    rw [at?_eq] at h
    simp only at h
    repeat' split at h
    · contradiction
    · next hc _ =>
      obtain ⟨⟨gap, indent, body, rest⟩, hb, rfl⟩ := Option.map_eq_some_iff.1 h
      obtain ⟨hspace, ⟨blank, rfl, hblank⟩, hbody⟩ := lines_of_below? hb
      have hterm : '\n' ∉ c :: t.takeWhile isTermChar := by
        rw [List.mem_cons, not_or]
        refine ⟨fun hnl => hc (hnl ▸ isSpace_newline), fun hmem => ?_⟩
        have := List.all_eq_true.1 List.all_takeWhile _ hmem
        exact absurd this (by decide)
      have hfirst : Lined Full (c :: t.takeWhile isTermChar ++ (t.dropWhile isTermChar).takeWhile isSpace ++
          ':' :: blank) := by
        refine lined_of_line ⟨':', by simp, .inr ⟨rfl, ?_⟩⟩ (by simp_all)
        simp only [List.length_append, List.length_cons]
        omega
      simpa [whole] using (hfirst.append Full.spread lined_newline).append Full.spread hbody
    · contradiction

theorem lined_listOf (t : Text) : Lined Full ((listOf t).1.flatMap whole) := by
  fun_induction listOf t with
  | case1 t hat => exact lined_nil
  | case2 t d hat ds rest hr ih =>
    rw [hr] at ih
    rw [List.flatMap_cons]
    exact (lined_of_at? hat).append Full.spread ih

end Definition

theorem lined_definitionList {t : Text} {m : Match} (h : definitionListMatcher.find [] t = some m) :
    Text.Lined Definition.Full m.whole := by
  obtain ⟨-, d, ds, rest, hlist, hhit⟩ := definitionListScanner_eq_some (definitionListScanner_lawful.search_hit h).2
  have hlined := Definition.lined_listOf (m.whole ++ m.after)
  rw [hlist] at hlined
  rwa [(Hit.mk.injEq .. |>.mp hhit).1]

end Markup.Listing
