import Markup.Proofs.Listing.Continued

/-! # Entries of bulleted lists

An entry is a bullet and a content, indented by two blanks for each item around it. The item scanner takes an entry
that is not indented together with the indented lines below it. -/
namespace Markup.Listing
open Pattern
open Text (joinLines startLines joinLines_cons)
variable {prev : Option Char} {mark space c l t : Text} {ls others : List Text}

/-- A content under so many items. -/
def entry (depth : Nat) (c : Text) : Text := List.replicate (2 * depth) ' ' ++ '*' :: ' ' :: c

theorem entry_zero (c : Text) : entry 0 c = '*' :: ' ' :: c := rfl

/-- A line of a bulleted list. -/
def IsEntry (l : Text) : Prop := ∃ depth c, Flush c ∧ l = entry depth c

theorem newline_not_mem_entry (hc : Flush c) (depth : Nat) : '\n' ∉ entry depth c := by
  simp [entry, hc.line]

/-- The lines under an item. -/
def indented (ls : List Text) : List Text := ls.map ("  ".toList ++ ·)

/-- Nothing, or an entry that is not indented. -/
def Next (ls : List Text) : Prop := ∀ l ∈ ls.head?, ∃ c, l = entry 0 c

theorem continuation?_of_flush (h : ∀ l ∈ others.head?, l.head?.all (!isIndent ·) = true) :
    continuation? (startLines others) = none := by
  cases others with
  | nil => rfl
  | cons l ls =>
    have hstart : startLines (l :: ls) = '\n' :: (l ++ startLines ls) := rfl
    have hindent : Text.indent (l ++ startLines ls) = [] := by
      cases l with
      | nil => cases ls <;> rfl
      | cons a l =>
        have ha : ¬ isIndent a = true := by simpa using h _ rfl
        rw [Text.indent, List.cons_append, List.takeWhile_cons_of_neg ha]
    rw [hstart, continuation?]
    simp only [hindent]
    rfl

theorem isIndent_eq_false_of_next (h : Next others) : ∀ l ∈ others.head?, l.head?.all (!isIndent ·) = true := by
  intro l hl
  obtain ⟨c, rfl⟩ := h l hl
  rfl

theorem isPrefixOf_of_next (h : Next others) : ∀ l ∈ others.head?, "  ".toList.isPrefixOf l = false := by
  intro l hl
  obtain ⟨c, rfl⟩ := h l hl
  rfl

theorem itemScanner_of_line (hm : IsMark mark) (hspace : space ≠ [] ∧ ∀ b ∈ space, isSpace b = true) (hc : Flush c)
    (hothers : ∀ l ∈ others.head?, l.head?.all (!isIndent ·) = true) (hprev : prev.all (· == '\n') = true) :
    itemScanner prev (joinLines ((mark ++ space ++ c) :: others)) =
      some ⟨mark ++ space ++ c, startLines others, [some c]⟩ := by
  rw [joinLines_cons, itemScanner, itemHead_scanner hspace hm hprev hc (Text.head?_startLines others)]
  simp only [Option.bind_eq_bind, Option.bind_some, List.head?_cons, Option.join_some, continuation?_of_flush hothers]
  rfl

theorem itemScanner_of_indented {d : Text} (hprev : prev.all (· == '\n') = true) (hc : Flush c)
    (hls : ∀ l ∈ entry 0 d :: ls, '\n' ∉ l) (hothers : ∀ l ∈ others, '\n' ∉ l) (h : Next others) :
    itemScanner prev (joinLines (entry 0 c :: (indented (entry 0 d :: ls) ++ others))) =
      some ⟨joinLines (entry 0 c :: indented (entry 0 d :: ls)), startLines others,
        [some (joinLines (c :: indented (entry 0 d :: ls))), some (startLines (indented (entry 0 d :: ls))),
          some "  ".toList]⟩ := by
  have hhead (ks : List Text) : joinLines (entry 0 c :: ks) = "*".toList ++ ' ' :: joinLines (c :: ks) := by
    rw [joinLines_cons, joinLines_cons]
    rfl
  have hhit := itemScanner_of_continued (by decide) (by decide) rfl hls hothers (isPrefixOf_of_next h)
    (.inl rfl) hprev hc
  rw [← List.cons_append, ← Text.joinLines_append_startLines (List.cons_ne_nil _ _), hhead]
  exact hhit

theorem stripIndent_indented (hc : Flush c) (hls : ∀ l ∈ ls, '\n' ∉ l) :
    Text.stripIndent "  ".toList (joinLines (c :: indented ls)) = joinLines (c :: ls) :=
  stripIndent_indentedBy (by decide) (by decide) hc hls

theorem itemScanner_eq_none_of_head (h : t.head?.all (fun a => a != '*' && !a.isDigit) = true) :
    itemScanner prev t = none := by
  cases hs : itemScanner prev t with
  | none => rfl
  | some hit =>
    obtain ⟨head, content, hh, -, -⟩ := itemScanner_eq_some hs
    obtain ⟨rfl, caps, ht, -⟩ := takes_of_scanner hh
    obtain ⟨-, mark, space, content, -, hm, -, hw, -⟩ := itemHead_takes ht
    rw [hw] at h
    obtain ⟨d, u, rfl, rfl | hd⟩ := IsMark.exists_cons hm
    · exact absurd h (by simp)
    · simp [hd] at h

theorem itemScanner_inLine (a : Char) (t : Text) (ha : a ≠ '\n') : itemScanner (some a) t = none := by
  cases hs : itemScanner (some a) t with
  | none => rfl
  | some hit =>
    obtain ⟨head, content, hh, -, -⟩ := itemScanner_eq_some hs
    obtain ⟨-, caps, ht, -⟩ := takes_of_scanner hh
    exact absurd (itemHead_takes ht).1 (by simpa using ha)

theorem itemScanner_passes (h : l.head?.all (fun a => a != '*' && !a.isDigit) = true) : itemScanner.Passes l := by
  intro prev t ht
  refine itemScanner_eq_none_of_head ?_
  cases l with
  | nil =>
    cases t with
    | nil => rfl
    | cons a t =>
      obtain rfl : a = '\n' := by simpa using ht
      rfl
  | cons a l => exact h

end Markup.Listing
