import Markup.Proofs.Line.Spun
import Markup.Proofs.Tag.Tidy

/-! # Rows

A row is a line as the line stage leaves it to the block rules: its tags nest, and unless a token stands at its start it
may be given to the line stage again. Rows are made from rows by taking marks and white space off their front, and by
putting a token there. -/
namespace Markup.Line
open Text (lines)
variable {s s' : Store} {t l u v w out : Text} {n k : Nat}

theorem emphasis_quiet_newline : emphasis.Quiet (u ++ '\n' :: v) ↔ emphasis.Quiet u ∧ emphasis.Quiet v := by
  have hseam : emphasisMatcher.Seam u v := (emphasisScanner_seam u v).matcher .never
  rw [emphasis, Rule.quiet_pattern_iff, Rule.quiet_pattern_iff, Rule.quiet_pattern_iff, hseam]
  rw [Option.or_eq_none_iff, Option.map_eq_none_iff, Option.map_eq_none_iff]

theorem emphasis_quiet_lines (h : emphasis.Quiet t) : ∀ l ∈ lines t, emphasis.Quiet l := by
  rw [← Text.joinLines_lines t] at h
  generalize lines t = ls at h
  induction ls with
  | nil => exact fun l hl => absurd hl List.not_mem_nil
  | cons l ls ih =>
    cases ls with
    | nil =>
      rw [Text.joinLines_singleton] at h
      exact List.forall_mem_singleton.2 h
    | cons m ls =>
      rw [Text.joinLines_cons_cons, emphasis_quiet_newline] at h
      exact List.forall_mem_cons.2 ⟨h.1, ih h.2⟩

/-- At the start of a text emphasis is found like behind any character that is part of no name. -/
theorem emphasis_quiet_behind (hu : u.getLast?.any isNameChar = false) (h : emphasis.Quiet (u ++ v)) :
    emphasis.Quiet v := by
  have hsearch {t : Text} : emphasis.Quiet t ↔ emphasisScanner.search [] t = none := Rule.quiet_pattern_iff
  rw [hsearch, Scanner.search_eq_none_iff] at h ⊢
  intro x y hxy
  have hhere := h (u ++ x) y (by rw [hxy, List.append_assoc])
  rw [List.append_nil, List.head?_reverse] at hhere ⊢
  rcases List.eq_nil_or_concat' x with rfl | ⟨x, c, rfl⟩
  · have hwith (mark : Text) : emphasisWith u.getLast? y mark = emphasisWith none y mark := by
      rw [emphasisWith, emphasisWith, hu]
      rfl
    rw [List.append_nil, emphasisScanner_eq, funext hwith] at hhere
    rw [List.getLast?_nil, emphasisScanner_eq]
    exact hhere
  · rw [← List.append_assoc, List.getLast?_concat] at hhere
    rw [List.getLast?_concat]
    exact hhere

namespace Spun

theorem nil (s : Store) : Spun s [] where
  woven := ⟨[], trivial, rfl, Script.clean_nil, known_nil, rfl⟩
  orderly := by
    refine .of_line ⟨fun harrow => ?_, fun u v huv => ?_⟩ List.not_mem_nil
    · exact absurd (List.infix_nil.1 harrow) (by decide)
    · exact absurd (huv ▸ List.mem_append_right u List.mem_cons_self) List.not_mem_nil
  quiet := emphasis_quiet List.not_mem_nil List.not_mem_nil

theorem mono (h : Spun s t) (hle : s.Le s') : Spun s' t := ⟨h.woven.mono hle, h.orderly, h.quiet⟩

theorem of_mem_lines (h : Spun s t) (hl : l ∈ lines t) : Spun s l where
  woven := h.woven.of_mem_lines hl
  orderly := .of_line (h.orderly l hl) (Text.not_mem_of_mem_lines hl)
  quiet := emphasis_quiet_lines h.quiet l hl

theorem drop_front (h : Spun s (w ++ v)) (hw : ∀ c ∈ ";<\n".toList, c ∉ w) (hlast : w.getLast?.any isNameChar = false) :
    Spun s v where
  woven := h.woven.drop_front (hw ';' (by decide)) (hw '<' (by decide))
  orderly := by
    intro l hl
    have hlines := Text.lines_append_of_not_mem (hw '\n' (by decide)) v
    obtain ⟨ls, hls⟩ := Text.exists_lines_eq_line_cons v
    have horderly := h.orderly
    rw [OrderlyLines, hlines, hls, List.tail_cons, List.forall_mem_cons] at horderly
    rw [hls, List.mem_cons] at hl
    rcases hl with rfl | hl
    · exact horderly.1.slice (List.suffix_append w _).isInfix
    · exact horderly.2 l hl
  quiet := emphasis_quiet_behind hlast h.quiet

end Spun

theorem isNameChar_of_isSpace {c : Char} (h : isSpace c = true) : isNameChar c = false := by
  by_contra hname
  rw [Bool.not_eq_false, isNameChar, Char.isAlphanum, Bool.or_eq_true, Bool.or_eq_true, beq_iff_eq] at hname
  rcases hname with (hname | hname) | rfl
  · simp [isSpace_of_isAlpha hname] at h
  · simp [isSpace_of_isDigit hname] at h
  · exact absurd h (by decide)

structure Row (s : Store) (l : Text) : Prop where
  tidy : Tidy s l
  trimmed : Trimmed l
  flush : Flush l
  spun : Token.leads l = true ∨ Spun s l

def Rows (s : Store) (t : Text) : Prop := ∀ l ∈ lines t, Row s l

theorem head?_of_leads (h : Token.leads l = true) : l.head? = some ';' := by
  rw [Token.leads] at h
  split at h
  · contradiction
  · next rest hrest =>
    rw [Token.eq_append_of_isPrefixOf? hrest]
    rfl

namespace Row

theorem of_spun (h : Spun s l) (ht : Trimmed l) (hf : Flush l) : Row s l :=
  ⟨⟨h.woven.sound, h.woven.neat⟩, ht, hf, .inr h⟩

theorem mono (h : Row s l) (hle : s.Le s') : Row s' l :=
  ⟨h.tidy.mono hle, h.trimmed, h.flush, h.spun.imp_right fun h => h.mono hle⟩

theorem nil (s : Store) : Row s [] :=
  of_spun (.nil s) rfl fun u v huv => absurd huv (by simp)

theorem token_append (hk : Linked s s (k, k)) (hsealed : s.Sealed k) (h : Row s l) : Row s (Token.ofId k ++ l) where
  tidy := .token_append hk hsealed h.tidy
  trimmed := by
    cases l with
    | nil =>
      rw [Trimmed, List.append_nil, Token.ofId, List.getLast?_concat]
      rfl
    | cons c l =>
      rw [Trimmed, List.getLast?_append_of_ne_nil _ (List.cons_ne_nil c l)]
      exact h.trimmed
  flush := by
    intro u v huv hne
    obtain ⟨d, u, rfl⟩ := List.exists_cons_of_ne_nil hne
    have hhead := congrArg List.head? huv
    rw [List.head?_append_of_ne_nil _ (Token.ofId_ne_nil k), Token.head?_ofId] at hhead
    obtain rfl := Option.some.inj hhead
    exact ⟨';', List.mem_cons_self, rfl⟩
  spun := .inl (Token.leads_ofId k l)

theorem token (hk : Linked s s (k, k)) (hsealed : s.Sealed k) : Row s (Token.ofId k) := by
  have h := (nil s).token_append hk hsealed
  rwa [List.append_nil] at h

/-- Without a token at its start a row was left by the line stage. -/
theorem spun_of_head (h : Row s l) (hhead : l.head? ≠ some ';') : Spun s l :=
  h.spun.resolve_left fun hleads => hhead (head?_of_leads hleads)

theorem drop_front (h : Row s (w ++ l)) (hhead : (w ++ l).head? ≠ some ';') (hw : ∀ c ∈ ";<\n".toList, c ∉ w)
    (hlast : w.getLast?.any isNameChar = false) (hf : Flush l) : Row s l := by
  refine .of_spun ((h.spun_of_head hhead).drop_front hw hlast) ?_ hf
  have htrim := h.trimmed
  cases l with
  | nil => rfl
  | cons c l => rwa [Trimmed, List.getLast?_append_of_ne_nil _ (List.cons_ne_nil c l)] at htrim

theorem drop_space (h : Row s (w ++ l)) (hw : ∀ c ∈ w, isIndent c = true) : Row s l := by
  rcases List.eq_nil_or_concat' w with rfl | ⟨w, c, rfl⟩
  · exact h
  have hmem {d : Char} (hd : isIndent d = false) : d ∉ w ++ [c] := fun hmem => by simp [hw d hmem] at hd
  refine h.drop_front (fun hhead => ?_) ?_ ?_ fun u v huv hne => ?_
  · rw [List.head?_append_of_ne_nil _ (List.append_ne_nil_of_right_ne_nil w (List.cons_ne_nil c []))] at hhead
    exact hmem (d := ';') (by decide) (List.mem_of_mem_head? hhead)
  · have hsigns : ∀ d ∈ ";<\n".toList, isIndent d = false := by decide
    exact fun d hd => hmem (hsigns d hd)
  · rw [List.getLast?_concat]
    exact isNameChar_of_isSpace (isSpace_of_isIndent (hw c (by simp)))
  · obtain ⟨d, hd, hspace⟩ := h.flush (w ++ [c] ++ u) v (by rw [huv, List.append_assoc (w ++ [c])]) (by simp)
    rw [List.mem_append] at hd
    refine ⟨d, hd.resolve_left fun hd => ?_, hspace⟩
    simp [isSpace_of_isIndent (hw d hd)] at hspace

end Row

namespace Rows

theorem tidy (h : Rows s t) : Tidy s t := .of_lines fun l hl => (h l hl).tidy

theorem stripIndent (h : Rows s t) {indent : Text} (hi : ∀ c ∈ indent, isIndent c = true) :
    Rows s (Text.stripIndent indent t) := by
  have hstrip : ∀ l ∈ (lines t).map fun l => (indent.isPrefixOf? l).getD l, Row s l ∧ '\n' ∉ l := by
    intro l hl
    obtain ⟨l, hmem, rfl⟩ := List.mem_map.1 hl
    have hrow := h l hmem
    have hline := Text.not_mem_of_mem_lines hmem
    cases hp : indent.isPrefixOf? l with
    | none => exact ⟨hrow, hline⟩
    | some v =>
      obtain rfl := Token.eq_append_of_isPrefixOf? hp
      exact ⟨hrow.drop_space hi, fun hmem => hline (List.mem_append_right indent hmem)⟩
  have hne : (lines t).map (fun l => (indent.isPrefixOf? l).getD l) ≠ [] := by simp [Text.lines_ne_nil]
  rw [Rows, Text.stripIndent, Text.lines_joinLines hne fun l hl => (hstrip l hl).2]
  exact fun l hl => (hstrip l hl).1

end Rows

/-- What the stage makes of lines without white space at their ends has none there either. -/
theorem lines_of_run (he : dialect.run n .line t s = some (out, s')) (ht : ∀ l ∈ lines t, Trimmed l ∧ Flush l) :
    ∀ l ∈ lines out, Trimmed l ∧ Flush l :=
  (Grammar.runs_iff.1 ⟨n, he⟩).keep
    (rules_spare_lines fun _ _ _ _ hd h => ⟨h.1.dress hd, h.2.dress hd⟩) ht

theorem rows_of_spun (h : Spun s t) (ht : ∀ l ∈ lines t, Trimmed l ∧ Flush l) : Rows s t := fun l hl =>
  .of_spun (h.of_mem_lines hl) (ht l hl).1 (ht l hl).2

theorem line_of_run (he : dialect.run n .line t s = some (out, s')) (ht : '\n' ∉ t) : '\n' ∉ out :=
  (Grammar.runs_iff.1 ⟨n, he⟩).keep rules_spare_line ht

end Markup.Line
