import Markup.Proofs.Line.Seam
import Markup.Proofs.Position.Spans

/-! # Emphasis by positions

The scanner looks for a mark, and from it for the closing mark on the rest of the line, which it slices out first. -/
namespace Markup.Line

/-- Whether an underscore opens emphasis at the position. -/
def opensWord (t : Text) (pos : Nat) : Except PositionError Bool := do
  return !(← t.sliceTo pos).getLast?.any isNameChar

/-- The place of the closing mark right behind a position; a star before the mark belongs to the content. -/
def closeAfter (line mark : Text) (pos : Nat) : Except PositionError (Option Nat) := do
  let rest ← line.sliceFrom pos
  let starred ← pure (['*'].isPrefixOf rest) <&&> mark.isPrefixOf <$> rest.sliceFrom 1
  return if starred then some (pos + 1) else if mark.isPrefixOf rest then some pos else none

/-- The place of the closing mark when the content begins at the position. -/
def closing (t mark : Text) (pos : Nat) : Except PositionError (Option Nat) := do
  let line ← t.slice pos (← t.lineEnd pos)
  match line with
  | [] => return none
  | first :: rest =>
    if isSpace first then return none
    else
      let behind (i : Nat) (c : Char) := if isSpace c then pure none else closeAfter line mark (i + c.utf8Size)
      let stop ← firstFound (Text.findPlace behind first.utf8Size rest) (closeAfter line mark first.utf8Size)
      return stop.map (pos + ·)

/-- Emphasis with a given mark at a position. -/
def emphasisAt (t : Text) (pos : Nat) (mark : Text) : Except PositionError (Option Spans) := do
  let rest ← t.sliceFrom pos
  let opens ← pure (mark.isPrefixOf rest) <&&> if mark = "_".toList then opensWord t pos else pure true
  let content := pos + mark.bytes
  let stop ← if opens then closing t mark content else pure none
  return stop.map fun stop => ⟨⟨pos, stop + mark.bytes⟩, [some ⟨pos, content⟩, some ⟨content, stop⟩]⟩

def emphasisSpans (t : Text) (start : Nat) : Except PositionError (Option Spans) := do
  let here (pos : Nat) (c : Char) :=
    if c = '_' || c = '*' then marks.foldr (fun mark => firstFound (emphasisAt t pos mark)) (pure none) else pure none
  Text.findPlace here start (← t.sliceFrom start)

variable {t u v x y line mark : Text}

theorem opensWord_eq (h : t = u ++ v) : opensWord t u.bytes = .ok (!u.getLast?.any isNameChar) := by
  simp [opensWord, Text.sliceTo_of_eq h rfl]

theorem starred_eq (y mark : Text) :
    (if ['*'].isPrefixOf y then mark.isPrefixOf <$> Text.sliceFrom y 1 else .ok false) =
    (.ok (('*' :: mark).isPrefixOf y) : Except PositionError Bool) := by
  cases y with
  | nil => rfl
  | cons c y =>
    by_cases hc : '*' = c
    · subst hc
      have htail : Text.sliceFrom ('*' :: y) 1 = .ok y := Text.sliceFrom_of_eq (u := ['*']) rfl rfl
      rw [htail]
      rfl
    · simp [List.isPrefixOf, hc]

theorem closeAfter_eq (h : line = x ++ y) :
    closeAfter line mark x.bytes = .ok ((closes? mark y).map (x.bytes + ·)) := by
  rw [closeAfter, Text.sliceFrom_of_eq h rfl, ok_bind, pure_eq, ok_and, starred_eq, ok_bind, closes?]
  repeat' split
  all_goals rfl

/-- Before the closing mark stand stars only, a byte each. -/
theorem bytes_take_of_closes? {k : Nat} (h : closes? mark y = some k) : Text.bytes (y.take k) = k := by
  rw [closes?] at h
  split at h
  · next hp =>
    obtain ⟨rest, rfl⟩ := List.isPrefixOf_iff_prefix.1 hp
    obtain rfl := Option.some.inj h
    rfl
  · split at h
    · obtain rfl := Option.some.inj h
      rfl
    · contradiction

/-- The search for the end of the content takes the same steps by positions. -/
theorem findPlace_content (hy : '\n' ∉ y) (h : line = x ++ y) (n : Nat) :
    Text.findPlace (fun i c => if isSpace c then pure none else closeAfter line mark (i + c.utf8Size)) x.bytes y =
      .ok ((contentFrom mark n y).map fun k => x.bytes + Text.bytes (y.take (k - n))) := by
  induction y generalizing x n with
  | nil => rfl
  | cons c y ih =>
    rw [List.mem_cons, not_or] at hy
    have hsplit : line = (x ++ [c]) ++ y := by rw [h, List.append_assoc]; rfl
    have hpos : x.bytes + c.utf8Size = Text.bytes (x ++ [c]) := by simp
    rw [Text.findPlace, contentFrom, if_neg (Ne.symm hy.1), hpos]
    have hhere : (if isSpace c then pure none else closeAfter line mark (Text.bytes (x ++ [c]))) =
        (.ok ((if isSpace c then none else closes? mark y).map (Text.bytes (x ++ [c]) + ·)) :
          Except PositionError (Option Nat)) := by
      split
      · rfl
      · exact closeAfter_eq hsplit
    rw [hhere, ih hy.2 hsplit (n + 1)]
    cases hk : (if isSpace c then none else closes? mark y) with
    | some k =>
      have hstars : Text.bytes (y.take k) = k := by
        split at hk
        · contradiction
        · exact bytes_take_of_closes? hk
      have htake : n + 1 + k - n = k + 1 := by omega
      rw [Option.map_some, firstFound_some, Option.map_some, htake, List.take_succ_cons, Text.bytes_cons,
        hstars, ← hpos,
        Nat.add_assoc]
    | none =>
      rw [Option.map_none, firstFound_none]
      refine congrArg _ (Option.map_congr fun k hk => ?_)
      obtain ⟨w, rest, -, rfl, rfl⟩ := contentFrom_eq_some hk
      have htake : n + 1 + w.length - n = w.length + 1 := by omega
      have htake' : n + 1 + w.length - (n + 1) = w.length := by omega
      rw [htake, htake', List.take_succ_cons, Text.bytes_cons, ← hpos, Nat.add_assoc]

theorem contentLength_line (hm : '\n' ∉ mark) (v : Text) : contentLength mark v.line = contentLength mark v :=
  Text.eq_of_line (contentLength_newline hm) v

theorem closing_eq (hm : '\n' ∉ mark) (h : t = u ++ v) :
    closing t mark u.bytes = .ok ((contentLength mark v).map fun k => u.bytes + Text.bytes (v.take k)) := by
  have hline : t = u ++ v.line ++ v.afterLine := by rw [List.append_assoc, Text.line_append_afterLine, h]
  have hnl := v.not_mem_line
  have htake (k : Nat) (hk : contentLength mark v.line = some k) : v.take k = v.line.take k := by
    obtain ⟨w, rest, -, rfl, hw⟩ := contentLength_eq_some hk
    conv_lhs => rw [← v.line_append_afterLine, hw]
    rw [hw]
    simp
  rw [closing, Text.lineEnd_of_eq h rfl, ok_bind, Text.slice_of_eq hline rfl (Text.bytes_append _ _), ok_bind,
    ← contentLength_line hm,
    Option.map_congr (g := fun k => u.bytes + Text.bytes (v.line.take k)) fun k hk => by rw [htake k hk]]
  cases hl : v.line with
  | nil => rfl
  | cons c y =>
    rw [hl, List.mem_cons, not_or] at hnl
    rw [contentLength]
    simp only
    split
    · rfl
    · have hsplit : c :: y = [c] ++ y := rfl
      have hpos : c.utf8Size = Text.bytes [c] := rfl
      rw [hpos, findPlace_content hnl.2 hsplit 1, closeAfter_eq hsplit]
      have htake (k : Nat) : (c :: y).take (1 + k) = c :: y.take k := by rw [Nat.add_comm, List.take_succ_cons]
      cases hk : contentFrom mark 1 y with
      | some k =>
        obtain ⟨w, rest, -, rfl, -⟩ := contentFrom_eq_some hk
        simp [htake]
      | none =>
        cases hk : closes? mark y with
        | some k => simp [htake, bytes_take_of_closes? hk]
        | none => rfl

theorem emphasisAt_locates (hm : '\n' ∉ mark) (h : t = u ++ v) :
    Locates (emphasisAt t u.bytes mark) ((emphasisWith u.getLast? v mark).map (Hit.toMatch u.reverse)) := by
  rw [emphasisAt, Text.sliceFrom_of_eq h rfl, ok_bind, pure_eq, ok_and]
  by_cases hp : mark <+: v
  · obtain ⟨inner, rfl⟩ := hp
    have hopens : (if mark = "_".toList then opensWord t u.bytes else pure true) =
        .ok (!(mark = "_".toList && u.getLast?.any isNameChar)) := by
      by_cases hu : mark = "_".toList
      · rw [if_pos hu, opensWord_eq h, decide_eq_true hu, Bool.true_and]
      · rw [if_neg hu, decide_eq_false hu, Bool.false_and]
        rfl
    have hmark : t = (u ++ mark) ++ inner := by rw [h, List.append_assoc]
    have hclose : closing t mark (u.bytes + mark.bytes) =
        .ok ((contentLength mark inner).map fun k => (u ++ mark).bytes + Text.bytes (inner.take k)) := by
      rw [← Text.bytes_append, closing_eq hm hmark]
    rw [if_pos (List.isPrefixOf_iff_prefix.2 (List.prefix_append _ _)), hopens, emphasisWith, Token.isPrefixOf?_append]
    simp only [ok_bind, Option.bind_eq_bind, Option.bind_some]
    cases (decide (mark = "_".toList) && u.getLast?.any isNameChar) with
    | true => exact locates_none
    | false =>
      simp only [Bool.not_false, if_true, hclose, ok_bind]
      cases hn : contentLength mark inner with
      | none => exact locates_none
      | some n =>
        refine Spans.Of.locates ⟨by simp [Nat.add_assoc], .cons (.some ?_) (.cons (.some ?_) .nil)⟩
        · exact Match.covers_inside (x := []) (y := inner.take n ++ mark) (List.append_assoc _ _ _) (by simp) rfl
        · exact Match.covers_inside (x := mark) (y := mark) rfl (by simp) (by simp)
  · have hnone : mark.isPrefixOf? v = none := Option.eq_none_iff_forall_ne_some.2 fun rest hrest =>
      hp ⟨rest, (Token.eq_append_of_isPrefixOf? hrest).symm⟩
    rw [if_neg (mt List.isPrefixOf_iff_prefix.1 hp), emphasisWith, hnone]
    exact locates_none

theorem emphasisSpans_locates (h : t = u ++ v) :
    Locates (emphasisSpans t u.bytes) (emphasisMatcher.find u.reverse v) := by
  have hmarks (u v : Text) (h : t = u ++ v) {ms : List Text} (hms : ∀ mark ∈ ms, '\n' ∉ mark) :
      Locates (ms.foldr (fun mark => firstFound (emphasisAt t u.bytes mark)) (pure none))
        ((ms.findSome? (emphasisWith u.getLast? v)).map (Hit.toMatch u.reverse)) := by
    induction ms with
    | nil => exact locates_none
    | cons mark ms ih =>
      rw [List.forall_mem_cons] at hms
      have hsplit := (emphasisAt_locates hms.1 h).firstFound (ih hms.2)
      rw [List.findSome?_cons]
      cases hw : emphasisWith u.getLast? v mark with
      | none => simpa [hw] using hsplit
      | some hit => simpa [hw] using hsplit
  rw [emphasisSpans, Text.sliceFrom_of_eq h rfl]
  refine Scanner.search_located (fun _ => rfl) (fun u c v h => ?_) h
  by_cases hc : c = '_' ∨ c = '*'
  · rw [emphasisScanner_eq, if_pos (by simpa using hc)]
    exact hmarks u (c :: v) h (by decide)
  · have hnone : emphasisScanner u.getLast? (c :: v) = none := by
      rw [not_or] at hc
      simp [emphasisScanner, hc]
    rw [hnone, if_neg (by simpa using hc)]
    exact locates_none

end Markup.Line
