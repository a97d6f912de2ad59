import Markup.Proofs.Pattern.Takes
import Markup.Proofs.Position.Basic
import Markup.Proofs.Run
import Mathlib.Data.List.Chain
import Mathlib.Logic.Relation

/-! # The loop of a pattern rule by positions

A round of the loop searches from a byte position on, and then replaces the match and begins again at the start of the
text, or goes on behind a match that is declined. Each of its slices may be refused. With a lawful matcher none is: the
loop stays at boundaries of the text, a declined match moves it forward, and it ends as `saturate` does. -/
namespace Markup
open Grammar

/-- Where the search goes on after a match between two positions has been declined: behind it, and one character on when
it is empty, which at the end of the text is one byte past the end. -/
def Text.resumeAt (t : Text) (start stop : Nat) : Except PositionError Nat :=
  if start < stop then return stop
  else do
    match ← t.sliceFrom start with
    | [] => return t.bytes + 1
    | c :: _ => return start + c.utf8Size

/-- The search of a round; past the end of the text nothing is searched. -/
def Matcher.searchAt (m : Matcher) (t : Text) (pos : Nat) : Except PositionError (Option Match) :=
  if pos ≤ t.bytes then m.findAt t pos else return none

/-- The program has no replacement for the match, or the match itself. -/
def Grammar.Refuses (g : Grammar) (f : Match → Program (Option Text)) (found : Match) (s s' : Store) : Prop :=
  ∃ reply, g.Evaluates (f found) s reply s' ∧ ∀ new ∈ reply, new = found.whole

/-- Declining what is found at one position takes the search to the next one. -/
def Matcher.Resumes (m : Matcher) (t : Text) (pos next : Nat) : Prop :=
  ∃ found, m.searchAt t pos = .ok (some found) ∧ t.resumeAt found.start found.stop = .ok next

/-- A walk that declines whatever it finds meets the match. -/
def Matcher.Meets (m : Matcher) (t : Text) (pos : Nat) (found : Match) : Prop :=
  ∃ here, Relation.ReflTransGen (m.Resumes t) pos here ∧ m.searchAt t here = .ok (some found)

structure Loop where
  text : Text
  /-- The byte position where the next search begins. -/
  pos : Nat
  store : Store

namespace Loop
variable (g : Grammar) (m : Matcher) (f : Match → Program (Option Text))

inductive Rewrites : Loop → Loop → Prop
  | mk {l : Loop} {found : Match} {new t : Text} {s : Store} (hs : m.searchAt l.text l.pos = .ok (some found))
      (he : g.Evaluates (f found) l.store (some new) s) (hne : new ≠ found.whole)
      (ht : l.text.replaceRange found.start found.stop new = .ok t) : Rewrites l ⟨t, 0, s⟩

inductive Declines : Loop → Loop → Prop
  | mk {l : Loop} {found : Match} {pos : Nat} {s : Store} (hs : m.searchAt l.text l.pos = .ok (some found))
      (he : g.Refuses f found l.store s) (hp : l.text.resumeAt found.start found.stop = .ok pos) :
      Declines l ⟨l.text, pos, s⟩

/-- The loop comes to an end, after so many rewrites. -/
inductive Ends : Loop → Nat → Text → Store → Prop
  | ended {l : Loop} (h : m.searchAt l.text l.pos = .ok none) : Ends l 0 l.text l.store
  | rewrite {l l' : Loop} {n : Nat} {t : Text} {s : Store} (h : Rewrites g m f l l') (next : Ends l' n t s) :
      Ends l (n + 1) t s
  | decline {l l' : Loop} {n : Nat} {t : Text} {s : Store} (h : Declines g m f l l') (next : Ends l' n t s) :
      Ends l n t s

/-- What the loop comes to round after round. -/
def Reaches : Loop → Loop → Prop := Relation.ReflTransGen fun l l' => Rewrites g m f l l' ∨ Declines g m f l l'

/-- No slice of the round is refused, whatever the match is replaced by. -/
structure Safe (l : Loop) : Prop where
  search : ∃ r, m.searchAt l.text l.pos = .ok r
  replace : ∀ found, m.searchAt l.text l.pos = .ok (some found) →
    ∀ new, ∃ t, l.text.replaceRange found.start found.stop new = .ok t
  resume : ∀ found, m.searchAt l.text l.pos = .ok (some found) →
    ∃ pos, l.text.resumeAt found.start found.stop = .ok pos

/-- The next search begins at a boundary, or the loop is over. -/
def Valid (l : Loop) : Prop := l.text.IsBoundary l.pos ∨ l.text.bytes < l.pos

end Loop

variable {t u v : Text} {pos : Nat} {m : Matcher} {found : Match}

theorem Matcher.searchAt_of_eq (m : Matcher) (h : t = u ++ v) (hp : u.bytes = pos) :
    m.searchAt t pos = .ok (m.find u.reverse v) := by
  have hle : pos ≤ t.bytes := by simp [h, ← hp]
  rw [searchAt, if_pos hle, m.findAt_of_eq h hp]

theorem Matcher.searchAt_past (m : Matcher) (h : t.bytes < pos) : m.searchAt t pos = .ok none := if_neg (by omega)

namespace Match

theorem replaceRange_eq (h : found.text = t) (new : Text) :
    t.replaceRange found.start found.stop new = .ok (found.replaceBy new) := by
  rw [replaceBy_eq]
  exact Text.replaceRange_of_eq h.symm rfl (Text.bytes_append _ _) new

theorem resumeAt_eq (h : found.text = t) : t.resumeAt found.start found.stop =
    .ok (match found.resume with | some (behind, _) => behind.bytes | none => t.bytes + 1) := by
  obtain ⟨behind, whole, after, groups⟩ := found
  have hstart : t = behind.reverse ++ (whole ++ after) := by rw [← h, text, before, List.append_assoc]
  rw [Text.resumeAt, stop_eq, start_eq]
  cases whole with
  | cons c w =>
    have hc := c.utf8Size_pos
    rw [if_pos (by rw [Text.bytes_cons]; omega)]
    simp [resume, Text.bytes_reverse]
    omega
  | nil =>
    rw [if_neg (by simp), Text.sliceFrom_of_eq hstart (Text.bytes_reverse behind)]
    cases after with
    | nil => simp [resume]
    | cons c after => simp [resume, Nat.add_comm]

/-- The two halves that the search goes on with are halves of the text, and something lies between the place of the
match and theirs. -/
theorem resume_eq_some {behind ahead : Text} (h : found.resume = some (behind, ahead)) :
    behind.reverse ++ ahead = found.text ∧ found.start < behind.bytes := by
  obtain ⟨b, whole, after, groups⟩ := found
  rw [start_eq]
  cases whole with
  | cons c w =>
    have hc := c.utf8Size_pos
    obtain ⟨rfl, rfl⟩ : (c :: w).reverse ++ b = behind ∧ after = ahead := by simpa [resume] using h
    refine ⟨by simp [text, before], ?_⟩
    rw [Text.bytes_append, Text.bytes_reverse, Text.bytes_cons]
    simp only
    omega
  | nil =>
    cases after with
    | nil => simp [resume] at h
    | cons c after =>
      have hc := c.utf8Size_pos
      obtain ⟨rfl, rfl⟩ : c :: b = behind ∧ after = ahead := by simpa [resume] using h
      refine ⟨by simp [text, before], ?_⟩
      rw [Text.bytes_cons]
      simp only
      omega

end Match

/-- How many places for a match the text has from a position on. -/
def Text.places (t : Text) (pos : Nat) : Nat := ((t.cut? pos).map fun h => h.2.length + 1).getD 0

theorem Text.places_of_eq (h : t = u ++ v) (hp : u.bytes = pos) : t.places pos = v.length + 1 := by
  rw [places, Text.cut?_eq_some_iff.2 ⟨h, hp⟩]
  rfl

theorem Text.places_le (t : Text) (pos : Nat) : t.places pos ≤ t.length + 1 := by
  rw [places]
  cases h : t.cut? pos with
  | none => exact Nat.zero_le _
  | some halves =>
    obtain ⟨rfl, -⟩ := Text.cut?_eq_some_iff.1 h
    simp

namespace Loop
variable {g : Grammar} {f : Match → Program (Option Text)} {l l' : Loop} {n : Nat} {s s' : Store}

/-- What a lawful matcher finds is a match in the text, and not before the position. -/
theorem Valid.match_of_search (hl : l.Valid) (hm : m.Lawful) (hs : m.searchAt l.text l.pos = .ok (some found)) :
    found.text = l.text ∧ l.pos ≤ found.start := by
  rcases hl with hl | hl
  · obtain ⟨u, v, ht, hp⟩ := Text.isBoundary_iff.1 hl
    rw [m.searchAt_of_eq ht hp] at hs
    obtain ⟨htext, b, hb⟩ := hm _ _ _ (Except.ok.inj hs)
    refine ⟨by rw [htext, List.reverse_reverse, ht], ?_⟩
    rw [Match.start_eq, ← hb, Text.bytes_append, Text.bytes_reverse, hp]
    exact Nat.le_add_left _ _
  · rw [m.searchAt_past hl] at hs
    exact nomatch Except.ok.inj hs

theorem Valid.safe (hl : l.Valid) (hm : m.Lawful) : l.Safe m where
  search := by
    rcases hl with hl | hl
    · obtain ⟨u, v, ht, hp⟩ := Text.isBoundary_iff.1 hl
      exact ⟨_, m.searchAt_of_eq ht hp⟩
    · exact ⟨none, m.searchAt_past hl⟩
  replace found hs new := ⟨_, Match.replaceRange_eq (hl.match_of_search hm hs).1 new⟩
  resume found hs := ⟨_, Match.resumeAt_eq (hl.match_of_search hm hs).1⟩

theorem Rewrites.valid (h : Rewrites g m f l l') : l'.Valid := by
  obtain ⟨_, _, _, _⟩ := h
  exact .inl (Text.isBoundary_append [] _)

/-- A declined match takes the loop to a later place of the same text, or past its end. -/
theorem Declines.forward (h : Declines g m f l l') (hl : l.Valid) (hm : m.Lawful) :
    l'.text = l.text ∧ l.pos < l'.pos ∧ l'.Valid ∧ l'.text.places l'.pos < l.text.places l.pos := by
  obtain @⟨found, pos, s, hs, -, hp⟩ := h
  obtain ⟨htext, hle⟩ := hl.match_of_search hm hs
  rw [Match.resumeAt_eq htext, Except.ok.injEq] at hp
  have hin : found.start ≤ l.text.bytes := by
    rw [← htext, Match.text, Text.bytes_append, Text.bytes_append]
    exact Nat.le_add_right_of_le (Nat.le_add_right _ _)
  obtain ⟨u, v, ht, hu⟩ := Text.isBoundary_iff.1 (hl.resolve_right (by omega))
  rw [Text.places_of_eq ht hu]
  cases hr : found.resume with
  | none =>
    obtain rfl : l.text.bytes + 1 = pos := by simpa [hr] using hp
    have hnone : l.text.cut? (l.text.bytes + 1) = none := by
      refine Option.eq_none_iff_forall_ne_some.2 fun halves h => ?_
      have := (Text.isBoundary_iff.2 ⟨_, _, Text.cut?_eq_some_iff.1 h⟩).le
      omega
    exact ⟨rfl, by simp only; omega, .inr (Nat.lt_succ_self _), by simp [Text.places, hnone]⟩
  | some halves =>
    obtain ⟨behind, ahead⟩ := halves
    obtain rfl : behind.bytes = pos := by simpa [hr] using hp
    obtain ⟨hsplit, hlt⟩ := Match.resume_eq_some hr
    rw [htext] at hsplit
    have hb := Text.bytes_reverse behind
    obtain ⟨z, hz⟩ := Text.prefix_of_bytes_le (ht.symm.trans hsplit.symm) (by omega)
    have hv : v = z ++ ahead := by
      rw [← hz, List.append_assoc, ht] at hsplit
      exact (List.append_cancel_left hsplit).symm
    have hne : z ≠ [] := by
      rintro rfl
      rw [List.append_nil] at hz
      rw [← hz] at hb
      omega
    have := List.length_pos_of_ne_nil hne
    refine ⟨rfl, by simp only; omega, .inl (Text.isBoundary_iff.2 ⟨_, _, hsplit.symm, hb⟩), ?_⟩
    rw [Text.places_of_eq hsplit.symm hb, hv, List.length_append]
    omega

theorem Reaches.valid (h : Reaches g m f l l') (hl : l.Valid) (hm : m.Lawful) : l'.Valid := by
  induction h with
  | refl => exact hl
  | tail _ hstep ih =>
    rcases hstep with h | h
    · exact h.valid
    · exact (h.forward ih hm).2.2.1

theorem length_le_places (hm : m.Lawful) {ls : List Loop} (hl : l.Valid) (h : (l :: ls).IsChain (Declines g m f)) :
    ls.length ≤ l.text.places l.pos := by
  induction ls generalizing l with
  | nil => exact Nat.zero_le _
  | cons l' ls ih =>
    obtain ⟨hdecl, hrest⟩ := List.isChain_cons_cons.1 h
    obtain ⟨-, -, hv, hlt⟩ := hdecl.forward hl hm
    exact (Nat.succ_le_succ (ih hv hrest)).trans hlt

theorem ends_of_saturate (hm : m.Lawful) {k : Nat} {behind ahead out : Text}
    (h : saturate (g.run n) m f k behind ahead s = some (out, s')) :
    ∃ r, Ends g m f ⟨behind.reverse ++ ahead, behind.bytes, s⟩ r out s' := by
  induction k generalizing behind ahead s with
  | zero => simp [saturate] at h
  | succ k ih =>
    have hsearch := m.searchAt_of_eq (u := behind.reverse) (v := ahead) rfl (Text.bytes_reverse behind)
    rw [List.reverse_reverse] at hsearch
    rw [saturate] at h
    cases hf : m.find behind ahead with
    | none =>
      obtain ⟨rfl, rfl⟩ := by simpa [hf] using h
      exact ⟨0, .ended (by rw [hsearch, hf])⟩
    | some found =>
      obtain ⟨htext, -⟩ := hm _ _ _ hf
      rw [hf] at hsearch
      simp only [hf] at h
      cases he : (f found).eval (g.run n) s with
      | none => simp [he] at h
      | some r =>
        obtain ⟨reply, mid⟩ := r
        simp only [he] at h
        cases hr : reply.filter (· ≠ found.whole) with
        | some new =>
          obtain ⟨rfl, hne⟩ := Option.filter_eq_some_iff.1 hr
          simp only [hr] at h
          obtain ⟨r, hend⟩ := ih h
          have hstep : Rewrites g m f ⟨behind.reverse ++ ahead, behind.bytes, s⟩ ⟨found.replaceBy new, 0, mid⟩ :=
            .mk hsearch ⟨n, he⟩ (of_decide_eq_true hne) (Match.replaceRange_eq htext new)
          exact ⟨r + 1, .rewrite hstep hend⟩
        | none =>
          have hrefuse : g.Refuses f found s mid := ⟨reply, ⟨n, he⟩, by simpa using hr⟩
          have hresume := Match.resumeAt_eq htext
          simp only [hr] at h
          cases hp : found.resume with
          | some halves =>
            simp only [hp] at h hresume
            obtain ⟨r, hend⟩ := ih h
            rw [(Match.resume_eq_some hp).1, htext] at hend
            exact ⟨r, .decline (.mk hsearch hrefuse hresume) hend⟩
          | none =>
            simp only [hp] at h hresume
            obtain ⟨rfl, rfl⟩ := by simpa using h
            rw [htext]
            exact ⟨0, .decline (.mk hsearch hrefuse hresume) (.ended (m.searchAt_past (Nat.lt_succ_self _)))⟩

section
variable {behind ahead : Text} (hm : m.Lawful) (ht : l.text = behind.reverse ++ ahead) (hp : behind.bytes = l.pos)
include ht hp

theorem searchAt_halves : m.searchAt l.text l.pos = .ok (m.find behind ahead) := by
  rw [m.searchAt_of_eq ht (by rw [Text.bytes_reverse, hp]), List.reverse_reverse]

include hm

theorem Rewrites.exists_find (h : Rewrites g m f l l') : ∃ found new mid, m.find behind ahead = some found ∧
    g.Evaluates (f found) l.store (some new) mid ∧ new ≠ found.whole ∧ l' = ⟨found.replaceBy new, 0, mid⟩ := by
  cases h with
  | @mk found new t mid hs he hne hreplace =>
    rw [searchAt_halves ht hp, Except.ok.injEq] at hs
    rw [ht, Match.replaceRange_eq (hm _ _ _ hs).1, Except.ok.injEq] at hreplace
    exact ⟨found, new, mid, hs, he, hne, by rw [hreplace]⟩

theorem Declines.exists_find (h : Declines g m f l l') : ∃ found mid, m.find behind ahead = some found ∧
    found.text = l.text ∧ g.Refuses f found l.store mid ∧
    l' = ⟨l.text, match found.resume with | some (b, _) => b.bytes | none => l.text.bytes + 1, mid⟩ := by
  cases h with
  | @mk found pos mid hs hr hresume =>
    rw [searchAt_halves ht hp, Except.ok.injEq] at hs
    have htext := (hm _ _ _ hs).1.trans ht.symm
    rw [Match.resumeAt_eq htext, Except.ok.injEq] at hresume
    exact ⟨found, mid, hs, htext, hr, by rw [hresume]⟩

end

theorem Ends.of_past {r : Nat} {out : Text} (h : Ends g m f l r out s') (hp : l.text.bytes < l.pos) :
    r = 0 ∧ out = l.text ∧ s' = l.store := by
  have hnone := m.searchAt_past hp
  cases h with
  | ended => exact ⟨rfl, rfl, rfl⟩
  | rewrite h _ =>
    obtain ⟨hs, -⟩ := h
    exact nomatch Except.ok.inj (hnone.symm.trans hs)
  | decline h _ =>
    obtain ⟨hs, -⟩ := h
    exact nomatch Except.ok.inj (hnone.symm.trans hs)

theorem Ends.exists_saturate {r : Nat} {out : Text} (h : Ends g m f l r out s') (hm : m.Lawful) {u v : Text}
    (ht : l.text = u.reverse ++ v) (hp : u.bytes = l.pos) :
    ∃ k, saturate (g.run k) m f k u v l.store = some (out, s') := by
  have hfuel {found : Match} {reply : Option Text} {s mid : Store} (he : g.Evaluates (f found) s reply mid) (k : Nat) :
      ∃ n, k ≤ n ∧ (f found).eval (g.run (n + 1)) s = some (reply, mid) := by
    obtain ⟨n, hn⟩ := he
    exact ⟨max n k, Nat.le_max_right n k, Program.eval_mono (g.run_mono (by omega)) _ hn⟩
  induction h generalizing u v with
  | ended h =>
    rw [searchAt_halves ht hp, Except.ok.injEq] at h
    exact ⟨1, by simp [saturate, h, ht]⟩
  | rewrite h _ ih =>
    obtain ⟨found, new, mid, hs, he, hne, rfl⟩ := h.exists_find hm ht hp
    obtain ⟨k, hk⟩ := ih (u := []) rfl rfl
    obtain ⟨n, hn, heval⟩ := hfuel he k
    refine ⟨n + 1, ?_⟩
    have hkeep : (some new).filter (· ≠ found.whole) = some new := by simp [Option.filter, hne]
    rw [saturate, hs]
    simp only [heval, hkeep]
    exact saturate_mono (g.run_mono (by omega)) hn hk
  | decline h next ih =>
    obtain ⟨found, mid, hs, htext, ⟨reply, he, hrefuse⟩, rfl⟩ := h.exists_find hm ht hp
    have hkeep : reply.filter (· ≠ found.whole) = none := by simpa using hrefuse
    cases hr : found.resume with
    | some halves =>
      obtain ⟨b, a⟩ := halves
      have hsplit := (Match.resume_eq_some hr).1.trans htext
      obtain ⟨k, hk⟩ := ih hsplit.symm (by rw [hr])
      obtain ⟨n, hn, heval⟩ := hfuel he k
      refine ⟨n + 1, ?_⟩
      rw [saturate, hs]
      simp only [heval, hkeep, hr]
      exact saturate_mono (g.run_mono (by omega)) hn hk
    | none =>
      obtain ⟨-, rfl, rfl⟩ := next.of_past (by simp [hr])
      obtain ⟨n, -, heval⟩ := hfuel he 0
      refine ⟨n + 1, ?_⟩
      rw [saturate, hs]
      simp only [heval, hkeep, hr, htext]

/-- Some number of rewrites brings the loop to the end that the rule comes to. -/
theorem saturates_iff_ends (hm : m.Lawful) {t out : Text} :
    g.Saturates m f t s out s' ↔ ∃ r, Ends g m f ⟨t, 0, s⟩ r out s' := by
  constructor
  · rintro ⟨n, h⟩
    exact ends_of_saturate hm h
  · rintro ⟨r, h⟩
    exact h.exists_saturate hm (u := []) rfl rfl

theorem ends_of_refuses (hm : m.Lawful) (hl : l.Valid)
    (h : ∀ found, m.Meets l.text l.pos found → ∀ s, ∃ s', g.Refuses f found s s') :
    ∃ s', Ends g m f l 0 l.text s' := by
  induction hn : l.text.places l.pos using Nat.strongRecOn generalizing l with
  | ind n ih =>
    have hsafe := hl.safe hm
    obtain ⟨r, hr⟩ := hsafe.search
    cases r with
    | none => exact ⟨l.store, .ended hr⟩
    | some found =>
      obtain ⟨mid, hrefuse⟩ := h found ⟨l.pos, .refl, hr⟩ l.store
      obtain ⟨pos, hpos⟩ := hsafe.resume found hr
      have hstep : Declines g m f l ⟨l.text, pos, mid⟩ := .mk hr hrefuse hpos
      obtain ⟨-, -, hvalid, hlt⟩ := hstep.forward hl hm
      have hnext : ∀ found, m.Meets l.text pos found → ∀ s, ∃ s', g.Refuses f found s s' :=
        fun other ⟨here, hwalk, hs⟩ => h other ⟨here, .head ⟨found, hr, hpos⟩ hwalk, hs⟩
      obtain ⟨s', hend⟩ := ih _ (hn ▸ hlt) hvalid hnext rfl
      exact ⟨s', .decline hstep hend⟩

/-- With a lawful matcher the loop searches at boundaries of its text only and no slice of it is refused. Declined
matches take it forward, one place after the other at most; where all are declined it ends with the text as it was. And
it ends as the rule does. -/
theorem loop_stays_in_text (hm : m.Lawful) (g : Grammar) (f : Match → Program (Option Text)) (t : Text) (s : Store) :
    (∀ l, Reaches g m f ⟨t, 0, s⟩ l →
      (l.pos ≤ l.text.bytes → l.text.IsBoundary l.pos) ∧ l.Safe m ∧
      (∀ l', Declines g m f l l' → l'.text = l.text ∧ l.pos < l'.pos) ∧
      ∀ ls, (l :: ls).IsChain (Declines g m f) → ls.length ≤ l.text.length + 1) ∧
    ((∀ pos found, m.findAt t pos = .ok (some found) → ∀ s, ∃ s', g.Refuses f found s s') →
      ∃ s', Ends g m f ⟨t, 0, s⟩ 0 t s') ∧
    ∀ out s', g.Saturates m f t s out s' ↔ ∃ n, Ends g m f ⟨t, 0, s⟩ n out s' := by
  have hstart : Valid ⟨t, 0, s⟩ := .inl (Text.isBoundary_append [] t)
  refine ⟨fun l hreach => ?_, fun hdecline => ?_, fun out s' => saturates_iff_ends hm⟩
  · have hl := hreach.valid hstart hm
    refine ⟨fun hle => hl.resolve_right (by omega), hl.safe hm, fun l' h => ?_, fun ls hls => ?_⟩
    · obtain ⟨htext, hlt, -⟩ := h.forward hl hm
      exact ⟨htext, hlt⟩
    · exact (length_le_places hm hl hls).trans (l.text.places_le l.pos)
  · refine ends_of_refuses hm hstart fun found ⟨here, _, hs⟩ => hdecline here found ?_
    rw [Matcher.searchAt] at hs
    split at hs
    · exact hs
    · exact nomatch Except.ok.inj hs

/-- Empty matches on both sides of a wide character, of which each one mints a token and is declined. -/
theorem minting_loop_declines : (Pattern.atLeast 0 (· == 'x')).matcher.Lawful ∧
    ∃ s', Ends Grammar.empty (Pattern.atLeast 0 (· == 'x')).matcher
      (fun found => do let _ ← Program.hide found.whole; return none) ⟨"xé".toList, 0, .empty⟩ 0 "xé".toList s' := by
  have hm := (Pattern.atLeast 0 (· == 'x')).matcher_lawful
  refine ⟨hm, (loop_stays_in_text hm _ _ _ _).2.1 fun _ found _ s => ⟨(s.mint found.whole).2, none, ?_, by simp⟩⟩
  exact evaluates_hide_bind.2 (evaluates_pure none _)

end Loop
end Markup
