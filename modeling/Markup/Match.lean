import Markup.Text.Position

/-! # Matches and matchers

A match is a way to write the scanned text as `before ++ whole ++ after`, with the captured groups as texts of their
own. A matcher looks for the leftmost match in the part of a text after a cut, and may look at the part before it.
What lies behind a cut is kept with its last character first, so a search moves on without copying. -/
namespace Markup

structure Match where
  behind : Text
  whole : Text
  after : Text
  groups : List (Option Text)
deriving DecidableEq, Repr

namespace Match

def before (m : Match) : Text := m.behind.reverse

def text (m : Match) : Text := m.before ++ m.whole ++ m.after

/-- Group 0 is the whole match; a group that took no part is `none`. -/
def group (m : Match) : Nat → Option Text
  | 0 => some m.whole
  | i + 1 => m.groups[i]?.join

def start (m : Match) : Nat := m.before.bytes

def stop (m : Match) : Nat := m.before.bytes + m.whole.bytes

theorem stop_eq (m : Match) : m.stop = m.start + m.whole.bytes := rfl

def replaceBy (m : Match) (new : Text) : Text := m.behind.reverseAux (new ++ m.after)

theorem replaceBy_eq (m : Match) (new : Text) : m.replaceBy new = m.before ++ new ++ m.after := by
  simp [replaceBy, before, List.reverseAux_eq]

@[simp] theorem replaceBy_whole (m : Match) : m.replaceBy m.whole = m.text := replaceBy_eq m m.whole

end Match

structure Hit where
  whole : Text
  rest : Text
  groups : List (Option Text)
deriving DecidableEq, Repr

/-- What stands at one place: the character before it and the text from it on decide. -/
abbrev Scanner := Option Char → Text → Option Hit

namespace Scanner

/-- The first place of the text, from left to right, where the scanner hits. -/
def search (s : Scanner) (behind : Text) : Text → Option Match
  | [] => (s behind.head? []).map fun h => ⟨behind, h.whole, h.rest, h.groups⟩
  | c :: t =>
    match s behind.head? (c :: t) with
    | some h => some ⟨behind, h.whole, h.rest, h.groups⟩
    | none => search s (c :: behind) t

/-- The same search, with a quick look at every place before the scanner is asked there. -/
def searchWhere (may : Text → Bool) (s : Scanner) (behind : Text) : Text → Option Match
  | [] => s.search behind []
  | c :: t =>
    match if may (c :: t) then s behind.head? (c :: t) else none with
    | some h => some ⟨behind, h.whole, h.rest, h.groups⟩
    | none => searchWhere may s (c :: behind) t

theorem searchWhere_eq {may : Text → Bool} {s : Scanner} (h : ∀ prev t, may t = false → s prev t = none)
    (behind t : Text) : s.searchWhere may behind t = s.search behind t := by
  induction t generalizing behind with
  | nil => rfl
  | cons c t ih =>
    rw [searchWhere, search]
    cases hm : may (c :: t) with
    | true => rw [if_pos rfl, ih]
    | false => rw [if_neg Bool.false_ne_true, h _ _ hm, ih]

def Lawful (s : Scanner) : Prop := ∀ prev t h, s prev t = some h → h.whole ++ h.rest = t

theorem Lawful.search {s : Scanner} (hs : s.Lawful) {behind t : Text} {m : Match} (h : s.search behind t = some m) :
    m.text = behind.reverse ++ t ∧ behind <:+ m.behind := by
  induction t generalizing behind with
  | nil =>
    obtain ⟨hit, hh, rfl⟩ := Option.map_eq_some_iff.1 h
    simp [Match.text, Match.before, hs _ _ _ hh]
  | cons c t ih =>
    rw [Scanner.search] at h
    split at h
    · next hit hh =>
      obtain rfl := Option.some.inj h
      simp [Match.text, Match.before, hs _ _ _ hh]
    · have := ih h
      rw [List.reverse_cons, List.append_assoc] at this
      exact ⟨this.1, (List.suffix_cons c behind).trans this.2⟩

end Scanner

/-- How a matcher takes a byte position that is no cut of the text. It refuses the position (`never`), or it goes on to
the next cut, and then it refuses what lies more than one byte past the end (`near`) or finds nothing
there (`always`). -/
inductive Rounding where
  | never
  | near
  | always
deriving DecidableEq

structure Matcher where
  find : (behind ahead : Text) → Option Match
  rounding : Rounding := .near

namespace Matcher

def ofScanner (s : Scanner) (rounding : Rounding := .near) : Matcher where
  find := s.search
  rounding := rounding

def ofScannerWhere (may : Text → Bool) (s : Scanner) (rounding : Rounding := .near) : Matcher where
  find := s.searchWhere may
  rounding := rounding

theorem ofScannerWhere_eq {may : Text → Bool} {s : Scanner} (h : ∀ prev t, may t = false → s prev t = none)
    (r : Rounding) : ofScannerWhere may s r = ofScanner s r := by
  rw [ofScannerWhere, ofScanner, funext fun behind => funext (Scanner.searchWhere_eq h behind)]

def findAt (m : Matcher) (text : Text) (pos : Nat) : Except PositionError (Option Match) :=
  match m.rounding with
  | .never => do
    let (seen, ahead) ← text.cut pos
    return m.find seen.reverse ahead
  | .near =>
    match text.cutUp? pos with
    | some (seen, ahead) => return m.find seen.reverse ahead
    | none => if pos = text.bytes + 1 then return none else throw (.noBoundary pos)
  | .always =>
    match text.cutUp? pos with
    | some (seen, ahead) => return m.find seen.reverse ahead
    | none => return none

/-- A lawful matcher cuts the text it was given, and only after the first part. -/
def Lawful (m : Matcher) : Prop :=
  ∀ behind ahead f, m.find behind ahead = some f → f.text = behind.reverse ++ ahead ∧ behind <:+ f.behind

theorem lawful_ofScanner {s : Scanner} (hs : s.Lawful) (r : Rounding) : (ofScanner s r).Lawful :=
  fun _ _ _ h => hs.search h

end Matcher
end Markup
