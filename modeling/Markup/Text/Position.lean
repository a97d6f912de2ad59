import Markup.Text.Lines

/-! # Byte positions

The edge of the library counts in UTF-8 bytes. A position names a cut of the text when it is on a character
boundary and not past the end. -/
namespace Markup

inductive PositionError where
  | noBoundary (pos : Nat)

namespace Text

def bytes (t : Text) : Nat := t.foldr (fun c n => c.utf8Size + n) 0

@[simp] theorem bytes_nil : bytes [] = 0 := rfl

@[simp] theorem bytes_cons (c : Char) (t : Text) : bytes (c :: t) = c.utf8Size + bytes t := rfl

@[simp] theorem bytes_append (s t : Text) : bytes (s ++ t) = bytes s + bytes t := by
  induction s with
  | nil => simp
  | cons c s ih => rw [List.cons_append, bytes_cons, bytes_cons, ih, Nat.add_assoc]

def cut? : Text → Nat → Option (Text × Text)
  | t, 0 => some ([], t)
  | [], _ + 1 => none
  | c :: t, n + 1 =>
    if c.utf8Size ≤ n + 1 then (cut? t (n + 1 - c.utf8Size)).map fun (s, r) => (c :: s, r) else none

/-- The two halves at the first boundary at or after a byte position; none past the end. -/
def cutUp? : Text → Nat → Option (Text × Text)
  | t, 0 => some ([], t)
  | [], _ + 1 => none
  | c :: t, n + 1 => (cutUp? t (n + 1 - c.utf8Size)).map fun (s, r) => (c :: s, r)

theorem cut?_eq_some_iff {t s r : Text} {n : Nat} : t.cut? n = some (s, r) ↔ t = s ++ r ∧ s.bytes = n := by
  fun_induction cut? t n generalizing s r with
  | case1 t => cases s <;> simp [Nat.ne_of_gt (Char.utf8Size_pos _), eq_comm]
  | case2 n => cases s <;> simp
  | case3 c t n h ih =>
    cases s with
    | nil => simp
    | cons d s =>
      simp only [Option.map_eq_some_iff, Prod.mk.injEq, List.cons.injEq, Prod.exists, List.cons_append, bytes_cons]
      constructor
      · rintro ⟨_, _, h', ⟨rfl, rfl⟩, rfl⟩
        have := ih.1 h'
        exact ⟨⟨rfl, this.1⟩, by omega⟩
      · rintro ⟨⟨rfl, h₁⟩, h₂⟩
        exact ⟨_, _, ih.2 ⟨h₁, by omega⟩, ⟨rfl, rfl⟩, rfl⟩
  | case4 c t n h =>
    cases s with
    | nil => simp
    | cons d s => simp; rintro rfl _; omega

def cut (t : Text) (pos : Nat) : Except PositionError (Text × Text) :=
  match t.cut? pos with
  | some halves => .ok halves
  | none => .error (.noBoundary pos)

def lineEnd (t : Text) (pos : Nat) : Except PositionError Nat := do
  let (_, rest) ← t.cut pos
  return pos + rest.line.bytes

/-- The first line start at or after `pos`. -/
def nextLineStart (t : Text) (pos : Nat) : Except PositionError (Option Nat) := do
  let (seen, rest) ← t.cut pos
  if seen.isEmpty || seen.getLast? == some '\n' then return some pos
  return match rest.afterLine with
    | [] => none
    | _ :: _ => some (pos + rest.line.bytes + 1)

/-- How many bytes of white space stand at `pos` before the line ends. -/
def indentWidth (t : Text) (pos : Nat) : Except PositionError Nat := do
  let (_, rest) ← t.cut pos
  return rest.indent.bytes

end Text
end Markup
