import Markup.Text.Basic
import Markup.Unicode.Decimal

/-! # Tokens

A token is the marker, a number and a semicolon. It stands in a text for a finished piece that later rules must not
see. Three readers take tokens apart: `Token.id?` a whole text, `Token.leads` the beginning of one, and `Token.pieces`
everything in between. -/
namespace Markup.Token

def marker : Text := ";;xsv;".toList

def ofId (n : Nat) : Text := marker ++ Nat.toDigits 10 n ++ [';']

def digitsValue (digits : Text) : Nat := digits.foldl (fun n c => 10 * n + (c.toNat - '0'.toNat)) 0

/-- Numbers have at least one digit and ASCII digits only. One that no machine word holds lies past the end of every
store, so it needs no case of its own. -/
def readId? (digits : Text) : Option Nat :=
  if digits ≠ [] ∧ digits.all Char.isDigit then some (digitsValue digits) else none

def id? (t : Text) : Option Nat := do
  let rest ← marker.isPrefixOf? t
  if rest.getLast? = some ';' then readId? rest.dropLast else none

def leads (t : Text) : Bool :=
  match marker.isPrefixOf? t with
  | none => false
  | some rest => !(rest.takeWhile Char.isDigit).isEmpty && (rest.dropWhile Char.isDigit).head? == some ';'

/-- The digits of the token-shaped text at the beginning, of any script, and the text after it. -/
def shape? (t : Text) : Option (Text × Text) := do
  let rest ← marker.isPrefixOf? t
  let digits := rest.takeWhile isDecimal
  match digits, rest.dropWhile isDecimal with
  | _ :: _, ';' :: after => some (digits, after)
  | _, _ => none

theorem eq_append_of_isPrefixOf? {a t rest : Text} (h : a.isPrefixOf? t = some rest) : t = a ++ rest := by
  induction a generalizing t with
  | nil => simp_all
  | cons c a ih =>
    cases t with
    | nil => simp at h
    | cons d t =>
      rw [Text.isPrefixOf?_cons_cons] at h
      split at h
      · next hc => simp_all [ih h]
      · contradiction

theorem eq_of_shape? {t digits after : Text} (h : shape? t = some (digits, after)) :
    t = marker ++ digits ++ ';' :: after := by
  simp only [shape?, Option.bind_eq_bind, Option.bind_eq_some_iff] at h
  obtain ⟨rest, hr, h⟩ := h
  split at h
  · next _ _ hd ha =>
    simp only [Option.some.injEq, Prod.mk.injEq] at h
    obtain ⟨rfl, rfl⟩ := h
    rw [eq_append_of_isPrefixOf? hr, List.append_assoc, ← ha, List.takeWhile_append_dropWhile]
  · contradiction

theorem shape?_length {t digits after : Text} (h : shape? t = some (digits, after)) : after.length < t.length := by
  rw [eq_of_shape? h]
  simp
  omega

/-- A text falls into single characters and token-shaped stretches. -/
inductive Piece where
  | char (c : Char)
  | token (digits : Text)
deriving DecidableEq, Repr

def Piece.text : Piece → Text
  | .char c => [c]
  | .token digits => marker ++ digits ++ [';']

def Piece.id? : Piece → Option Nat
  | .char _ => none
  | .token digits => readId? digits

def pieces (t : Text) : List Piece :=
  match t with
  | [] => []
  | c :: r =>
    match _h : shape? (c :: r) with
    | some (digits, after) => .token digits :: pieces after
    | none => .char c :: pieces r
termination_by t.length
decreasing_by
  · exact shape?_length _h
  · exact Nat.lt_succ_self _

theorem flatMap_text_pieces (t : Text) : (pieces t).flatMap Piece.text = t := by
  fun_induction pieces t with
  | case1 => rfl
  | case2 c r digits after h ih => simp [ih, Piece.text, eq_of_shape? h]
  | case3 c r h ih => simp [ih, Piece.text]

end Markup.Token
