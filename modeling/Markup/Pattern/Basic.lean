import Markup.Match
import Markup.Unicode.Word

/-! # Patterns

Regular patterns over characters, matched leftmost-first: of two ways to match at one place the earlier alternative
wins, a greedy run prefers to be long and a reluctant one to be short. -/
namespace Markup

inductive Pattern where
  | literal (t : Text)
  | run (accepts : Char → Bool) (least : Nat) (most : Option Nat) (greedy : Bool)
  | both (p q : Pattern)
  | either (p q : Pattern)
  | star (p : Pattern)
  | group (index : Nat) (p : Pattern)
  | lineStart
  | lineEnd
  | wordEdge

namespace Pattern

instance : Append Pattern := ⟨both⟩

instance : OrElse Pattern := ⟨fun p q => either p (q ())⟩

def one (accepts : Char → Bool) : Pattern := run accepts 1 (some 1) true

def atLeast (n : Nat) (accepts : Char → Bool) : Pattern := run accepts n none true

def reluctant (accepts : Char → Bool) : Pattern := run accepts 1 none false

def optional (p : Pattern) : Pattern := either p (literal [])

def plus (p : Pattern) : Pattern := both p (star p)

def word (s : String) : Pattern := literal s.toList

def groupCount : Pattern → Nat
  | both p q | either p q => max p.groupCount q.groupCount
  | star p => p.groupCount
  | group i p => max i p.groupCount
  | _ => 0

/-- A captured group: the text from its start on, and how much of it belongs to the group. -/
structure Capture where
  index : Nat
  source : Text
  size : Nat

/-- A place inside a match: the character before, the number of characters taken, and the text still to come. -/
structure State where
  prev : Option Char
  taken : Nat
  ahead : Text
  captures : List Capture

/-- The places where a run of a class may end, the nearest first; `least` and `most` count what is still to come. -/
def runEnds (accepts : Char → Bool) : (least : Nat) → (most : Option Nat) → State → Text → List State
  | least, _, s, [] => if least = 0 then [{ s with ahead := [] }] else []
  | least, most, s, c :: t =>
    let further :=
      if accepts c && most != some 0 then
        runEnds accepts (least - 1) (most.map (· - 1)) { s with prev := some c, taken := s.taken + 1 } t
      else []
    if least = 0 then { s with ahead := c :: t } :: further else further

def repeats (body : (State → Option State) → State → Option State) (next : State → Option State) :
    Nat → State → Option State
  | 0, s => next s
  | n + 1, s => body (repeats body next n) s <|> next s

def atWordEdge (prev next : Option Char) : Bool := prev.any isWord != next.any isWord

/-- Matches the pattern at a place, then `next`; of several ways the first one that `next` accepts. -/
def walk : Pattern → (State → Option State) → State → Option State
  | literal t, next, s =>
    match t.isPrefixOf? s.ahead with
    | some rest => next ⟨t.getLast?.or s.prev, s.taken + t.length, rest, s.captures⟩
    | none => none
  | run accepts least most greedy, next, s =>
    let ends := runEnds accepts least most s s.ahead
    (if greedy then ends.reverse else ends).findSome? next
  | both p q, next, s => p.walk (q.walk next) s
  | either p q, next, s => p.walk next s <|> q.walk next s
  | star p, next, s => repeats p.walk next s.ahead.length s
  | group i p, next, s =>
    p.walk (fun e => next { e with captures := ⟨i, s.ahead, e.taken - s.taken⟩ :: e.captures }) s
  | lineStart, next, s => if s.prev.all (· == '\n') then next s else none
  | lineEnd, next, s => if s.ahead.head?.all (· == '\n') then next s else none
  | wordEdge, next, s => if atWordEdge s.prev s.ahead.head? then next s else none

def Capture.find? (caps : List Capture) (index : Nat) : Option Text :=
  (caps.find? (·.index == index)).map fun c => c.source.take c.size

def State.hit (groups : Nat) (t : Text) (e : State) : Hit :=
  ⟨t.take e.taken, e.ahead, (List.range groups).map fun i => Capture.find? e.captures (i + 1)⟩

def scanner (p : Pattern) : Scanner := fun prev t => (p.walk some ⟨prev, 0, t, []⟩).map (State.hit p.groupCount t)

end Pattern
end Markup
