import Markup.Pattern.Basic

/-! # Plans

A plan is a pattern made ready for a search: what follows each of its parts is settled once, and a quick look at the
text ahead rules most places out before anything is tried there. A plan finds what the pattern finds
(`plan_correct`), so `Pattern.matcher` answers as `Pattern.scanner` does at the first place where it hits. -/
namespace Markup.Pattern

structure Plan where
  /-- Whether the plan can go on before this text; a rough answer that is wrong in one direction only. -/
  may : Text → Bool
  go : State → Option State

namespace Plan

def Sound (g : Plan) : Prop := ∀ s, g.may s.ahead = false → g.go s = none

def done : Plan := ⟨fun _ => true, some⟩

theorem sound_done : done.Sound := fun _ h => nomatch h

end Plan

def begins (accepts : Char → Bool) : Text → Bool
  | [] => false
  | c :: _ => accepts c

/-- The viable ends of a run behind its first character, the farthest first, in front of those found before. -/
def farEnds (accepts : Char → Bool) (may : Text → Bool) (captures : List Capture) :
    (least : Nat) → (most : Option Nat) → (taken : Nat) → List State → Text → List State
  | _, _, _, found, [] => found
  | least, most, taken, found, c :: t =>
    if accepts c && most != some 0 then
      farEnds accepts may captures (least - 1) (most.map (· - 1)) (taken + 1)
        (if least ≤ 1 && may t then ⟨some c, taken + 1, t, captures⟩ :: found else found) t
    else found

/-- Goes on at the nearest end of a run behind its first character where that leads somewhere. -/
def nearEnd (accepts : Char → Bool) (next : Plan) (captures : List Capture) :
    (least : Nat) → (most : Option Nat) → (taken : Nat) → Text → Option State
  | _, _, _, [] => none
  | least, most, taken, c :: t =>
    if accepts c && most != some 0 then
      match if least ≤ 1 && next.may t then next.go ⟨some c, taken + 1, t, captures⟩ else none with
      | some e => some e
      | none => nearEnd accepts next captures (least - 1) (most.map (· - 1)) (taken + 1) t
    else none

def plan : Pattern → Plan → Plan
  | literal [], next => next
  | literal (c :: a), next =>
    let size := a.length + 1
    let last := (c :: a).getLast?
    { may := begins (· == c)
      go := fun s =>
        match (c :: a).isPrefixOf? s.ahead with
        | some rest => next.go ⟨last, s.taken + size, rest, s.captures⟩
        | none => none }
  | run accepts least most greedy, next =>
    { may := if least = 0 then fun t => begins accepts t || next.may t else begins accepts
      go := if greedy then fun s =>
          let here := if least = 0 && next.may s.ahead then [s] else []
          (farEnds accepts next.may s.captures least most s.taken here s.ahead).findSome? next.go
        else fun s =>
          match if least = 0 && next.may s.ahead then next.go s else none with
          | some e => some e
          | none => nearEnd accepts next s.captures least most s.taken s.ahead }
  | both p q, next => p.plan (q.plan next)
  | either p q, next =>
    let first := p.plan next
    let second := q.plan next
    { may := fun t => first.may t || second.may t
      go := fun s =>
        match first.go s with
        | some e => some e
        | none => second.go s }
  | star p, next =>
    let inside := p.plan ⟨fun _ => true, fun _ => none⟩
    let may := fun t => inside.may t || next.may t
    { may := may
      go := fun s => repeats (fun k => (p.plan ⟨may, k⟩).go) next.go s.ahead.length s }
  | group i p, next =>
    { may := (p.plan next).may
      go := fun s =>
        (p.plan ⟨next.may, fun e =>
          next.go { e with captures := ⟨i, s.ahead, e.taken - s.taken⟩ :: e.captures }⟩).go s }
  | lineStart, next => { next with go := fun s => if s.prev.all (· == '\n') then next.go s else none }
  | lineEnd, next =>
    { may := fun t => (t.isEmpty || begins (· == '\n') t) && next.may t
      go := fun s => if s.ahead.head?.all (· == '\n') then next.go s else none }
  | wordEdge, next => { next with go := fun s => if atWordEdge s.prev s.ahead.head? then next.go s else none }

theorem findSome?_filter {α β : Type} {f : α → Option β} {p : α → Bool} {l : List α}
    (h : ∀ a ∈ l, p a = false → f a = none) : (l.filter p).findSome? f = l.findSome? f := by
  induction l with
  | nil => rfl
  | cons a l ih =>
    have ih := ih fun b hb => h b (List.mem_cons_of_mem _ hb)
    cases ha : p a with
    | true => simp [ha, List.findSome?_cons, ih]
    | false => simp [ha, ih, h a List.mem_cons_self ha]

def furtherEnds (accepts : Char → Bool) (least : Nat) (most : Option Nat) (s : State) : Text → List State
  | [] => []
  | c :: t =>
    if accepts c && most != some 0 then
      runEnds accepts (least - 1) (most.map (· - 1)) { s with prev := some c, taken := s.taken + 1 } t
    else []

theorem runEnds_eq (accepts : Char → Bool) (least : Nat) (most : Option Nat) (s : State) (t : Text) :
    runEnds accepts least most s t =
      (if least = 0 then [{ s with ahead := t }] else []) ++ furtherEnds accepts least most s t := by
  cases t with
  | nil => simp [runEnds, furtherEnds]
  | cons c t =>
    rw [runEnds, furtherEnds]
    split <;> rfl

theorem runEnds_here (accepts : Char → Bool) (least : Nat) (most : Option Nat) (s : State) :
    runEnds accepts least most s s.ahead =
      (if least = 0 then [s] else []) ++ furtherEnds accepts least most s s.ahead :=
  runEnds_eq accepts least most s s.ahead

theorem farEnds_eq (accepts : Char → Bool) (may : Text → Bool) (least : Nat) (most : Option Nat) (s : State)
    (found : List State) (t : Text) :
    farEnds accepts may s.captures least most s.taken found t =
      ((furtherEnds accepts least most s t).filter (may ·.ahead)).reverse ++ found := by
  induction t generalizing least most s found with
  | nil => rfl
  | cons c t ih =>
    rw [farEnds, furtherEnds]
    split
    · rw [ih _ _ { s with prev := some c, taken := s.taken + 1 }, runEnds_eq]
      by_cases hl : least ≤ 1 <;> by_cases hm : may t = true <;>
        simp [hl, hm, Nat.sub_eq_zero_iff_le]
    · rfl

theorem farEnds_here (accepts : Char → Bool) (may : Text → Bool) (least : Nat) (most : Option Nat) (s : State) :
    farEnds accepts may s.captures least most s.taken (if least = 0 && may s.ahead then [s] else []) s.ahead =
      (runEnds accepts least most s s.ahead).reverse.filter (may ·.ahead) := by
  rw [farEnds_eq, runEnds_here]
  by_cases hl : least = 0 <;> cases hm : may s.ahead <;> simp [hl, hm]

theorem furtherEnds_eq_nil {accepts : Char → Bool} {t : Text} (h : begins accepts t = false) {least : Nat}
    {most : Option Nat} {s : State} : furtherEnds accepts least most s t = [] := by
  cases t with
  | nil => rfl
  | cons c t => simp_all [begins, furtherEnds]

theorem nearEnd_eq (accepts : Char → Bool) {next : Plan} (hn : next.Sound) (least : Nat) (most : Option Nat)
    (s : State) (t : Text) :
    nearEnd accepts next s.captures least most s.taken t = (furtherEnds accepts least most s t).findSome? next.go := by
  induction t generalizing least most s with
  | nil => rfl
  | cons c t ih =>
    rw [nearEnd, furtherEnds]
    split
    · rw [ih _ _ { s with prev := some c, taken := s.taken + 1 }, runEnds_eq]
      simp only [Nat.sub_eq_zero_iff_le, List.findSome?_append]
      by_cases hl : least ≤ 1
      · cases hm : next.may t with
        | true =>
          simp only [hl, decide_true, Bool.and_true, if_pos, List.findSome?_cons, List.findSome?_nil]
          cases next.go ⟨some c, s.taken + 1, t, s.captures⟩ <;> rfl
        | false => simp [hl, hn ⟨some c, s.taken + 1, t, s.captures⟩ hm]
      · simp [hl]
    · rfl

theorem may_mono (p : Pattern) {g g' : Plan} (h : ∀ t, g.may t = true → g'.may t = true) (t : Text) :
    (p.plan g).may t = true → (p.plan g').may t = true := by
  induction p generalizing g g' t with
  | literal a => cases a with
    | nil => exact h t
    | cons c a => exact id
  | run accepts least most greedy =>
    by_cases hl : least = 0
    · simpa [plan, hl] using Or.imp_right (h t)
    · simp [plan, hl]
  | both p q ihp ihq => exact ihp (ihq h) t
  | either p q ihp ihq => simpa [plan] using Or.imp (ihp h t) (ihq h t)
  | star p => simpa [plan] using Or.imp_right (h t)
  | group i p ih => exact ih h t
  | lineStart => exact h t
  | lineEnd => simpa [plan] using fun h₁ h₂ => ⟨h₁, h t h₂⟩
  | wordEdge => exact h t

theorem isPrefixOf?_of_begins {c : Char} {t : Text} (h : begins (· == c) t = false) (a : Text) :
    (c :: a).isPrefixOf? t = none := by
  cases t with
  | nil => rfl
  | cons d t =>
    have hne : ¬ (c == d) = true := by
      rintro hc
      simp [begins, beq_iff_eq.1 hc] at h
    simp [hne]

theorem sound_plan_literal (c : Char) (a : Text) (g : Plan) : ((literal (c :: a)).plan g).Sound := fun s h => by
  simp [plan, isPrefixOf?_of_begins h a]

theorem go_plan_literal (c : Char) (a : Text) (g : Plan) :
    ((literal (c :: a)).plan g).go = (literal (c :: a)).walk g.go := by
  funext s
  have last := List.getLast?_eq_some_getLast (List.cons_ne_nil c a)
  cases h : (c :: a).isPrefixOf? s.ahead with
  | none => simp [plan, walk, h]
  | some rest => simp [plan, walk, h, last]

section
variable {g : Plan} {accepts : Char → Bool} {least : Nat} {most : Option Nat} {greedy : Bool}

theorem go_plan_run (hg : g.Sound) :
    ((run accepts least most greedy).plan g).go = (run accepts least most greedy).walk g.go := by
  funext s
  simp only [plan, walk]
  cases greedy with
  | true => simp only [if_pos, farEnds_here, findSome?_filter fun e _ => hg e]
  | false =>
    simp only [Bool.false_eq_true, if_false]
    rw [runEnds_here, nearEnd_eq accepts hg]
    by_cases hl : least = 0
    · cases hm : g.may s.ahead with
      | true =>
        simp only [hl, decide_true, Bool.and_true, if_pos, List.findSome?_append, List.findSome?_cons,
          List.findSome?_nil]
        cases g.go s <;> rfl
      | false => simp [hl, hg s hm]
    · simp [hl]

theorem sound_plan_run (hg : g.Sound) : ((run accepts least most greedy).plan g).Sound := fun s h => by
  rw [go_plan_run hg, walk, runEnds_here]
  by_cases hl : least = 0
  · simp only [plan, hl, if_pos, Bool.or_eq_false_iff] at h
    cases greedy <;> simp [hl, furtherEnds_eq_nil h.1, hg s h.2]
  · simp only [plan, hl, if_neg, not_false_eq_true] at h
    cases greedy <;> simp [hl, furtherEnds_eq_nil h]

theorem sound_plan_lineEnd (hg : g.Sound) : (lineEnd.plan g).Sound := fun s h => by
  simp only [plan, Bool.and_eq_false_iff] at h
  rcases h with h | h
  · cases hs : s.ahead with
    | nil => simp [hs] at h
    | cons c t => simp_all [plan, begins]
  · simp only [plan, hg s h, ite_self]

/-- The plan for a repeated pattern goes through the same rounds, whatever their number. -/
theorem plan_repeats {p : Pattern} (hp : ∀ {g : Plan}, g.Sound → (p.plan g).Sound ∧ (p.plan g).go = p.walk g.go)
    (hg : g.Sound) {may : Text → Bool}
    (hmay : may = fun t => (p.plan ⟨fun _ => true, fun _ => none⟩).may t || g.may t) (n : Nat) :
    Plan.Sound ⟨may, repeats (fun k => (p.plan ⟨may, k⟩).go) g.go n⟩ ∧
      repeats (fun k => (p.plan ⟨may, k⟩).go) g.go n = repeats p.walk g.go n := by
  have hout {s : State} (h : may s.ahead = false) :
      (p.plan ⟨fun _ => true, fun _ => none⟩).may s.ahead = false ∧ g.may s.ahead = false := by
    rw [hmay] at h
    exact Bool.or_eq_false_iff.1 h
  induction n with
  | zero => exact ⟨fun s h => hg s (hout h).2, rfl⟩
  | succ n ih =>
    have body := hp ih.1
    refine ⟨fun s h => ?_, funext fun s => by rw [repeats, repeats, body.2, ih.2]⟩
    have inside : (p.plan ⟨may, repeats (fun k => (p.plan ⟨may, k⟩).go) g.go n⟩).may s.ahead = false :=
      Bool.eq_false_iff.2 fun hm => Bool.eq_false_iff.1 (hout h).1 (p.may_mono (fun _ _ => rfl) _ hm)
    simp [repeats, body.1 s inside, hg s (hout h).2]

end

/-- A sound plan stays sound with a pattern in front of it, and goes where the pattern goes. -/
theorem plan_correct (p : Pattern) {g : Plan} (hg : g.Sound) : (p.plan g).Sound ∧ (p.plan g).go = p.walk g.go := by
  induction p generalizing g with
  | literal a => cases a with
    | nil => exact ⟨hg, funext fun s => by simp [plan, walk]⟩
    | cons c a => exact ⟨sound_plan_literal c a g, go_plan_literal c a g⟩
  | run accepts least most greedy => exact ⟨sound_plan_run hg, go_plan_run hg⟩
  | both p q ihp ihq =>
    have hq := ihq hg
    have hp := ihp hq.1
    exact ⟨hp.1, hp.2.trans (congrArg p.walk hq.2)⟩
  | either p q ihp ihq =>
    have hp := ihp hg
    have hq := ihq hg
    refine ⟨fun s h => ?_, funext fun s => ?_⟩
    · simp only [plan, Bool.or_eq_false_iff] at h
      simp [plan, hp.1 s h.1, hq.1 s h.2]
    · simp only [plan, walk, ← hp.2, ← hq.2]
      cases (p.plan g).go s <;> rfl
  | star p ih =>
    have rounds (s : State) := plan_repeats (fun hg => ih hg) hg rfl s.ahead.length
    exact ⟨fun s => (rounds s).1 s, funext fun s => congrFun (rounds s).2 s⟩
  | group i p ih =>
    have inside (s : State) := ih (g := ⟨g.may, fun e =>
      g.go { e with captures := ⟨i, s.ahead, e.taken - s.taken⟩ :: e.captures }⟩) fun e h => hg _ h
    refine ⟨fun s h => (inside s).1 s (Bool.eq_false_iff.2 fun hm => ?_), funext fun s => congrFun (inside s).2 s⟩
    refine Bool.eq_false_iff.1 h (p.may_mono ?_ _ hm)
    exact fun _ => id
  | lineEnd => exact ⟨sound_plan_lineEnd hg, rfl⟩
  | lineStart | wordEdge =>
    refine ⟨fun s h => ?_, rfl⟩
    simp only [plan] at h ⊢
    rw [hg s h, ite_self]

def Plan.scanner (g : Plan) (groups : Nat) : Scanner := fun prev t =>
  (g.go ⟨prev, 0, t, []⟩).map (State.hit groups t)

def matcher (p : Pattern) : Matcher :=
  let g := p.plan .done
  .ofScannerWhere g.may (g.scanner p.groupCount)

theorem scanner_plan (p : Pattern) : (p.plan .done).scanner p.groupCount = p.scanner := by
  funext prev t
  rw [Plan.scanner, scanner, (p.plan_correct Plan.sound_done).2]
  rfl

theorem scanner_eq_none (p : Pattern) (prev : Option Char) {t : Text} (h : (p.plan .done).may t = false) :
    p.scanner prev t = none := by
  rw [← scanner_plan, Plan.scanner, (p.plan_correct Plan.sound_done).1 _ h, Option.map_none]

theorem matcher_eq (p : Pattern) : p.matcher = .ofScanner p.scanner := by
  rw [matcher, scanner_plan, Matcher.ofScannerWhere_eq fun prev _ => p.scanner_eq_none prev]

end Markup.Pattern
