import Markup.Proofs.Pattern.Takes
import Markup.Proofs.Script.Basic

/-! # Patterns within tokens

A place within a token has characters of it on both sides. A syntactic check, `stuck`, says when a pattern can take
nothing from there on. -/
namespace Markup.Pattern

def State.Inside (s : State) : Prop := Markup.Inside s.prev s.ahead

/-- Nothing is accepted within a token. -/
def Stuck (next : State → Option State) : Prop := ∀ s, s.Inside → next s = none

/-- Everything is accepted. -/
def Total (next : State → Option State) : Prop := ∀ s, next s ≠ none

/-- Whether the pattern takes nothing from within a token, when what follows it does so as `k` says. -/
def stuck : Pattern → (k : Bool) → Bool
  | literal [], k => k
  | literal (c :: _), _ => !Token.alphabet.contains c
  | run accepts least _ _, k => 1 ≤ least && Token.alphabet.all (!accepts ·) || !accepts ';' && k
  | both p q, k => p.stuck (q.stuck k)
  | either p q, k => p.stuck k && q.stuck k
  | star p, k => k && p.stuck k
  | group _ p, k => p.stuck k
  | lineStart, _ | lineEnd, _ => true
  | wordEdge, k => k

theorem runEnds_inside {accepts : Char → Bool} {least : Nat} {most : Option Nat} {s e : State} {t : Text}
    (hsemi : accepts ';' = false) (hs : Markup.Inside s.prev t) (he : e ∈ runEnds accepts least most s t) :
    e.Inside := by
  induction t generalizing least most s with
  | nil =>
    obtain ⟨c, t', h, -⟩ := hs.exists_cons
    contradiction
  | cons c t ih =>
    obtain ⟨d, t', h, -, hd⟩ := hs.exists_cons
    obtain ⟨rfl, rfl⟩ := List.cons.inj h
    rw [runEnds_eq, List.mem_append] at he
    rcases he with he | he
    · split at he
      · rw [List.mem_singleton.1 he]
        exact hs
      · exact absurd he List.not_mem_nil
    · rw [furtherEnds] at he
      split at he
      · next hc =>
        refine ih (s := { s with prev := some c, taken := s.taken + 1 }) (hd ?_) he
        rintro rfl
        simp [hsemi] at hc
      · exact absurd he List.not_mem_nil

theorem runEnds_of_rejects {accepts : Char → Bool} {least : Nat} {most : Option Nat} {s : State} {t : Text}
    (hl : 1 ≤ least) (hr : ∀ c ∈ Token.alphabet, accepts c = false) (hs : Markup.Inside s.prev t) :
    runEnds accepts least most s t = [] := by
  obtain ⟨c, t', rfl, hc, -⟩ := hs.exists_cons
  rw [runEnds_eq, furtherEnds, hr c hc]
  simp only [Bool.false_and, Bool.false_eq_true, if_false, List.append_nil]
  rw [if_neg (by omega)]

theorem repeats_stuck {body : (State → Option State) → State → Option State} {next : State → Option State}
    (hn : Stuck next) (hb : ∀ k, Stuck k → Stuck (body k)) (n : Nat) : Stuck (repeats body next n) := by
  induction n with
  | zero => exact hn
  | succ n ih =>
    intro s hs
    rw [repeats, hb _ ih s hs, hn s hs]
    rfl

section
variable {next : State → Option State}

theorem literal_stuck {c : Char} (hc : c ∉ Token.alphabet) (t : Text) : Stuck ((literal (c :: t)).walk next) := by
  intro s hs
  obtain ⟨d, t', ha, hd, -⟩ := Inside.exists_cons hs
  have hne : (c == d) = false := by
    rw [beq_eq_false_iff_ne]
    rintro rfl
    exact hc hd
  simp [walk, ha, hne]

theorem run_stuck {accepts : Char → Bool} {least : Nat} {most : Option Nat} {greedy : Bool}
    (h : 1 ≤ least ∧ (∀ c ∈ Token.alphabet, accepts c = false) ∨ accepts ';' = false ∧ Stuck next) :
    Stuck ((run accepts least most greedy).walk next) := by
  intro s hs
  have hends : ∀ e ∈ runEnds accepts least most s s.ahead, next e = none := by
    rcases h with ⟨hl, hr⟩ | ⟨hsemi, hk⟩
    · rw [runEnds_of_rejects hl hr hs]
      exact fun e he => absurd he List.not_mem_nil
    · exact fun e he => hk e (runEnds_inside hsemi hs he)
  rw [walk]
  refine List.findSome?_eq_none_iff.2 fun e he => hends e ?_
  split at he
  · exact List.mem_reverse.1 he
  · exact he

theorem lineStart_stuck : Stuck (lineStart.walk next) := by
  intro s hs
  obtain ⟨c, hc, hp⟩ := Inside.prev hs
  have hne : c ≠ '\n' := fun h => absurd (h ▸ hc) (by decide)
  simp [walk, hp, hne]

theorem lineEnd_stuck : Stuck (lineEnd.walk next) := by
  intro s hs
  obtain ⟨c, t', ha, hc, -⟩ := Inside.exists_cons hs
  have hne : c ≠ '\n' := fun h => absurd (h ▸ hc) (by decide)
  simp [walk, ha, hne]

end

theorem walk_stuck {p : Pattern} {k : Bool} (h : p.stuck k = true) {next : State → Option State}
    (hn : k = true → Stuck next) : Stuck (p.walk next) := by
  induction p generalizing k next with
  | literal t =>
    cases t with
    | nil => exact fun s hs => hn h s hs
    | cons c t => exact literal_stuck (by simpa [stuck] using h) t
  | run accepts least most greedy =>
    simp only [stuck, Bool.or_eq_true, Bool.and_eq_true, decide_eq_true_eq, List.all_eq_true, Bool.not_eq_true'] at h
    exact run_stuck (h.imp_right fun h => ⟨h.1, hn h.2⟩)
  | both p q ihp ihq => exact ihp h fun hq => ihq hq hn
  | either p q ihp ihq =>
    rw [stuck, Bool.and_eq_true] at h
    intro s hs
    rw [walk, ihp h.1 hn s hs, ihq h.2 hn s hs]
    rfl
  | star p ih =>
    rw [stuck, Bool.and_eq_true] at h
    intro s hs
    exact repeats_stuck (hn h.1) (fun k hk => ih h.2 fun _ => hk) _ s hs
  | group i p ih =>
    intro s hs
    let captured : State → Option State := fun e =>
      next { e with captures := ⟨i, s.ahead, e.taken - s.taken⟩ :: e.captures }
    have hcaptured : k = true → Stuck captured := fun hk e he => hn hk _ he
    exact ih h hcaptured s hs
  | lineStart => exact lineStart_stuck
  | lineEnd => exact lineEnd_stuck
  | wordEdge =>
    intro s hs
    rw [walk, hn h s hs, ite_self]

end Markup.Pattern
