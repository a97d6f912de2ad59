import Markup.Proofs.Pattern.Takes
import Markup.Proofs.Seam.Search
import Markup.Proofs.Token.Written
import Mathlib.Data.List.Forall2

/-! # Patterns on both sides of a seam

A pattern goes on alike before a text and before the same text with a line break and more behind it, unless it takes
that line break or stops short of it. Most patterns of the dialect take no line break at all (`inLine`); for the others
this is shown place by place, from what they have taken before. -/
namespace Markup.Pattern

/-- The place `e₂` is the place `e₁` in a longer text; where the one text begins, a line of the other may begin. -/
structure State.Extends (more : Text) (e₁ e₂ : State) : Prop where
  prev : e₂.prev = e₁.prev ∨ e₁.prev = none ∧ e₂.prev = some '\n'
  taken : e₂.taken = e₁.taken
  ahead : e₂.ahead = e₁.ahead ++ more
  captures : e₂.captures.map Capture.entry = e₁.captures.map Capture.entry

/-- With more text behind it the pattern goes on from `s` as it does without. -/
def Seam (more : Text) (p : Pattern) (s : State) : Prop :=
  ∀ next₁ next₂ s₂, s.Extends more s₂ →
    (∀ u caps e e₂, s.Past u caps e → p.Takes s.prev u e.ahead caps → e.Extends more e₂ →
      Option.Rel (State.Extends more) (next₁ e) (next₂ e₂)) →
    Option.Rel (State.Extends more) (p.walk next₁ s) (p.walk next₂ s₂)

variable {more : Text} {p q : Pattern} {s : State}

theorem State.Extends.or_prev {e₁ e₂ : State} (h : e₁.Extends more e₂) (o : Option Char) :
    o.or e₂.prev = o.or e₁.prev ∨ o.or e₁.prev = none ∧ o.or e₂.prev = some '\n' := by
  cases o with
  | none => simpa using h.prev
  | some c => exact .inl rfl

/-- What begins with a line break cannot complete a text without one. -/
theorem isPrefixOf?_append_eq_none {t u : Text} (hmore : more.head?.all (· == '\n') = true)
    (h : more = [] ∨ '\n' ∉ t ∨ t.length ≤ u.length) (hn : t.isPrefixOf? u = none) :
    t.isPrefixOf? (u ++ more) = none := by
  cases hs : t.isPrefixOf? (u ++ more) with
  | none => rfl
  | some rest =>
    exfalso
    have hsplit := Token.eq_append_of_isPrefixOf? hs
    rcases List.append_eq_append_iff.1 hsplit with ⟨c, rfl, hc⟩ | ⟨c, rfl, -⟩
    · cases c with
      | nil =>
        have := Token.isPrefixOf?_append u []
        simp_all
      | cons d c =>
        subst hc
        obtain rfl : d = '\n' := by simpa using hmore
        rcases h with h | h | h
        · contradiction
        · exact h (List.mem_append_right u List.mem_cons_self)
        · rw [List.length_append, List.length_cons] at h
          omega
    · simp [Token.isPrefixOf?_append] at hn

theorem rel_findSome?_of_forall₂ {next₁ next₂ : State → Option State} {l₁ l₂ : List State}
    (h : List.Forall₂ (State.Extends more) l₁ l₂)
    (hn : ∀ e ∈ l₁, ∀ e₂, e.Extends more e₂ → Option.Rel (State.Extends more) (next₁ e) (next₂ e₂)) :
    Option.Rel (State.Extends more) (l₁.findSome? next₁) (l₂.findSome? next₂) := by
  induction h with
  | nil => exact .none
  | @cons e e₂ l₁ l₂ he _ ih =>
    have head := hn e List.mem_cons_self e₂ he
    have tail := ih fun d hd => hn d (List.mem_cons_of_mem _ hd)
    rw [List.findSome?_cons, List.findSome?_cons]
    generalize next₁ e = a, next₂ e₂ = b at head ⊢
    cases head with
    | none => exact tail
    | some h => exact .some h

/-- A run before a longer text ends where it ends before the shorter one, and then perhaps in the text behind. -/
theorem runEnds_append (more : Text) (accepts : Char → Bool) (least : Nat) (most : Option Nat) (s s₂ : State) (t : Text)
    (hs : State.Extends more { s with ahead := t } { s₂ with ahead := t ++ more }) : ∃ ends further,
      runEnds accepts least most s₂ (t ++ more) = ends ++ further ∧
        List.Forall₂ (State.Extends more) (runEnds accepts least most s t) ends ∧
        ∀ e ∈ further, ∃ u, u ≠ [] ∧ more = u ++ e.ahead ∧ ∀ c ∈ t ++ u, accepts c = true := by
  have here {t : Text} {s s₂ : State} {least : Nat}
      (hs : State.Extends more { s with ahead := t } { s₂ with ahead := t ++ more }) :
      List.Forall₂ (State.Extends more) (if least = 0 then [{ s with ahead := t }] else [])
        (if least = 0 then [{ s₂ with ahead := t ++ more }] else []) := by
    split
    · exact .cons hs .nil
    · exact .nil
  induction t generalizing least most s s₂ with
  | nil =>
    refine ⟨_, furtherEnds accepts least most s₂ more, ?_, here hs, fun e he => ?_⟩
    · rw [List.nil_append, runEnds_eq]
    · cases more with
      | nil => exact absurd he List.not_mem_nil
      | cons c more =>
        rw [furtherEnds] at he
        split at he
        · next hc =>
          obtain ⟨u, hu, -, -, hpast⟩ := past_of_mem_runEnds he
          rw [Bool.and_eq_true] at hc
          have hmore : more = u ++ e.ahead := hpast.ahead
          exact ⟨c :: u, List.cons_ne_nil c u, congrArg (c :: ·) hmore, by simpa [hc.1] using hu⟩
        · exact absurd he List.not_mem_nil
  | cons c t ih =>
    rw [runEnds_eq accepts least most s]
    rw [List.cons_append, runEnds_eq accepts least most s₂, furtherEnds, furtherEnds]
    by_cases hc : (accepts c && most != some 0) = true
    · obtain ⟨ends, further, heq, hends, hfurther⟩ := ih (least - 1) (most.map (· - 1))
        { s with prev := some c, taken := s.taken + 1 } { s₂ with prev := some c, taken := s₂.taken + 1 }
        ⟨.inl rfl, congrArg (· + 1) hs.taken, rfl, hs.captures⟩
      rw [if_pos hc, if_pos hc, heq, ← List.append_assoc]
      refine ⟨_, further, rfl, List.rel_append (here hs) hends, fun e he => ?_⟩
      obtain ⟨u, hne, hu, hall⟩ := hfurther e he
      rw [Bool.and_eq_true] at hc
      exact ⟨u, hne, hu, by simpa [hc.1] using hall⟩
    · rw [if_neg hc, if_neg hc, List.append_nil, List.append_nil]
      exact ⟨_, [], by rw [List.append_nil]; rfl, here hs, fun e he => absurd he List.not_mem_nil⟩

section
variable (hmore : more.head?.all (· == '\n') = true)
include hmore

theorem seam_literal {t : Text} (h : more = [] ∨ '\n' ∉ t ∨ t.length ≤ s.ahead.length) : (literal t).Seam more s := by
  intro next₁ next₂ s₂ hs hn
  rw [walk, walk, hs.ahead]
  cases ht : t.isPrefixOf? s.ahead with
  | none =>
    rw [isPrefixOf?_append_eq_none hmore h ht]
    exact .none
  | some rest =>
    have hsplit := Token.eq_append_of_isPrefixOf? ht
    rw [hsplit, List.append_assoc, Token.isPrefixOf?_append]
    refine hn t [] _ _ ⟨hsplit, rfl, rfl, rfl⟩ ⟨rfl, rfl⟩ ⟨hs.or_prev _, ?_, rfl, hs.captures⟩
    rw [hs.taken]

theorem seam_run {accepts : Char → Bool} {least : Nat} {most : Option Nat} {greedy : Bool}
    (h : more = [] ∨ accepts '\n' = false ∨ ∃ c ∈ s.ahead, accepts c = false) :
    (run accepts least most greedy).Seam more s := by
  intro next₁ next₂ s₂ hs hn
  obtain ⟨ends, further, heq, hends, hfurther⟩ := runEnds_append more accepts least most s s₂ s.ahead
    ⟨hs.prev, hs.taken, rfl, hs.captures⟩
  obtain rfl : further = [] := by
    refine List.eq_nil_iff_forall_not_mem.2 fun e he => ?_
    obtain ⟨u, hne, hu, hall⟩ := hfurther e he
    rcases h with rfl | h | ⟨c, hc, h⟩
    · exact hne (List.append_eq_nil_iff.1 hu.symm).1
    · obtain ⟨c, u, rfl⟩ := List.exists_cons_of_ne_nil hne
      obtain rfl : c = '\n' := by simpa [hu] using hmore
      have := hall '\n' (List.mem_append_right _ List.mem_cons_self)
      simp [h] at this
    · have := hall c (List.mem_append_left _ hc)
      simp [h] at this
  rw [List.append_nil] at heq
  have here : ∀ e ∈ runEnds accepts least most s s.ahead, ∀ e₂, e.Extends more e₂ →
      Option.Rel (State.Extends more) (next₁ e) (next₂ e₂) := fun e he e₂ hext => by
    obtain ⟨u, hu, hl, hm, hp⟩ := past_of_mem_runEnds he
    exact hn u [] e e₂ hp ⟨hu, hl, hm, rfl⟩ hext
  rw [walk, walk, hs.ahead, heq]
  cases greedy with
  | true =>
    exact rel_findSome?_of_forall₂ (List.forall₂_reverse_iff.2 hends) fun e he => here e (List.mem_reverse.1 he)
  | false => exact rel_findSome?_of_forall₂ hends here

theorem seam_lineEnd : lineEnd.Seam more s := by
  intro next₁ next₂ s₂ hs hn
  have hhead : s₂.ahead.head?.all (· == '\n') = s.ahead.head?.all (· == '\n') := by
    rw [hs.ahead]
    cases s.ahead with
    | nil => exact hmore
    | cons c t => rfl
  rw [walk, walk, hhead]
  split
  · next hc => exact hn [] [] s s₂ (.refl s) ⟨hc, rfl, rfl⟩ hs
  · exact .none

theorem seam_wordEdge : wordEdge.Seam more s := by
  intro next₁ next₂ s₂ hs hn
  have hbreak : isWord '\n' = false := by decide
  have hprev : s₂.prev.any isWord = s.prev.any isWord := by
    rcases hs.prev with h | ⟨h, h'⟩
    · rw [h]
    · simp [h, h', hbreak]
  have hhead : s₂.ahead.head?.any isWord = s.ahead.head?.any isWord := by
    rw [hs.ahead]
    cases s.ahead with
    | nil =>
      cases more with
      | nil => rfl
      | cons c more =>
        obtain rfl : c = '\n' := by simpa using hmore
        exact hbreak
    | cons c t => rfl
  rw [walk, walk, atWordEdge, atWordEdge, hprev, hhead]
  split
  · next hc => exact hn [] [] s s₂ (.refl s) ⟨hc, rfl, rfl⟩ hs
  · exact .none

end

theorem seam_lineStart : lineStart.Seam more s := by
  intro next₁ next₂ s₂ hs hn
  have hprev : s₂.prev.all (· == '\n') = s.prev.all (· == '\n') := by
    rcases hs.prev with h | ⟨h, h'⟩
    · rw [h]
    · rw [h, h']
      rfl
  rw [walk, walk, hprev]
  split
  · next hc => exact hn [] [] s s₂ (.refl s) ⟨hc, rfl, rfl⟩ hs
  · exact .none

theorem seam_both (hp : p.Seam more s)
    (hq : ∀ u caps e, s.Past u caps e → p.Takes s.prev u e.ahead caps → q.Seam more e) : (p ++ q).Seam more s := by
  intro next₁ next₂ s₂ hs hn
  refine hp _ _ s₂ hs fun u c e e₂ hpast ht he => ?_
  refine hq u c e hpast ht _ _ e₂ he fun v d k k₂ hpast' ht' hk => ?_
  refine hn (u ++ v) (d ++ c) k k₂ (hpast.trans hpast') ⟨u, v, c, d, rfl, rfl, ?_, ?_⟩ hk
  · rwa [← hpast'.ahead]
  · rwa [← hpast.prev]

theorem seam_either (hp : p.Seam more s) (hq : q.Seam more s) : (p <|> q).Seam more s := by
  intro next₁ next₂ s₂ hs hn
  exact rel_or (hp _ _ s₂ hs fun u c e e₂ hpast ht => hn u c e e₂ hpast (.inl ht))
    (hq _ _ s₂ hs fun u c e e₂ hpast ht => hn u c e e₂ hpast (.inr ht))

theorem seam_group (i : Nat) (hp : p.Seam more s) : (group i p).Seam more s := by
  intro next₁ next₂ s₂ hs hn
  refine hp _ _ s₂ hs fun u c e e₂ hpast ht he => ?_
  have hsize : e.taken - s.taken = u.length := by rw [hpast.taken]; omega
  refine hn u ((i, u) :: c) _ _ ⟨hpast.ahead, hpast.prev, hpast.taken, ?_⟩ ⟨c, ht, rfl⟩
    ⟨he.prev, he.taken, he.ahead, ?_⟩
  · simp [Capture.entry, hpast.captures, hsize, hpast.ahead]
  · simp [Capture.entry, he.captures, he.taken, hs.taken, hs.ahead, hsize, hpast.ahead]

theorem seam_star (hp : 1 ≤ p.size) (h : ∀ u caps e, s.Past u caps e → p.Seam more e) : (star p).Seam more s := by
  intro next₁ next₂ s₂ hs hn
  suffices ∀ m n, s.ahead.length ≤ m → s₂.ahead.length ≤ n →
      Option.Rel (State.Extends more) (repeats p.walk next₁ m s) (repeats p.walk next₂ n s₂) from
    this _ _ (Nat.le_refl _) (Nat.le_refl _)
  replace hn : ∀ u caps e e₂, s.Past u caps e → Repeated p.Takes s.prev u e.ahead caps → e.Extends more e₂ →
      Option.Rel (State.Extends more) (next₁ e) (next₂ e₂) := hn
  induction hl : s.ahead.length using Nat.strongRecOn generalizing s s₂ with
  | ind l ih =>
    intro m n hm hm'
    rw [repeats_eq hp next₁ (hl ▸ hm), repeats_eq hp next₂ hm']
    refine rel_or (h [] [] s (.refl s) _ _ s₂ hs fun u c e e₂ hpast ht he => ?_)
      (hn [] [] s s₂ (.refl s) (.none _ _) hs)
    have hu := size_le_of_takes ht
    have ha := congrArg List.length hpast.ahead
    have ha₁ := congrArg List.length hs.ahead
    have ha₂ := congrArg List.length he.ahead
    rw [List.length_append] at ha ha₁ ha₂
    refine ih e.ahead.length (by omega) (fun v d k hpast' => h (u ++ v) (d ++ c) k (hpast.trans hpast')) e₂ he
      (fun v d k k₂ hpast' ht' hk => ?_) rfl (m - 1) (n - 1) (by omega) (by omega)
    refine hn (u ++ v) (d ++ c) k k₂ (hpast.trans hpast') (.more ?_ ?_) hk
    · rwa [← hpast'.ahead]
    · rwa [← hpast.prev]

/-- Where a pattern takes nothing, it does not matter what comes behind it. -/
theorem seam_void (hp : p.Seam more s) (hv : ∀ u rest caps, s.ahead = u ++ rest → ¬ p.Takes s.prev u rest caps)
    (q : Pattern) : (p ++ q).Seam more s :=
  seam_both hp fun u caps e hpast ht => absurd ht (hv u e.ahead caps hpast.ahead)

theorem void_append (hv : ∀ u rest caps, s.ahead = u ++ rest → ¬ p.Takes s.prev u rest caps) (q : Pattern) :
    ∀ u rest caps, s.ahead = u ++ rest → ¬ (p ++ q).Takes s.prev u rest caps := by
  rintro _ rest _ hs ⟨u, v, c, _, rfl, rfl, hp, -⟩
  exact hv u (v ++ rest) c (by rw [hs, List.append_assoc]) hp

theorem seam_assoc {r : Pattern} (h : (p ++ (q ++ r)).Seam more s) : (p ++ q ++ r).Seam more s := by
  intro next₁ next₂ s₂ hs hn
  refine h next₁ next₂ s₂ hs fun _ _ e e₂ hpast ht he => hn _ _ e e₂ hpast ?_ he
  obtain ⟨u, _, c, _, rfl, rfl, hp, v, w, d, k, rfl, rfl, hq, hr⟩ := ht
  rw [List.append_assoc] at hp
  refine ⟨u ++ v, w, d ++ c, k, by rw [List.append_assoc], by rw [List.append_assoc],
    ⟨u, v, c, d, rfl, rfl, hp, hq⟩, ?_⟩
  rwa [List.getLast?_append, Option.or_assoc]

theorem seam_newline {b : Text} (h : s.ahead ≠ []) : (word "\n").Seam ('\n' :: b) s :=
  seam_literal rfl (.inr (.inr (List.length_pos_of_ne_nil h)))

/-- Whether the pattern takes no line break, unless it may take `any` character, and repeats only what takes some. -/
def inLine (any : Bool) : Pattern → Bool
  | literal t => any || !t.contains '\n'
  | run accepts _ _ _ => any || !accepts '\n'
  | both p q | either p q => p.inLine any && q.inLine any
  | star p => 1 ≤ p.size && p.inLine any
  | group _ p => p.inLine any
  | _ => true

theorem seam_of_inLine (hmore : more.head?.all (· == '\n') = true) {any : Bool} (h : p.inLine any = true)
    (hany : any = true → more = []) : p.Seam more s := by
  induction p generalizing s with
  | literal t =>
    simp only [inLine, Bool.or_eq_true, Bool.not_eq_true', List.contains_eq_mem, decide_eq_false_iff_not] at h
    exact seam_literal hmore (h.imp hany .inl)
  | run accepts least most greedy =>
    simp only [inLine, Bool.or_eq_true, Bool.not_eq_true'] at h
    exact seam_run hmore (h.imp hany .inl)
  | both p q ihp ihq =>
    rw [inLine, Bool.and_eq_true] at h
    exact seam_both (ihp h.1) fun _ _ _ _ _ => ihq h.2
  | either p q ihp ihq =>
    rw [inLine, Bool.and_eq_true] at h
    exact seam_either (ihp h.1) (ihq h.2)
  | star p ih =>
    rw [inLine, Bool.and_eq_true, decide_eq_true_eq] at h
    exact seam_star h.1 fun _ _ _ _ => ih h.2
  | group i p ih => exact seam_group i (ih h)
  | lineStart => exact seam_lineStart
  | lineEnd => exact seam_lineEnd hmore
  | wordEdge => exact seam_wordEdge hmore

theorem seam_within {b : Text} (h : p.inLine false = true) : p.Seam ('\n' :: b) s :=
  seam_of_inLine rfl h fun h => Bool.noConfusion h

theorem newline_not_mem_of_takes (h : p.inLine false = true) {prev : Option Char} {u rest : Text}
    {caps : List (Nat × Text)} (ht : p.Takes prev u rest caps) : '\n' ∉ u := by
  induction p generalizing prev u rest caps with
  | literal t =>
    obtain ⟨rfl, -⟩ := ht
    simpa [inLine] using h
  | run accepts least most greedy =>
    intro hu
    have := ht.1 _ hu
    simp [inLine, this] at h
  | both p q ihp ihq =>
    rw [inLine, Bool.and_eq_true] at h
    obtain ⟨a, b, c, d, rfl, -, hp, hq⟩ := ht
    simp [ihp h.1 hp, ihq h.2 hq]
  | either p q ihp ihq =>
    rw [inLine, Bool.and_eq_true] at h
    exact ht.elim (ihp h.1) (ihq h.2)
  | star p ih =>
    rw [inLine, Bool.and_eq_true] at h
    change Repeated p.Takes prev u rest caps at ht
    induction ht with
    | none => exact List.not_mem_nil
    | more head _ tail => simp [ih h.2 head, tail]
  | group i p ih =>
    obtain ⟨c, hp, -⟩ := ht
    exact ih h hp
  | lineStart | lineEnd | wordEdge =>
    obtain ⟨-, rfl, -⟩ := ht
    exact List.not_mem_nil

theorem scanner_extend {prev prev₂ : Option Char} {t : Text} (h : p.Seam more ⟨prev, 0, t, []⟩)
    (hprev : prev₂ = prev ∨ prev = none ∧ prev₂ = some '\n') :
    p.scanner prev₂ (t ++ more) = (p.scanner prev t).map (Hit.extend more) := by
  have hrel := h some some ⟨prev₂, 0, t ++ more, []⟩ ⟨hprev, rfl, rfl, rfl⟩ fun u caps e e₂ _ _ he => .some he
  rw [scanner, scanner]
  cases hw : p.walk some ⟨prev, 0, t, []⟩ with
  | none =>
    rw [hw] at hrel
    generalize p.walk some ⟨prev₂, 0, t ++ more, []⟩ = b at hrel ⊢
    cases hrel
    rfl
  | some e =>
    obtain ⟨u, caps, e', hpast, -, he⟩ := walk_takes hw
    obtain rfl := Option.some.inj he
    rw [hw] at hrel
    generalize p.walk some ⟨prev₂, 0, t ++ more, []⟩ = b at hrel ⊢
    cases hrel with
    | @some _ e₂ hext =>
      have ht : t = u ++ e'.ahead := hpast.ahead
      have htaken : e'.taken = u.length := by rw [hpast.taken]; simp
      simp [State.hit, Hit.extend, find?_eq_lookup, hext.captures, hext.ahead, hext.taken, htaken, ht]

/-- A pattern sees the sides of a seam apart when it goes on alike from every place on the left. -/
theorem matcher_seam {a b : Text} (left : ∀ u v, a = u ++ v → p.Seam ('\n' :: b) ⟨u.getLast?, 0, v, []⟩)
    (right : p.inLine true = true) : p.matcher.Seam a b := by
  rw [matcher_eq]
  refine Scanner.Seam.matcher ⟨fun u v hu => scanner_extend (left u v hu) (.inl rfl), ?_⟩ _
  have alone : p.Seam [] ⟨none, 0, b, []⟩ := seam_of_inLine rfl right fun _ => rfl
  have here := scanner_extend alone (.inr ⟨rfl, rfl⟩)
  rw [List.append_nil] at here
  rw [here]
  cases p.scanner none b with
  | none => rfl
  | some h => simp [Hit.extend]

theorem inLine_true (h : p.inLine false = true) : p.inLine true = true := by
  induction p with
  | literal | run => rfl
  | both p q ihp ihq | either p q ihp ihq =>
    rw [inLine, Bool.and_eq_true] at h ⊢
    exact ⟨ihp h.1, ihq h.2⟩
  | star p ih =>
    rw [inLine, Bool.and_eq_true] at h ⊢
    exact ⟨h.1, ih h.2⟩
  | group i p ih => exact ih h
  | lineStart | lineEnd | wordEdge => rfl

theorem matcher_seam_of_inLine (h : p.inLine false = true) (a b : Text) : p.matcher.Seam a b :=
  matcher_seam (fun _ _ _ => seam_within h) (inLine_true h)

end Markup.Pattern
