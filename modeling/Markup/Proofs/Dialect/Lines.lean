import Markup.Proofs.Dialect.Seam

/-! # Lines on both sides of a line break

The line stage works on each line by itself. No rule of it takes a line break or looks past one, and what a rule writes
depends on its match alone; so the stage does to two texts with a line break between them what it does to each of them,
whatever the texts are like. -/
namespace Markup
open Grammar Script

/-- The rule sees the two sides of every line break apart, and what it writes depends on the match alone. -/
def Rule.Local (g : Grammar) (r : Rule) : Prop :=
  ∃ name m f, r = .pattern name m f ∧ Rule.Progresses g m f ∧ Rule.Narrow f ∧ ∀ a b, m.Seam a b

theorem Rule.Local.seam {g : Grammar} {r : Rule} (h : r.Local g) : r.Seam g (fun _ => True) fun _ => True := by
  obtain ⟨name, m, f, rfl, hp, hn, hm⟩ := h
  exact seam_of_keeps hp hn (fun a b _ _ => hm a b) (fun _ _ _ _ _ _ _ _ => trivial) fun _ _ _ _ _ _ _ _ => trivial

namespace Line
open Pattern

theorem local_of_inLine {r : Rule} {name : String} {p : Pattern} {f : Match → Program (Option Text)} (hr : r ∈ rules)
    (h : r = .pattern name p.matcher f) (hn : Rule.Narrow f) (hl : p.inLine false = true) : r.Local dialect := by
  subst h
  exact ⟨name, p.matcher, f, rfl, progresses hr rfl, hn, matcher_seam_of_inLine hl⟩

theorem emphasis_local : emphasis.Local dialect :=
  ⟨_, _, _, rfl, progresses (r := emphasis) (by simp [rules]) rfl, fun _ _ _ => rfl,
    fun a b => (emphasisScanner_seam a b).matcher _⟩

theorem rules_local : ∀ r ∈ rules, r.Local dialect := by
  intro r hr
  have h := hr
  simp only [rules, List.mem_cons, List.not_mem_nil, or_false] at h
  rcases h with rfl | rfl | rfl | rfl | rfl | rfl | rfl
  · exact emphasis_local
  all_goals exact local_of_inLine hr rfl (fun _ _ _ => rfl) (by decide)

/-- Two texts of which nothing is known. -/
def anySides : Sides := ⟨fun _ => True, fun _ => True, Filled False⟩

theorem splits_anywhere : dialect.Splits rules anySides anySides :=
  splits_of_seams (fun r hr => (rules_local r hr).seam) fun n r hr => (rules_track (dialect_twin n) r hr).twin

end Line

variable {a b : Text}

/-- The line stage over two texts with a line break between them gives what it gives over each of them. -/
theorem lines_run_apart (ha : ¬ Token.marker <:+: a) (hb : ¬ Token.marker <:+: b) :
    ∃ x s₁ y s₂ z s, dialect.Runs .line a .empty x s₁ ∧ dialect.Runs .line b .empty y s₂ ∧
      dialect.Runs .line (a ++ '\n' :: b) .empty z s ∧
      s.detokenize z = s₁.detokenize x ++ '\n' :: s₂.detokenize y := by
  obtain ⟨x, s₁, hx⟩ := dialect_ends .line a .empty
  obtain ⟨y, s₂, hy⟩ := dialect_ends .line b .empty
  have hclean {t : Text} (ht : ¬ Token.marker <:+: t) : Same Clean .empty .empty t t :=
    (Document.same_early ht .empty .empty).imp fun _ hg => hg.1
  have hbegin : Split Line.anySides .empty .empty .empty a b a b :=
    ⟨(hclean ha).unfilled, (hclean hb).unfilled, trivial, trivial⟩
  obtain ⟨x', y', s, hrun, hsplit⟩ :=
    Line.splits_anywhere _ _ _ _ _ _ _ _ _ _ _ hbegin (runs_iff.1 hx) (runs_iff.1 hy)
  refine ⟨x, s₁, y, s₂, x' ++ '\n' :: y', s, hx, hy, runs_iff.2 hrun, ?_⟩
  rw [Store.detokenize_newline hsplit.same.of_filled hsplit.same'.of_filled, hsplit.same.of_filled.detokenize_eq,
    hsplit.same'.of_filled.detokenize_eq]

theorem lines_run_apart_of_emphasis : (¬ Token.marker <:+: "*a".toList ∧ ¬ Token.marker <:+: "b* ^c".toList) ∧
    ∃ x s₁ y s₂ z s, dialect.Runs .line "*a".toList .empty x s₁ ∧ dialect.Runs .line "b* ^c".toList .empty y s₂ ∧
      dialect.Runs .line ("*a".toList ++ '\n' :: "b* ^c".toList) .empty z s ∧
      s.detokenize z = s₁.detokenize x ++ '\n' :: s₂.detokenize y := by
  have h : ¬ Token.marker <:+: "*a".toList ∧ ¬ Token.marker <:+: "b* ^c".toList := by decide
  exact ⟨h, lines_run_apart h.1 h.2⟩

end Markup
