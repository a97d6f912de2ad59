import Markup.Rule.Stage
import Markup.Token.Store

/-! # Programs

What the code of a rule may ask for while it makes a replacement: to run a stage over a text, to mint a token, and to
look at the tokens minted so far. A program is the tree of its requests. The code of a rule is assumed to use its
context for these requests only: it runs stages, tokenizes, detokenizes and reads the tokens, and it does not put
another context in the place of the one it is given. -/
namespace Markup

inductive Program (α : Type) where
  | done (result : α)
  | run (stage : Stage) (text : Text) (next : Text → Program α)
  | mint (value : Text) (next : Text → Program α)
  | inspect (next : Store → Program α)

namespace Program
variable {α β γ : Type}

def bind : Program α → (α → Program β) → Program β
  | done a, f => f a
  | run stage text next, f => run stage text fun t => (next t).bind f
  | mint value next, f => mint value fun t => (next t).bind f
  | inspect next, f => inspect fun s => (next s).bind f

instance : Monad Program where
  pure := done
  bind := bind

theorem bind_done (p : Program α) : p.bind done = p := by
  induction p with
  | done => rfl
  | run _ _ _ ih => simp [bind, ih]
  | mint _ _ ih => simp [bind, ih]
  | inspect _ ih => simp [bind, ih]

theorem bind_bind (p : Program α) (f : α → Program β) (g : β → Program γ) :
    (p.bind f).bind g = p.bind fun a => (f a).bind g := by
  induction p with
  | done => rfl
  | run _ _ _ ih => simp [bind, ih]
  | mint _ _ ih => simp [bind, ih]
  | inspect _ ih => simp [bind, ih]

instance : LawfulMonad Program := .mk' Program bind_done (fun _ _ => rfl) bind_bind

def rerun (stage : Stage) (text : Text) : Program Text := run stage text done

def hide (value : Text) : Program Text := mint value done

def reveal (text : Text) : Program Text := inspect fun s => done (s.detokenize text)

/-- Answers the requests one after the other; `none` when a run of a stage gives no answer. -/
def eval (answer : Stage → Text → Store → Option (Text × Store)) : Program α → Store → Option (α × Store)
  | done a, s => some (a, s)
  | run stage text next, s =>
    match answer stage text s with
    | some (t, s') => (next t).eval answer s'
    | none => none
  | mint value next, s => (next (s.mint value).1).eval answer (s.mint value).2
  | inspect next, s => (next s).eval answer s

variable (answer : Stage → Text → Store → Option (Text × Store))

@[simp] theorem eval_pure (a : α) (s : Store) : (pure a : Program α).eval answer s = some (a, s) := rfl

theorem eval_bind (p : Program α) (f : α → Program β) (s : Store) :
    (p >>= f).eval answer s = (p.eval answer s).bind fun r => (f r.1).eval answer r.2 := by
  change (p.bind f).eval answer s = _
  induction p generalizing s with
  | done => rfl
  | run stage text next ih =>
    simp only [bind, eval]
    split
    · exact ih _ _
    · rfl
  | mint value next ih => exact ih _ _
  | inspect next ih => exact ih _ _

end Program
end Markup
