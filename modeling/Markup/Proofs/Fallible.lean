/-! # Computations that may fail

How a computation that ends in a result or an error goes on. -/
namespace Markup
variable {ε α β : Type}

@[simp] theorem ok_bind (a : α) (f : α → Except ε β) : (Except.ok a >>= f) = f a := rfl

@[simp] theorem error_bind (e : ε) (f : α → Except ε β) : (Except.error e >>= f) = .error e := rfl

@[simp] theorem throw_eq (e : ε) : (throw e : Except ε α) = .error e := rfl

@[simp] theorem pure_eq (a : α) : (pure a : Except ε α) = .ok a := rfl

theorem bind_eq_ok_iff {x : Except ε α} {f : α → Except ε β} {b : β} :
    (x >>= f) = .ok b ↔ ∃ a, x = .ok a ∧ f a = .ok b := by
  cases x <;> simp

theorem map_eq_ok_iff {x : Except ε α} {f : α → β} {b : β} : x.map f = .ok b ↔ ∃ a, x = .ok a ∧ f a = b := by
  cases x <;> simp [Except.map]

/-- The second question is asked where the answer to the first is yes. -/
@[simp] theorem ok_and (b : Bool) (x : Except ε Bool) : (Except.ok b <&&> x) = if b then x else .ok false := by
  cases b <;> rfl

/-- The first of two answers; the second is looked at where the first finds nothing. -/
def firstFound (a b : Except ε (Option α)) : Except ε (Option α) := do
  match ← a with
  | some x => return some x
  | none => b

@[simp] theorem firstFound_some (a : α) (b : Except ε (Option α)) : firstFound (.ok (some a)) b = .ok (some a) := rfl

@[simp] theorem firstFound_none (b : Except ε (Option α)) : firstFound (.ok none) b = b := rfl

end Markup
