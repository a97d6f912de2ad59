import Markup.CommandLine

/-! # Readings of the arguments

What a reading of the arguments asks for. Only its end asks for documents, and it refuses to write none. A run that is
asked for documents handles them in their order. -/
namespace Markup.CommandLine
variable {o o' : Options} {args : List Text} {arg : Text} {flag : Flag} {request : Request}

theorem Options.files_ne_nil_of_finish (h : o.finish = .ok (.convert o')) (hw : o'.write = true) : o'.files ≠ [] := by
  rw [finish] at h
  split at h
  · contradiction
  split at h
  · contradiction
  · next hnone =>
    obtain rfl := Request.convert.inj (Except.ok.inj h)
    rintro hnil
    exact hnone (by simp [hw, hnil])

theorem Options.take_ne_convert : o.take arg flag ≠ .ok (.inr (.convert o')) := by
  intro h
  rw [take.eq_def] at h
  split at h
  · contradiction
  cases flag with
  | write => cases hw : o.write <;> simp [hw] at h
  | verbose => cases hv : o.verbose <;> simp [hv] at h
  | help => simp at h
  | version => simp at h

theorem Options.takeShort_ne_convert {flags : Text} : o.takeShort arg flags ≠ .ok (.inr (.convert o')) := by
  induction flags generalizing o with
  | nil => simp [takeShort]
  | cons c cs ih =>
    rw [takeShort]
    split
    · simp
    · split
      · exact ih
      · next hnot => exact take_ne_convert

theorem Options.takeLong_ne_convert {name : Text} : o.takeLong arg name ≠ .ok (.inr (.convert o')) := by
  rw [takeLong]
  split
  · simp
  · split
    · simp
    · exact take_ne_convert

theorem files_ne_nil_of_readArgs (h : readArgs o args = .ok (.convert o')) (hw : o'.write = true) : o'.files ≠ [] := by
  have hgo {args : List Text} (ih : ∀ o, readArgs o args = .ok (.convert o') → o'.files ≠ [])
      {taken : Except UsageError (Options ⊕ Request)} (htaken : taken ≠ .ok (.inr (.convert o')))
      (h : readArgs.goOn args taken = .ok (.convert o')) : o'.files ≠ [] := by
    rcases taken with e | o | request
    · simp [readArgs.goOn] at h
    · rw [readArgs.goOn] at h
      exact ih o h
    · rw [readArgs.goOn] at h
      rw [Except.ok.inj h] at htaken
      exact absurd rfl htaken
  induction args generalizing o with
  | nil =>
    rw [readArgs] at h
    exact Options.files_ne_nil_of_finish h hw
  | cons arg args ih =>
    rw [readArgs.eq_def] at h
    simp only at h
    split at h
    · exact Options.files_ne_nil_of_finish h hw
    · exact hgo (fun o h => ih h) Options.takeLong_ne_convert h
    · exact hgo (fun o h => ih h) Options.takeShort_ne_convert h
    · exact ih h

theorem files_ne_nil_of_parse (h : parse args = .ok (.convert o)) (hw : o.write = true) : o.files ≠ [] :=
  files_ne_nil_of_readArgs h hw

theorem parse_print (hfull : [] ∉ args) : parse ("--".toList :: args) = .ok (.convert ⟨false, false, args⟩) := by
  simp [parse, readArgs, Options.finish, hfull]

theorem parse_write (hne : args ≠ []) (hfull : [] ∉ args) :
    parse ("--write".toList :: "--".toList :: args) = .ok (.convert ⟨true, false, args⟩) := by
  simp [parse, readArgs, readArgs.goOn, Options.takeLong, Flag.ofLong?, Options.take, Options.finish, hne, hfull]

/-- A run comes to what its documents come to one after the other. -/
theorem run_files {t u : Tree} {stdin : StateM Tree Content} {results : List FileResult}
    (hargs : parse args = .ok (.convert o)) (hne : o.files ≠ [])
    (h : (o.files.mapM (handleFile Tree.storage o.write)).run t = pure (results, u)) :
    (run Tree.storage stdin args).run t = pure (summarize o results, u) := by
  have hsome : o.files.isEmpty = false := by simpa using hne
  simp only [run, hargs, hsome, Bool.false_eq_true, if_false, StateT.run_bind, h, pure_bind, StateT.run_pure]

end Markup.CommandLine
