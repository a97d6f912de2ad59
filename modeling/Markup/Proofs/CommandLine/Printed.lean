import Markup.Proofs.CommandLine.Options
import Markup.Proofs.Dialect.Ends
import Markup.Proofs.File.Written

/-! # Runs that print

A run that prints reads its documents one after the other and changes none of them. What a document adds to the two
outputs depends on that document alone, so one that cannot be read takes nothing away from the others. -/
namespace Markup

namespace Tree
variable {t : Tree} {path : Text} {paths : List Text}

/-- What is printed for a document: its fragment and a line break, or nothing when it cannot be read. -/
def shown (t : Tree) (path : Text) : Text :=
  match t.read path with
  | .ok text => html text ++ ['\n']
  | .error _ => []

/-- What is said about a document that cannot be read. -/
def reported (t : Tree) (path : Text) : Text :=
  match t.read path with
  | .ok _ => []
  | .error e => "expressiv: failed to read ".toList ++ path ++ ": ".toList ++ e.message.toList ++ ['\n']

/-- How many of the documents cannot be read. -/
def failures (t : Tree) (paths : List Text) : Nat := paths.countP fun path => !(t.read path).isOk

theorem failures_eq_zero_iff : t.failures paths = 0 ↔ ∀ path ∈ paths, ∃ text, t.read path = .ok text := by
  rw [failures, List.countP_eq_zero]
  refine forall₂_congr fun path _ => ?_
  cases t.read path <;> simp [Except.isOk, Except.toBool]

end Tree

namespace CommandLine
open Markup.Tree

/-- What becomes of a document that is only read. -/
def readResult (t : Tree) (path : Text) : FileResult := ⟨path, (t.read path).map fun text => html text ++ ['\n']⟩

theorem run_readFile (t : Tree) (path : Text) :
    (handleFile storage false path).run t = pure (readResult t path, t) := by
  rw [handleFile, if_neg Bool.false_ne_true, StateT.run_bind, convertFile, StateT.run_bind, run_read, pure_bind,
    StateT.run_pure, pure_bind, StateT.run_pure, readResult]
  cases t.read path <;> rfl

/-- The documents are read one after the other, each in the tree that was there before the run. -/
theorem run_readFiles (t : Tree) (paths : List Text) :
    (paths.mapM (handleFile storage false)).run t = pure (paths.map (readResult t), t) := by
  induction paths with
  | nil => rfl
  | cons path paths ih =>
    rw [List.mapM_cons, StateT.run_bind, run_readFile, pure_bind, StateT.run_bind, ih, pure_bind, StateT.run_pure]
    rfl

theorem failed_readResult (t : Tree) (path : Text) : (readResult t path).failed = !(t.read path).isOk := by
  rw [readResult, FileResult.failed]
  cases t.read path <;> rfl

theorem printed_readResult (t : Tree) (path : Text) : (readResult t path).printed = t.shown path := by
  rw [readResult, FileResult.printed, shown]
  cases t.read path <;> rfl

theorem complaint_readResult (t : Tree) (path : Text) : (readResult t path).complaint false = t.reported path := by
  rw [readResult, FileResult.complaint, reported]
  cases t.read path <;> rfl

theorem failures_readResults (t : Tree) (paths : List Text) :
    ((paths.map (readResult t)).filter FileResult.failed).length = t.failures paths := by
  rw [← List.countP_eq_length_filter, List.countP_map, failures]
  exact List.countP_congr fun path _ => by rw [Function.comp_apply, failed_readResult]

/-- What is said in the end about the number of documents that failed. -/
def verdict (failures : Nat) : Text :=
  if failures = 0 then []
  else "Error: ".toList ++ Nat.toDigits 10 failures ++ " file(s) failed to convert\n".toList

theorem summarize_readResults {o : Options} (hw : o.write = false) (t : Tree) (paths : List Text) :
    ∃ log, (o.verbose = false → log = []) ∧ summarize o (paths.map (readResult t)) =
      ⟨if t.failures paths = 0 then 0 else 1, paths.flatMap t.shown,
        log ++ paths.flatMap t.reported ++ verdict (t.failures paths)⟩ := by
  refine ⟨if o.verbose then (paths.map (readResult t)).flatMap FileResult.logLine else [], ?_, ?_⟩
  · intro hv
    rw [hv]
    rfl
  · simp only [summarize, verdict, failures_readResults, hw, List.flatMap_map, printed_readResult, complaint_readResult]

/-- A document that fails affects no other: each document that can be read adds its fragment to the output, each other
one its report to the errors, both in the order of the arguments, and no file changes. -/
theorem failing_document_affects_no_other (t : Tree) (stdin : StateM Tree Content) (files : List Text)
    (hne : files ≠ []) :
    ([] ∉ files → parse ("--".toList :: files) = .ok (.convert ⟨false, false, files⟩)) ∧
    ∀ args verbose, parse args = .ok (.convert ⟨false, verbose, files⟩) →
      ∃ outcome, (run storage stdin args).run t = (outcome, t) ∧
        outcome.stdout = files.flatMap t.shown ∧
        (∀ path ∈ files, ∀ text, t.read path = .ok text → dialect.Converts text (html text)) ∧
        (∃ log, (verbose = false → log = []) ∧
          outcome.stderr = log ++ files.flatMap t.reported ++ verdict (t.failures files)) ∧
        ((∃ path ∈ files, ∃ e, t.read path = .error e) → outcome.code = 1) ∧
        ((∀ path ∈ files, ∃ text, t.read path = .ok text) → outcome.code = 0) := by
  refine ⟨parse_print, fun args verbose hargs => ?_⟩
  obtain ⟨log, hlog, hsummary⟩ := summarize_readResults (o := ⟨false, verbose, files⟩) rfl t files
  have hrun : (run storage stdin args).run t =
      pure (summarize ⟨false, verbose, files⟩ (files.map (readResult t)), t) :=
    run_files hargs hne (run_readFiles t files)
  rw [hsummary] at hrun
  refine ⟨_, hrun, rfl, fun _ _ text _ => converts_html text, ⟨log, hlog, rfl⟩, ?_, ?_⟩
  · rintro ⟨path, hpath, e, he⟩
    refine if_neg fun hzero => ?_
    obtain ⟨text, htext⟩ := failures_eq_zero_iff.1 hzero path hpath
    rw [he] at htext
    contradiction
  · intro hall
    exact if_pos (failures_eq_zero_iff.2 hall)

theorem failing_document_affects_no_other_of_mixture :
    let t : Tree := ⟨[(["a.x".toList], .file (.text "x".toList)), (["b.x".toList], .file (.binary [0xFF])),
      (["d".toList], .directory)]⟩
    let files := ["c.x".toList, "a.x".toList, "d".toList, "b.x".toList, "a.x".toList]
    ∃ outcome, (run storage (pure (.text [])) ("--".toList :: files)).run t = (outcome, t) ∧ outcome.code = 1 ∧
      outcome.stdout = "<p>\nx\n</p>\n<p>\nx\n</p>\n".toList ∧
      outcome.stderr = "expressiv: failed to read c.x: No such file or directory (os error 2)\n".toList ++
        "expressiv: failed to read d: Is a directory (os error 21)\n".toList ++
        "expressiv: failed to read b.x: stream did not contain valid UTF-8\n".toList ++
        "Error: 3 file(s) failed to convert\n".toList := by
  intro t files
  obtain ⟨hparse, hrun⟩ := failing_document_affects_no_other t (pure (.text [])) files (by decide)
  obtain ⟨outcome, houtcome, hout, -, ⟨log, hlog, herr⟩, hcode, -⟩ := hrun _ _ (hparse (by decide))
  refine ⟨outcome, houtcome, hcode ⟨"c.x".toList, List.mem_cons_self, .notFound, rfl⟩, ?_, ?_⟩
  · rw [hout]
    decide +kernel
  · rw [herr, hlog rfl]
    decide +kernel

end CommandLine
end Markup
