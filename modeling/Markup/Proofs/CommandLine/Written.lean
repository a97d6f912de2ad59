import Markup.Proofs.CommandLine.Options
import Markup.Proofs.File.Written

/-! # Runs that write

The documents are handled one after the other, and a run that ends well has written them all. Two of them may go to the
same file, which then holds only one of their texts. -/
namespace Markup

namespace Tree

/-- What has become of each document, and the tree after the last one. -/
def writtenAll (t : Tree) : List Text → List CommandLine.FileResult × Tree
  | [] => ([], t)
  | path :: paths =>
    let first := t.written path
    let rest := first.2.writtenAll paths
    (⟨path, first.1.map fun _ => []⟩ :: rest.1, rest.2)

theorem writesAll_of_writtenAll {t u : Tree} {paths : List Text} {results : List CommandLine.FileResult}
    (h : t.writtenAll paths = (results, u)) (hok : ∀ r ∈ results, r.failed = false) : WritesAll paths t u := by
  induction paths generalizing t results with
  | nil =>
    obtain ⟨rfl, rfl⟩ := Prod.mk.inj h
    exact .nil t
  | cons path paths ih =>
    obtain ⟨rfl, rfl⟩ := Prod.mk.inj h
    rw [List.forall_mem_cons] at hok
    cases hresult : (t.written path).1 with
    | error e => simp [CommandLine.FileResult.failed, hresult, Except.map] at hok
    | ok target =>
      have hwritten : t.written path = (.ok target, (t.written path).2) := Prod.ext hresult rfl
      obtain ⟨name, text, hwrites⟩ := exists_writes hwritten
      exact .cons hwrites (ih rfl hok.2)

end Tree

namespace CommandLine
open Markup.Tree
variable {t u : Tree} {stdin : StateM Tree Content} {args : List Text} {o : Options} {outcome : Outcome}

theorem run_handleFile (t : Tree) (path : Text) : (handleFile storage true path).run t =
    pure (⟨path, (t.written path).1.map fun _ => []⟩, (t.written path).2) := by
  rw [handleFile, if_pos rfl, StateT.run_bind, run_writeHtml, pure_bind, StateT.run_pure]

theorem run_handleFiles (t : Tree) (paths : List Text) :
    (paths.mapM (handleFile storage true)).run t = pure (t.writtenAll paths) := by
  induction paths generalizing t with
  | nil => rfl
  | cons path paths ih =>
    rw [List.mapM_cons, StateT.run_bind, run_handleFile, pure_bind, StateT.run_bind, ih, pure_bind, StateT.run_pure]
    rfl

theorem code_eq_zero_iff {results : List FileResult} :
    (summarize o results).code = 0 ↔ ∀ r ∈ results, r.failed = false := by
  have hnone : (results.filter FileResult.failed).length = 0 ↔ ∀ r ∈ results, r.failed = false := by
    rw [List.length_eq_zero_iff, List.filter_eq_nil_iff]
    simp
  rw [← hnone, summarize]
  by_cases h : (results.filter FileResult.failed).length = 0 <;> simp [h]

theorem run_of_parse (hargs : parse args = .ok (.convert o)) (hw : o.write = true) :
    (run storage stdin args).run t = pure (summarize o (t.writtenAll o.files).1, (t.writtenAll o.files).2) := by
  refine run_files hargs (files_ne_nil_of_parse hargs hw) ?_
  rw [hw]
  exact run_handleFiles t o.files

/-- A run that writes and ends well has converted every document. -/
theorem writesAll_of_run (hargs : parse args = .ok (.convert o)) (hw : o.write = true)
    (hrun : (run storage stdin args).run t = (outcome, u)) (hcode : outcome.code = 0) : WritesAll o.files t u := by
  obtain ⟨rfl, rfl⟩ := Prod.mk.inj (hrun.symm.trans (run_of_parse hargs hw))
  exact writesAll_of_writtenAll rfl (code_eq_zero_iff.1 hcode)

/-- A run that writes and ends well leaves the fragment of every document in its file, unless another document with
another fragment goes to the same file, or one of the two is that file. It changes no other file. -/
theorem write_saves_outputs (hargs : parse args = .ok (.convert o)) (hw : o.write = true)
    (hrun : (run storage stdin args).run t = (outcome, u)) (hcode : outcome.code = 0) :
    (∀ before p after, o.files = before ++ p :: after →
      (∀ q ∈ before ++ after, t.resolve (Path.withHtml q) = t.resolve (Path.withHtml p) →
        (t.read q).map html = (t.read p).map html ∧ Path.withHtml p ≠ p ∧ Path.withHtml q ≠ q) →
      ∃ text, t.read p = .ok text ∧ u.read (Path.withHtml p) = .ok (html text ++ ['\n'])) ∧
    ∀ name, (∀ p ∈ o.files, t.resolve (Path.withHtml p) ≠ .ok (some name)) → u.node? name = t.node? name := by
  have hall := writesAll_of_run hargs hw hrun hcode
  exact ⟨fun before p after hfiles halone => (hfiles ▸ hall).saves halone, fun name hname => hall.node?_eq hname⟩

theorem write_saves_output_of_document_given_twice :
    let t : Tree := ⟨[(["a.x".toList], .file (.text "x".toList))]⟩
    let args := ["--write".toList, "--".toList, "a.x".toList, "./a.x".toList]
    ∃ outcome u, (run storage (pure (.text [])) args).run t = (outcome, u) ∧ outcome.code = 0 ∧
      u.read "a.html".toList = .ok (html "x".toList ++ ['\n']) := by
  intro t args
  have hargs : parse args = .ok (.convert ⟨true, false, ["a.x".toList, "./a.x".toList]⟩) :=
    parse_write (by decide) (by decide)
  have hrun := @run_of_parse t (pure (.text [])) _ _ hargs rfl
  have hcode : (summarize ⟨true, false, ["a.x".toList, "./a.x".toList]⟩
    (t.writtenAll ["a.x".toList, "./a.x".toList]).1).code = 0 := by decide +kernel
  obtain ⟨text, hread, hsaved⟩ := (write_saves_outputs hargs rfl hrun hcode).1 [] "a.x".toList ["./a.x".toList] rfl
    fun q hq _ => by
      obtain rfl := List.mem_singleton.1 hq
      exact ⟨congrArg _ rfl, by decide, by decide⟩
  have hx : t.read "a.x".toList = .ok "x".toList := rfl
  obtain rfl : "x".toList = text := Except.ok.inj (hx.symm.trans hread)
  exact ⟨_, _, hrun, hcode, hsaved⟩

theorem write_loses_output_of_two_documents :
    let t : Tree := ⟨[(["a.x".toList], .file (.text "x".toList)), (["a.y".toList], .file (.text "y".toList))]⟩
    let args := ["--write".toList, "--".toList, "a.x".toList, "a.y".toList]
    ∃ outcome u, (run storage (pure (.text [])) args).run t = (outcome, u) ∧ outcome.code = 0 ∧
      t.read "a.x".toList = .ok "x".toList ∧
      u.read (Path.withHtml "a.x".toList) ≠ .ok (html "x".toList ++ ['\n']) := by
  intro t args
  have hargs : parse args = .ok (.convert ⟨true, false, ["a.x".toList, "a.y".toList]⟩) :=
    parse_write (by decide) (by decide)
  have hrun := @run_of_parse t (pure (.text [])) _ _ hargs rfl
  refine ⟨_, _, hrun, by decide +kernel, rfl, ?_⟩
  have hother : (t.writtenAll ["a.x".toList, "a.y".toList]).2.read (Path.withHtml "a.x".toList) =
    .ok (html "y".toList ++ ['\n']) := rfl
  rw [hother]
  have hne : html "y".toList ++ ['\n'] ≠ html "x".toList ++ ['\n'] := by decide +kernel
  exact fun h => hne (Except.ok.inj h)

end CommandLine
end Markup
