import Markup.Convert
import Markup.Proofs.File.Tree

/-! # Documents written next to each other

Each document is converted in the tree that the ones before it have left. A path that is not where its own file goes is
read as in the first tree, since no written file has its name; what a written file holds stays as long as nothing else
is written there. -/
namespace Markup.Tree
variable {t u v : Tree} {path q text x fragment : Text} {name other : List Text} {paths : List Text}

theorem run_read (t : Tree) (path : Text) : (storage.read path).run t = pure (t.read path, t) := rfl

theorem run_write (t : Tree) (path text : Text) : (storage.write path text).run t = pure (match t.write path text with
    | .ok u => (.ok (), u)
    | .error e => (.error e, t)) := by
  simp only [storage, StateT.run_bind, StateT.run_get, pure_bind]
  cases t.write path text <;> rfl

/-- Where the fragment of a document has gone, and the tree with it. -/
def written (t : Tree) (path : Text) : Except FileError Text × Tree :=
  match t.read path with
  | .error e => (.error e, t)
  | .ok text => match t.write (Path.withHtml path) (html text ++ ['\n']) with
    | .ok u => (.ok (Path.withHtml path), u)
    | .error e => (.error e, t)

theorem run_writeHtml (t : Tree) (path : Text) : (writeHtml storage path).run t = pure (t.written path) := by
  rw [writeHtml, StateT.run_bind, convertFile, StateT.run_bind, run_read, pure_bind, StateT.run_pure,
    pure_bind, written]
  cases t.read path with
  | error e => rfl
  | ok text =>
    simp only [Except.map, StateT.run_bind, run_write, pure_bind]
    cases t.write (Path.withHtml path) (html text ++ ['\n']) <;> rfl

/-- The document is converted into the file of the name. -/
structure Writes (t : Tree) (path : Text) (name : List Text) (text : Text) (u : Tree) : Prop where
  reads : t.read path = .ok text
  leads : t.resolve (Path.withHtml path) = .ok (some name)
  room : t.Room name
  put : u = t.put name (html text ++ ['\n'])

theorem exists_writes {target : Text} (h : t.written path = (.ok target, u)) :
    ∃ name text, t.Writes path name text u := by
  rw [written] at h
  cases hread : t.read path with
  | error e => simp [hread] at h
  | ok text =>
    cases hwrite : t.write (Path.withHtml path) (html text ++ ['\n']) with
    | error e => simp [hread, hwrite] at h
    | ok u' =>
      obtain ⟨-, rfl⟩ : Path.withHtml path = target ∧ u' = u := by simpa [hread, hwrite] using h
      obtain ⟨name, hname, hroom, rfl⟩ := write_eq_ok_iff.1 hwrite
      exact ⟨name, text, hread, hname, hroom, rfl⟩

namespace Writes

theorem node?_self (h : t.Writes path name text u) : u.node? name = some (.file (.text (html text ++ ['\n']))) := by
  rw [h.put]
  exact node?_put_self _ _ _

theorem node?_ne (h : t.Writes path name text u) (hne : other ≠ name) : u.node? other = t.node? other := by
  rw [h.put]
  exact node?_put_ne h.room hne

theorem sameDirectories (h : t.Writes path name text u) : t.SameDirectories u := by
  intro other
  by_cases heq : other = name
  · subst heq
    rw [h.node?_self]
    exact iff_of_false h.room.free (by simp)
  · rw [h.node?_ne heq]

/-- A document under the name of a written file is where its own file goes. -/
theorem withHtml_eq_self (h : t.Writes path name text u) (hq : v.resolve q = .ok (some name))
    (hdir : v.node? name ≠ some .directory) : Path.withHtml q = q := by
  obtain ⟨source, hsource, hfile⟩ := read_eq_ok_iff.1 h.reads
  obtain ⟨before, part, -, hparts, hpart, -⟩ := exists_parts hsource (by simp [hfile])
  obtain ⟨before', part', dir, hparts', hpart', rfl⟩ := exists_parts h.leads h.room.free
  obtain ⟨above, last, dir', hq, -, heq⟩ := exists_parts hq hdir
  rw [Path.parts_withHtml hparts hpart] at hparts'
  obtain ⟨-, rfl⟩ := List.append_singleton_inj.1 hparts'
  obtain ⟨-, rfl⟩ := List.append_singleton_inj.1 heq
  exact Path.withHtml_eq_self hq hpart hpart'

theorem read_eq_ok_iff (h : t.Writes path name text u) (hq : Path.withHtml q ≠ q) :
    u.read q = .ok x ↔ t.read q = .ok x := by
  rw [Tree.read_eq_ok_iff, Tree.read_eq_ok_iff]
  constructor
  · rintro ⟨source, hs, hfile⟩
    have hne : source ≠ name := fun heq => hq (h.withHtml_eq_self (heq ▸ hs) (by simp [← heq, hfile]))
    exact ⟨source, h.sameDirectories.symm.resolve hs, h.node?_ne hne ▸ hfile⟩
  · rintro ⟨source, hs, hfile⟩
    have hne : source ≠ name := fun heq => hq (h.withHtml_eq_self (heq ▸ hs) (by simp [← heq, hfile]))
    exact ⟨source, h.sameDirectories.resolve hs, (h.node?_ne hne).trans hfile⟩

end Writes

/-- The documents are converted one after the other. -/
inductive WritesAll : List Text → Tree → Tree → Prop
  | nil (t : Tree) : WritesAll [] t t
  | cons {path text : Text} {name : List Text} {paths : List Text} {t u v : Tree} (first : t.Writes path name text u)
      (rest : WritesAll paths u v) : WritesAll (path :: paths) t v

namespace WritesAll

theorem sameDirectories (h : WritesAll paths t u) : t.SameDirectories u := by
  induction h with
  | nil t => exact .refl t
  | cons first _ ih => exact first.sameDirectories.trans ih

theorem append_cons {before after : List Text} (h : WritesAll (before ++ path :: after) t v) :
    ∃ t₁ t₂ name text, WritesAll before t t₁ ∧ t₁.Writes path name text t₂ ∧ WritesAll after t₂ v := by
  induction before generalizing t with
  | nil =>
    cases h with
    | cons first rest => exact ⟨t, _, _, _, .nil t, first, rest⟩
  | cons q before ih =>
    cases h with
    | cons first rest =>
      obtain ⟨t₁, t₂, name, text, hbefore, hwrites, hafter⟩ := ih rest
      exact ⟨t₁, t₂, name, text, .cons first hbefore, hwrites, hafter⟩

/-- Nothing changes but the files that the documents are converted to. -/
theorem node?_eq (h : WritesAll paths t u) (hname : ∀ q ∈ paths, t.resolve (Path.withHtml q) ≠ .ok (some name)) :
    u.node? name = t.node? name := by
  induction h with
  | nil => rfl
  | @cons path text target paths t mid u first _ ih =>
    rw [List.forall_mem_cons] at hname
    have hne : name ≠ target := fun heq => hname.1 (heq ▸ first.leads)
    rw [ih fun q hq hr => hname.2 q hq (first.sameDirectories.symm.resolve hr), first.node?_ne hne]

theorem read_eq_ok_iff (h : WritesAll paths t u) (hq : Path.withHtml q ≠ q) : u.read q = .ok x ↔ t.read q = .ok x := by
  induction h with
  | nil => rfl
  | cons first _ ih => exact ih.trans (first.read_eq_ok_iff hq)

/-- A written file holds its text until a document with another text is converted to it. -/
theorem holds (h : WritesAll paths t u) (hname : t.node? name = some (.file (.text fragment)))
    (hsame : ∀ q ∈ paths, t.resolve (Path.withHtml q) = .ok (some name) →
      Path.withHtml q ≠ q ∧ ∃ text, t.read q = .ok text ∧ html text ++ ['\n'] = fragment) :
    u.node? name = some (.file (.text fragment)) := by
  induction h with
  | nil => exact hname
  | @cons path text target paths t mid u first _ ih =>
    rw [List.forall_mem_cons] at hsame
    refine ih ?_ fun q hq hr => ?_
    · by_cases heq : name = target
      · subst heq
        obtain ⟨-, text', hread, rfl⟩ := hsame.1 first.leads
        obtain rfl : text = text' := Except.ok.inj (first.reads.symm.trans hread)
        exact first.node?_self
      · rw [first.node?_ne heq, hname]
    · obtain ⟨hne, text', hread, hfragment⟩ := hsame.2 q hq (first.sameDirectories.symm.resolve hr)
      exact ⟨hne, text', (first.read_eq_ok_iff hne).2 hread, hfragment⟩

/-- A document is still what it was when its turn comes, if it has not been written itself. -/
theorem read_of_read (h : WritesAll paths t u) (hread : u.read q = .ok x)
    (hown : Path.withHtml q = q → ∀ p ∈ paths, t.resolve (Path.withHtml p) ≠ t.resolve q) : t.read q = .ok x := by
  by_cases hq : Path.withHtml q = q
  · obtain ⟨name, hname, hfile⟩ := Tree.read_eq_ok_iff.1 hread
    have hleads := h.sameDirectories.symm.resolve hname
    have hsame : u.node? name = t.node? name := h.node?_eq fun p hp => hleads ▸ hown hq p hp
    exact Tree.read_eq_ok_iff.2 ⟨name, hleads, hsame ▸ hfile⟩
  · exact (h.read_eq_ok_iff hq).1 hread

/-- A document leaves its fragment in its file, unless another document with another fragment goes to the same file, or
one of the two is that file. -/
theorem saves {before after : List Text} (h : WritesAll (before ++ path :: after) t u)
    (halone : ∀ q ∈ before ++ after, t.resolve (Path.withHtml q) = t.resolve (Path.withHtml path) →
      (t.read q).map html = (t.read path).map html ∧ Path.withHtml path ≠ path ∧ Path.withHtml q ≠ q) :
    ∃ text, t.read path = .ok text ∧ u.read (Path.withHtml path) = .ok (html text ++ ['\n']) := by
  obtain ⟨t₁, t₂, name, text, hbefore, hwrites, hafter⟩ := h.append_cons
  have hdirs : t.SameDirectories t₂ := hbefore.sameDirectories.trans hwrites.sameDirectories
  have hleads : t.resolve (Path.withHtml path) = .ok (some name) := hbefore.sameDirectories.symm.resolve hwrites.leads
  have hread : t.read path = .ok text := by
    refine hbefore.read_of_read hwrites.reads fun hown q hq hsame => ?_
    exact (halone q (List.mem_append_left _ hq) (hsame.trans (congrArg _ hown.symm))).2.1 hown
  have hholds : u.node? name = some (.file (.text (html text ++ ['\n']))) := by
    refine hafter.holds hwrites.node?_self fun q hq hr => ?_
    have hsame := (hdirs.symm.resolve hr).trans hleads.symm
    obtain ⟨hfragment, -, hne⟩ := halone q (List.mem_append_right _ hq) hsame
    rw [hread] at hfragment
    obtain ⟨other, hother, heq⟩ := map_eq_ok_iff.1 hfragment
    exact ⟨hne, other, (hwrites.read_eq_ok_iff hne).2 ((hbefore.read_eq_ok_iff hne).2 hother), by rw [heq]⟩
  exact ⟨text, hread, Tree.read_eq_ok_iff.2 ⟨name, (hdirs.trans hafter.sameDirectories).resolve hleads, hholds⟩⟩

end WritesAll

end Markup.Tree
