import Markup.File.Tree
import Markup.Proofs.Fallible
import Markup.Proofs.File.Path

/-! # Reading and writing in a tree

A write that succeeds sets one file and leaves every other name as it was. Which place a path leads to depends on the
directories alone, so no write changes it. -/
namespace Markup.Tree

variable {t u t' : Tree} {here there : Option (List Text)} {name other : List Text} {path part text : Text}

def names (t : Tree) : List (List Text) := t.nodes.map (·.1)

/-- Something lies below the name, or has it; the root is always there. -/
def Covers (t : Tree) (name : List Text) : Prop := name = [] ∨ ∃ below ∈ t.names, name <+: below

theorem Covers.above {dir : List Text} (h : t.Covers name) (hd : dir <+: name) : t.Covers dir := by
  rcases h with rfl | ⟨below, hb, hn⟩
  · exact .inl (List.prefix_nil.1 hd)
  · exact .inr ⟨below, hb, hd.trans hn⟩

theorem node?_of_entry {e : List Text × Node} (h : t.nodes.find? (·.1 == name) = some e) : t.node? name = some e.2 := by
  rw [node?, h]

theorem node?_of_no_entry (h : t.nodes.find? (·.1 == name) = none) :
    (t.Covers name → t.node? name = some .directory) ∧ (¬ t.Covers name → t.node? name = none) := by
  have hany : (t.nodes.any fun e => name.isPrefixOf e.1) = true ↔ ∃ below ∈ t.names, name <+: below := by simp [names]
  have hroot : name.isEmpty = true ↔ name = [] := List.isEmpty_iff
  rw [node?, h, Covers]
  constructor
  · rintro (hname | hbelow)
    · simp only [hroot.2 hname, if_true, ite_self]
    · exact if_pos (hany.2 hbelow)
  · intro hnot
    rw [not_or] at hnot
    exact (if_neg fun he => hnot.2 (hany.1 he)).trans (if_neg fun he => hnot.1 (hroot.1 he))

theorem covers_of_directory (h : t.node? name = some .directory) : t.Covers name := by
  cases hf : t.nodes.find? (·.1 == name) with
  | some e =>
    have hname : e.1 = name := by simpa using List.find?_some hf
    exact .inr ⟨e.1, List.mem_map_of_mem (List.mem_of_find?_eq_some hf), hname ▸ List.prefix_rfl⟩
  | none =>
    refine Classical.byContradiction fun hnot => ?_
    rw [(node?_of_no_entry hf).2 hnot] at h
    contradiction

/-- The entries with the file under its name. -/
def enter (name : List Text) (text : Text) (e : List Text × Node) : List Text × Node :=
  if e.1 == name then (name, .file (.text text)) else e

theorem enter_fst (name : List Text) (text : Text) (e : List Text × Node) : (enter name text e).1 = e.1 := by
  rw [enter]
  split
  · next h => exact (eq_of_beq h).symm
  · rfl

theorem put_eq (t : Tree) (name : List Text) (text : Text) : (t.put name text).nodes =
    if name ∈ t.names then t.nodes.map (enter name text) else t.nodes ++ [(name, .file (.text text))] := by
  have hmem : (t.nodes.any (·.1 == name)) = true ↔ name ∈ t.names := by
    simp [names]
  rw [put]
  by_cases h : name ∈ t.names
  · rw [if_pos h, if_pos (hmem.2 h)]
    rfl
  · rw [if_neg h, if_neg fun ha => h (hmem.1 ha)]

theorem mem_names_put {below : List Text} : below ∈ (t.put name text).names ↔ below ∈ t.names ∨ below = name := by
  have hfst : t.nodes.map (fun e => (enter name text e).1) = t.names :=
    List.map_congr_left fun e _ => enter_fst name text e
  rw [names, put_eq]
  split
  · next h =>
    rw [List.map_map, show (·.1) ∘ enter name text = fun e => (enter name text e).1 from rfl, hfst]
    exact (or_iff_left_of_imp fun hb => hb ▸ h).symm
  · simp [names]

theorem find?_put_self (t : Tree) (name : List Text) (text : Text) :
    (t.put name text).nodes.find? (·.1 == name) = some (name, .file (.text text)) := by
  rw [put_eq]
  split
  · next h =>
    obtain ⟨e, he, hn⟩ := List.mem_map.1 h
    obtain ⟨e', hf⟩ : ∃ e', t.nodes.find? (·.1 == name) = some e' := by
      refine Option.isSome_iff_exists.1 (List.find?_isSome.2 ⟨e, he, beq_iff_eq.2 hn⟩)
    have hname := List.find?_some hf
    simp only [List.find?_map, Function.comp_def, enter_fst, hf, Option.map_some]
    rw [enter, if_pos hname]
  · next h =>
    have hnone : t.nodes.find? (·.1 == name) = none := List.find?_eq_none.2 fun e he hn =>
      h (List.mem_map.2 ⟨e, he, beq_iff_eq.1 hn⟩)
    simp [List.find?_append, hnone]

theorem find?_put_ne (hne : other ≠ name) :
    (t.put name text).nodes.find? (·.1 == other) = t.nodes.find? (·.1 == other) := by
  rw [put_eq]
  split
  · simp only [List.find?_map, Function.comp_def, enter_fst]
    cases hf : t.nodes.find? (·.1 == other) with
    | none => rfl
    | some e =>
      have hname : e.1 = other := by simpa using List.find?_some hf
      rw [Option.map_some, enter, if_neg (by simpa [hname] using hne)]
  · simp [List.find?_append, Ne.symm hne]

theorem node?_put_self (t : Tree) (name : List Text) (text : Text) :
    (t.put name text).node? name = some (.file (.text text)) := node?_of_entry (find?_put_self t name text)

/-- The directory of the place is there, and the place is none itself. -/
structure Room (t : Tree) (name : List Text) : Prop where
  free : t.node? name ≠ some .directory
  parent : t.node? name = none → t.node? name.dropLast = some .directory

theorem room_iff : t.Room name ↔
    t.node? name ≠ some .directory ∧ (t.node? name = none → t.node? name.dropLast = some .directory) :=
  ⟨fun h => ⟨h.free, h.parent⟩, fun h => ⟨h.1, h.2⟩⟩

theorem Room.covers (h : t.Room name) (hup : other <+: name) (hne : other ≠ name) : t.Covers other := by
  by_cases hname : t.Covers name
  · exact hname.above hup
  · have hnone : t.nodes.find? (·.1 == name) = none := List.find?_eq_none.2 fun e he hn =>
      hname (.inr ⟨e.1, List.mem_map_of_mem he, beq_iff_eq.1 hn ▸ List.prefix_rfl⟩)
    have hdir := h.parent ((node?_of_no_entry hnone).2 hname)
    obtain ⟨rest, rfl⟩ := hup
    have hrest : rest ≠ [] := fun hr => hne (by rw [hr, List.append_nil])
    rw [List.dropLast_append_of_ne_nil hrest] at hdir
    exact (covers_of_directory hdir).above (List.prefix_append other _)

/-- A file comes under no new directory. -/
theorem covers_put_iff (h : t.Room name) (hne : other ≠ name) : (t.put name text).Covers other ↔ t.Covers other := by
  simp only [Covers, mem_names_put, or_and_right, exists_or, exists_eq_left, ← or_assoc]
  exact or_iff_left_of_imp fun hother => h.covers hother hne

theorem node?_put_ne (h : t.Room name) (hne : other ≠ name) : (t.put name text).node? other = t.node? other := by
  have hfind : (t.put name text).nodes.find? (·.1 == other) = t.nodes.find? (·.1 == other) := find?_put_ne hne
  cases hf : t.nodes.find? (·.1 == other) with
  | some e => rw [node?_of_entry hf, node?_of_entry (hfind.trans hf)]
  | none =>
    have hput := node?_of_no_entry (hfind.trans hf)
    by_cases hc : t.Covers other
    · rw [(node?_of_no_entry hf).1 hc, hput.1 ((covers_put_iff h hne).2 hc)]
    · rw [(node?_of_no_entry hf).2 hc, hput.2 fun h' => hc ((covers_put_iff h hne).1 h')]

theorem read_eq_ok_iff : t.read path = .ok text ↔
    ∃ name, t.resolve path = .ok (some name) ∧ t.node? name = some (.file (.text text)) := by
  cases hr : t.resolve path with
  | error e => simp [read, hr]
  | ok place =>
    cases place with
    | none => simp [read, hr]
    | some name =>
      cases hn : t.node? name with
      | none => simp [read, hr, hn]
      | some node => rcases node with ⟨_ | _⟩ | _ <;> simp [read, hr, hn]

theorem write_eq_ok_iff : t.write path text = .ok t' ↔
    ∃ name, t.resolve path = .ok (some name) ∧ t.Room name ∧ t' = t.put name text := by
  simp only [room_iff, @eq_comm _ t']
  cases hr : t.resolve path with
  | error e => simp [write, hr]
  | ok place =>
    cases place with
    | none => simp [write, hr]
    | some name =>
      cases hn : t.node? name with
      | none => by_cases hd : t.node? name.dropLast = some .directory <;> simp [write, hr, hn, hd]
      | some node => cases node <;> simp [write, hr, hn]

theorem resolve_eq_ok_iff : t.resolve path = .ok there ↔ '\x00' ∉ path ∧ path.bytes ≤ maxPath ∧
    (Path.parts path).foldlM t.step (if path.head? = some '/' then none else some []) = .ok there := by
  rw [← Nat.not_lt]
  by_cases hnul : '\x00' ∈ path <;> by_cases hlong : maxPath < path.bytes <;> simp [resolve, hnul, hlong, -Nat.not_lt]

theorem step_eq_ok_iff : t.step here part = .ok there ↔
    (here = none ∧ there = none ∧ (part = "..".toList ∨ Path.isIdle part = true)) ∨
    ∃ dir, here = some dir ∧ t.node? dir = some .directory ∧
      (Path.isIdle part = true ∧ there = some dir ∨
        part = "..".toList ∧ there = (if dir = [] then none else some dir.dropLast) ∨
        Path.IsName part ∧ part.bytes ≤ maxName ∧ there = some (dir ++ [part])) := by
  have hdots : Path.isIdle "..".toList = false := by decide
  simp only [step, Path.isName_iff, ← Nat.not_lt]
  generalize "..".toList = dots at *
  cases here with
  | none =>
    by_cases hidle : Path.isIdle part = true <;> by_cases hd : part = dots <;> by_cases hb : maxName < part.bytes <;>
      simp [hidle, hd, hb, @eq_comm _ there]
  | some dir =>
    cases hn : t.node? dir with
    | none => simp [hn]
    | some node =>
      cases node with
      | file content => simp [hn]
      | directory =>
        by_cases hidle : Path.isIdle part = true <;> by_cases hd : part = dots <;>
          by_cases hb : maxName < part.bytes <;> simp [hn, hidle, hd, hb, hdots, @eq_comm _ there, -Nat.not_lt]

/-- The same names are directories in both trees. -/
def SameDirectories (t u : Tree) : Prop := ∀ name, t.node? name = some .directory ↔ u.node? name = some .directory

theorem SameDirectories.refl (t : Tree) : t.SameDirectories t := fun _ => Iff.rfl

theorem SameDirectories.symm (h : t.SameDirectories u) : u.SameDirectories t := fun name => (h name).symm

theorem SameDirectories.trans {v : Tree} (h : t.SameDirectories u) (h' : u.SameDirectories v) : t.SameDirectories v :=
  fun name => (h name).trans (h' name)

theorem SameDirectories.step (h : t.SameDirectories u) (hs : t.step here part = .ok there) :
    u.step here part = .ok there := by
  rw [step_eq_ok_iff] at hs ⊢
  exact hs.imp_right fun ⟨dir, hhere, hdir, hrest⟩ => ⟨dir, hhere, (h dir).1 hdir, hrest⟩

theorem SameDirectories.resolve (h : t.SameDirectories u) (hr : t.resolve path = .ok there) :
    u.resolve path = .ok there := by
  have hfold (parts : List Text) (here : Option (List Text)) (hp : parts.foldlM t.step here = .ok there) :
      parts.foldlM u.step here = .ok there := by
    induction parts generalizing here with
    | nil => exact hp
    | cons part parts ih =>
      rw [List.foldlM_cons, bind_eq_ok_iff] at hp ⊢
      obtain ⟨next, hs, hp⟩ := hp
      exact ⟨next, h.step hs, ih next hp⟩
  rw [resolve_eq_ok_iff] at hr ⊢
  exact ⟨hr.1, hr.2.1, hfold _ _ hr.2.2⟩

theorem ne_of_prefix_dropLast {dir above : List Text} (hne : dir ≠ []) (h : above <+: dir.dropLast) : above ≠ dir := by
  rintro rfl
  have hle := h.length_le
  have hpos := List.length_pos_iff.2 hne
  rw [List.length_dropLast] at hle
  omega

/-- All that is above the place is a directory. -/
def Open (t : Tree) (here : Option (List Text)) : Prop :=
  ∀ name ∈ here, ∀ above, above <+: name → above ≠ name → t.node? above = some .directory

theorem Open.step (h : t.Open here) (hs : t.step here part = .ok there) : t.Open there := by
  rcases step_eq_ok_iff.1 hs with ⟨-, rfl, -⟩ | ⟨dir, rfl, hdir, ⟨-, rfl⟩ | ⟨-, rfl⟩ | ⟨-, -, rfl⟩⟩
  · exact fun _ hn => nomatch hn
  · exact h
  · intro name hname above habove hne
    by_cases hroot : dir = []
    · rw [if_pos hroot] at hname
      contradiction
    rw [if_neg hroot] at hname
    obtain rfl := Option.some.inj hname
    exact h dir rfl above (habove.trans (List.dropLast_prefix dir)) (ne_of_prefix_dropLast hroot habove)
  · intro name hname above habove hne
    obtain rfl := Option.some.inj hname
    rcases List.prefix_concat_iff.1 habove with rfl | habove
    · exact absurd rfl hne
    by_cases heq : above = dir
    · exact heq ▸ hdir
    · exact h dir rfl above habove heq

theorem Open.foldlM {parts : List Text} (h : t.Open here) (hs : parts.foldlM t.step here = .ok there) :
    t.Open there := by
  induction parts generalizing here with
  | nil =>
    obtain rfl := Except.ok.inj hs
    exact h
  | cons part parts ih =>
    rw [List.foldlM_cons, bind_eq_ok_iff] at hs
    obtain ⟨next, hnext, hs⟩ := hs
    exact ih (h.step hnext) hs

/-- A path that leads to something other than a directory ends in its name. -/
theorem exists_parts (h : t.resolve path = .ok (some name)) (hdir : t.node? name ≠ some .directory) :
    ∃ before part dir, Path.parts path = before ++ [part] ∧ Path.IsName part ∧ name = dir ++ [part] := by
  obtain ⟨before, part, hparts⟩ : ∃ before part, Path.parts path = before ++ [part] :=
    ⟨_, _, (List.dropLast_concat_getLast (Path.parts_ne_nil path)).symm⟩
  obtain ⟨-, -, hfold⟩ := resolve_eq_ok_iff.1 h
  rw [hparts, List.foldlM_append, bind_eq_ok_iff] at hfold
  obtain ⟨here, hbefore, hlast⟩ := hfold
  rw [List.foldlM_cons, bind_eq_ok_iff] at hlast
  obtain ⟨_, hlast, hnil⟩ := hlast
  obtain rfl := Except.ok.inj hnil
  have hopen : t.Open here := by
    refine Open.foldlM ?_ hbefore
    intro start hstart above habove hne
    split at hstart
    · contradiction
    · obtain rfl := Option.some.inj hstart
      exact absurd (List.prefix_nil.1 habove) hne
  rcases step_eq_ok_iff.1 hlast with ⟨-, hnone, -⟩ | ⟨dir, rfl, hhere, ⟨-, heq⟩ | ⟨-, heq⟩ | ⟨hpart, -, heq⟩⟩
  · contradiction
  · obtain rfl := Option.some.inj heq
    exact absurd hhere hdir
  · by_cases hroot : dir = []
    · rw [if_pos hroot] at heq
      contradiction
    rw [if_neg hroot] at heq
    obtain rfl := Option.some.inj heq
    exact absurd (hopen dir rfl _ (List.dropLast_prefix dir) (ne_of_prefix_dropLast hroot List.prefix_rfl)) hdir
  · exact ⟨before, part, dir, hparts, hpart, Option.some.inj heq⟩

end Markup.Tree
