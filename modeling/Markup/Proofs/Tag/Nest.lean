import Markup.Proofs.Html

/-! # Nested tags

A text is read from left to right, with the names of the elements that are open. A tag opens an element or closes the
one opened last. A text is neat when reading it leaves the open elements as they were, whichever they are. -/
namespace Markup.Html

/-- The elements without a closing tag. -/
def voids : List Text := ["br".toList, "hr".toList, "img".toList]

/-- The open elements, the last one first, behind a tag with `body` between its signs; none when the tag closes an
element that is not the last one. -/
def afterTag (body : Text) (stack : List Text) : Option (List Text) :=
  match body with
  | '/' :: name => if stack.head? = some name then some stack.tail else none
  | body =>
    let name := body.takeWhile (· != ' ')
    some (if name ∈ voids then stack else name :: stack)

/-- A place in a text: outside of the tags, or in a tag, with what stands between its opening sign and the place, the
last character first. -/
inductive Reading where
  | outside (stack : List Text)
  | inside (stack : List Text) (body : Text)
deriving DecidableEq

namespace Reading

def step : Reading → Char → Option Reading
  | outside stack, c => some (if c = '<' then inside stack [] else outside stack)
  | inside stack body, c =>
    if c = '>' then (afterTag body.reverse stack).map outside else some (inside stack (c :: body))

def run (r : Reading) (t : Text) : Option Reading := t.foldlM step r

end Reading

/-- Every element is closed, and the last one that was opened is closed first. -/
def WellNested (t : Text) : Prop := (Reading.outside []).run t = some (.outside [])

instance (t : Text) : Decidable (WellNested t) := inferInstanceAs (Decidable (_ = _))

/-- A text that leaves the open elements as they are. -/
def Neat (t : Text) : Prop := ∀ stack, (Reading.outside stack).run t = some (.outside stack)

theorem Neat.wellNested {t : Text} (h : Neat t) : WellNested t := h []

namespace Reading
variable {r : Reading} {stack : List Text} {t u v name body : Text}

@[simp] theorem run_nil (r : Reading) : r.run [] = some r := rfl

theorem run_cons (r : Reading) (c : Char) (t : Text) : r.run (c :: t) = (r.step c).bind (run · t) := rfl

theorem run_append (r : Reading) (t u : Text) : r.run (t ++ u) = (r.run t).bind (run · u) := List.foldlM_append

theorem run_outside (h : '<' ∉ t) : (outside stack).run t = some (outside stack) := by
  induction t with
  | nil => rfl
  | cons c t ih =>
    rw [List.mem_cons, not_or] at h
    have hstep : (outside stack).step c = some (outside stack) := congrArg some (if_neg (Ne.symm h.1))
    rw [run_cons, hstep]
    exact ih h.2

theorem run_inside (h : '>' ∉ t) : (inside stack body).run t = some (inside stack (t.reverse ++ body)) := by
  induction t generalizing body with
  | nil => rfl
  | cons c t ih =>
    rw [List.mem_cons, not_or] at h
    have hstep : (inside stack body).step c = some (inside stack (c :: body)) := if_neg (Ne.symm h.1)
    rw [run_cons, hstep, Option.bind_some, ih h.2]
    simp

theorem run_tag (h : '>' ∉ body) (t : Text) :
    (outside stack).run ('<' :: body ++ '>' :: t) = (afterTag body stack).bind fun stack => (outside stack).run t := by
  have hopen : (outside stack).step '<' = some (inside stack []) := rfl
  have hclose : (inside stack (body.reverse ++ [])).step '>' = (afterTag body stack).map outside := by
    rw [List.append_nil]
    exact congrArg (fun body => (afterTag body stack).map outside) body.reverse_reverse
  rw [List.cons_append, run_cons, hopen, Option.bind_some, run_append, run_inside h, Option.bind_some, run_cons, hclose,
    Option.bind_map]
  rfl

end Reading

/-- The names of elements have letters and digits. -/
def IsName (name : Text) : Prop := ∀ c ∈ name, c.isAlphanum = true

instance (name : Text) : Decidable (IsName name) := inferInstanceAs (Decidable (∀ c ∈ name, _))

/-- Whether the elements with this tag have a closing one. -/
def IsPaired (tag : String) : Prop := IsName tag.toList ∧ tag.toList ∉ voids

instance (tag : String) : Decidable (IsPaired tag) := inferInstanceAs (Decidable (_ ∧ _))

section
variable {name attrs : Text} {stack : List Text}

theorem IsName.not_mem (h : IsName name) {c : Char} (hc : c.isAlphanum = false) : c ∉ name := fun hmem => by
  simp [h c hmem] at hc

theorem IsName.takeWhile (h : IsName name) (ha : attrs.head?.all (· == ' ') = true) :
    (name ++ attrs).takeWhile (· != ' ') = name := by
  have hname : ∀ c ∈ name, (c != ' ') = true := fun c hc => by
    rw [bne_iff_ne]
    rintro rfl
    exact h.not_mem (by decide) hc
  rw [List.takeWhile_append_of_pos hname]
  cases attrs with
  | nil => exact List.append_nil name
  | cons c attrs =>
    obtain rfl : c = ' ' := by simpa using ha
    rw [List.takeWhile_cons_of_neg (by decide), List.append_nil]

theorem afterTag_open (h : IsName name) (ha : attrs.head?.all (· == ' ') = true) :
    afterTag (name ++ attrs) stack = some (if name ∈ voids then stack else name :: stack) := by
  unfold afterTag
  split
  · next rest hslash =>
    have hne : (name ++ attrs).head? ≠ some '/' := by
      cases name with
      | nil =>
        intro hhead
        rw [List.nil_append] at hhead
        rw [hhead] at ha
        exact absurd ha (by decide)
      | cons c name =>
        intro hhead
        obtain rfl : c = '/' := by simpa using hhead
        exact h.not_mem (by decide) List.mem_cons_self
    exact absurd (congrArg List.head? hslash) hne
  · rw [h.takeWhile ha]

theorem afterTag_close (name : Text) (stack : List Text) : afterTag ('/' :: name) (name :: stack) = some stack :=
  if_pos rfl

/-- An opening tag, with attributes whose values may hold a `>`: the tag ends at the first one, and no tag begins
between that one and the last. -/
theorem Reading.run_opening (h : IsName name) (ha : attrs.head?.all (· == ' ') = true) (hv : '<' ∉ attrs) :
    (outside stack).run ('<' :: (name ++ attrs) ++ ['>']) =
      some (outside (if name ∈ voids then stack else name :: stack)) := by
  have hname : '>' ∉ name := h.not_mem (by decide)
  by_cases hsign : '>' ∈ attrs
  · obtain ⟨u, v, rfl, hu⟩ := List.eq_append_cons_of_mem hsign
    have hattrs : u.head?.all (· == ' ') = true := by
      cases u with
      | nil => rfl
      | cons c u => exact ha
    have hbody : '>' ∉ name ++ u := by
      rw [List.mem_append, not_or]
      exact ⟨hname, hu⟩
    have hrest : '<' ∉ v ++ ['>'] := by
      rw [List.mem_append, List.mem_cons, not_or, not_or] at hv
      simpa using hv.2.2
    have hsplit : '<' :: (name ++ (u ++ '>' :: v)) ++ ['>'] = '<' :: (name ++ u) ++ '>' :: (v ++ ['>']) := by simp
    rw [hsplit, run_tag hbody, afterTag_open h hattrs, Option.bind_some, run_outside hrest]
  · have hbody : '>' ∉ name ++ attrs := by
      rw [List.mem_append, not_or]
      exact ⟨hname, hsign⟩
    rw [run_tag hbody, afterTag_open h ha]
    rfl

theorem Reading.run_closing (h : IsName name) :
    (outside (name :: stack)).run ('<' :: '/' :: name ++ ['>']) = some (outside stack) := by
  have hbody : '>' ∉ '/' :: name := by
    rw [List.mem_cons, not_or]
    exact ⟨by decide, h.not_mem (by decide)⟩
  rw [run_tag hbody, afterTag_close]
  rfl

end

namespace Neat
open Reading
variable {t u v w name attrs : Text}

theorem of_not_mem (h : '<' ∉ t) : Neat t := fun _ => run_outside h

theorem nil : Neat [] := of_not_mem List.not_mem_nil

theorem append (hu : Neat u) (hv : Neat v) : Neat (u ++ v) := fun stack => by
  rw [run_append, hu, Option.bind_some, hv]

theorem of_append_left (hu : Neat u) (h : Neat (u ++ v)) : Neat v := fun stack => by
  have hrun := h stack
  rwa [run_append, hu, Option.bind_some] at hrun

/-- What holds neither sign of a tag may be taken off the end. -/
theorem drop_back (h : Neat (u ++ w)) (hw : '<' ∉ w ∧ '>' ∉ w) : Neat u := fun stack => by
  have hrun := h stack
  rw [run_append] at hrun
  cases hu : (outside stack).run u with
  | none => simp [hu] at hrun
  | some r =>
    rw [hu, Option.bind_some] at hrun
    cases r with
    | outside stack' =>
      rw [run_outside hw.1] at hrun
      exact hrun
    | inside stack' body =>
      rw [run_inside hw.2] at hrun
      exact nomatch Option.some.inj hrun

theorem drop_front (h : Neat (w ++ v)) (hw : '<' ∉ w) : Neat v := (of_not_mem hw).of_append_left h

theorem enclosed (ht : Neat t) (h : IsName name) (hne : name ∉ voids) (ha : attrs.head?.all (· == ' ') = true)
    (hv : '<' ∉ attrs) : Neat ('<' :: (name ++ attrs) ++ ['>'] ++ t ++ ('<' :: '/' :: name ++ ['>'])) := fun stack => by
  rw [run_append, run_append, run_opening h ha hv, if_neg hne, Option.bind_some, ht, Option.bind_some, run_closing h]

theorem element {tag : String} (ht : Neat t) (h : IsPaired tag) : Neat (Html.element tag t) := by
  have hsplit : Html.element tag t =
      '<' :: (tag.toList ++ []) ++ ['>'] ++ t ++ ('<' :: '/' :: tag.toList ++ ['>']) := by
    simp [Html.element]
  rw [hsplit]
  exact ht.enclosed h.1 h.2 rfl List.not_mem_nil

theorem void (h : IsName name) (hvoid : name ∈ voids) (ha : attrs.head?.all (· == ' ') = true) (hv : '<' ∉ attrs) :
    Neat ('<' :: (name ++ attrs) ++ ['>']) := fun stack => by
  rw [run_opening h ha hv, if_pos hvoid]

theorem void_bare (h : IsName name) (hvoid : name ∈ voids) : Neat ('<' :: name ++ ['>']) := by
  have hnone : ([] : Text).head?.all (· == ' ') = true := rfl
  have hneat := void h hvoid hnone List.not_mem_nil
  rw [List.append_nil] at hneat
  exact hneat

end Neat
end Markup.Html
