import Markup.Proofs.Rule.Blind
import Markup.Proofs.Script.Tally

/-! # A store with a hole

The first value of a store is left open, to be filled with any text afterwards. Nothing that means something refers to
the hole, because no value of it is empty. A token carries the hole when it is the hole's own, or when its value is a
text that means something but for one token that carries the hole; so what it resolves to has the text that fills the
hole in it once, and the rest does not depend on that text. -/
namespace Markup
open Script

variable {P Q : Script → Prop} {s s' : Store} {a b : Script} {k n : Nat} {t u v w x y : Text} {d : Char}

namespace Store

/-- The hole is the first value. -/
def Hollow (s : Store) : Prop := s.values[0]? = some []

/-- The store with another text in the hole. -/
def fill (s : Store) (v : Text) : Store := ⟨s.values.setIfInBounds 0 v⟩

theorem Hollow.mono (h : s.Hollow) (hle : s.Le s') : s'.Hollow := hle 0 [] h

theorem fill_values (hn : n ≠ 0) : (s.fill v).values[n]? = s.values[n]? := by
  rw [fill, Array.getElem?_setIfInBounds_ne (Ne.symm hn)]

theorem Hollow.fill_values (h : s.Hollow) : (s.fill v).values[0]? = some v := by
  rw [fill, Array.getElem?_setIfInBounds_self_of_lt (lt_size h)]

theorem size_fill (s : Store) (v : Text) : (s.fill v).size = s.size := by
  simp [fill, size]

theorem minting_fill (v : Text) : Minting fun s₁ s₂ => s₁.Hollow ∧ s₂ = s₁.fill v := by
  refine ⟨fun s₁ s₂ h => ?_, fun s₁ s₂ w h => ⟨h.1.mono (s₁.le_mint w), ?_⟩⟩
  · rw [h.2, size_fill]
  · have hpos : 0 < s₁.values.toList.length := lt_size h.1
    rw [h.2, fill, mint, mint, Store.mk.injEq, ← Array.toList_inj]
    simp only [fill, Array.toList_push, Array.toList_setIfInBounds, List.set_append_left _ _ hpos]

end Store

/-- What means something does not see what fills the hole. -/
theorem Linked.fill {i : Nat × Nat} (h : Linked s s i) (hs : s.Hollow) (v w : Text) :
    Linked (s.fill v) (s.fill w) i := by
  induction h with
  | intro x nonempty clean below _ fst snd ih =>
    have avoid {n : Nat} {f : Side} (hn : s.values[n]? = some (spell f x)) : n ≠ 0 := by
      rintro rfl
      exact nonempty (spell_eq_nil.1 (Option.some.inj (hn.symm.trans hs)))
    exact .intro x nonempty clean below ih ((Store.fill_values (avoid fst)).trans fst)
      ((Store.fill_values (avoid snd)).trans snd)

theorem Known.resolve_fill (hk : Known s s a) (hc : Clean a) (hs : s.Hollow) {limit : Nat}
    (hl : ∀ i, .token i ∈ a → i.1 < limit) (v : Text) :
    (s.fill v).resolve limit (spell Prod.fst a) = (s.fill []).detokenize (spell Prod.snd a) := by
  refine Store.resolve_eq ⟨hc, fun i hi => (hk i hi).fill hs v []⟩ fun i hi => ⟨hl i hi, ?_⟩
  rw [Store.size_fill]
  exact (hk i hi).lt_size.2

/-- A token that has the hole behind it once. -/
inductive Carries (s : Store) : Nat → Prop
  | hole (h : s.Hollow) : Carries s 0
  | inside {n k : Nat} {a b : Script} (clean : Clean (a ++ .token (k, k) :: b)) (left : Known s s a)
      (right : Known s s b)
    (below : ∀ i, .token i ∈ a ++ .token (k, k) :: b → i.1 < n) (carries : Carries s k)
    (value : s.values[n]? = some (spell Prod.fst (a ++ .token (k, k) :: b))) : Carries s n

theorem Store.resolve_zero (s : Store) (t : Text) : s.resolve 0 t = t := by
  rw [resolve]
  conv_rhs => rw [← Token.flatMap_text_pieces t]
  refine List.flatMap_congr fun p _ => ?_
  cases p.id? <;> rfl

theorem Store.resolve_fill_around (clean : Clean (a ++ .token (k, k) :: b)) (left : Known s s a) (right : Known s s b)
    (hs : s.Hollow) {limit : Nat} (hl : ∀ i, .token i ∈ a ++ .token (k, k) :: b → i.1 < limit) (v : Text) :
    (s.fill v).resolve limit (spell Prod.fst (a ++ .token (k, k) :: b)) =
      (s.fill []).detokenize (spell Prod.snd a) ++ (s.fill v).resolveId limit k ++
        (s.fill []).detokenize (spell Prod.snd b) := by
  have hca := clean.slice (List.prefix_append a _).isInfix
  have hcb : Clean b := clean.slice ⟨a ++ [Glyph.token (k, k)], [], by simp⟩
  rw [← left.resolve_fill hca hs (fun i hi => hl i (by simp [hi])) v,
    ← right.resolve_fill hcb hs (fun i hi => hl i (by simp [hi])) v, resolve_spell clean, resolve_spell hca,
    resolve_spell hcb, List.flatMap_append, List.flatMap_cons, List.append_assoc]
  rfl

namespace Carries

theorem lt_size (h : Carries s n) : n < s.size := by
  cases h with
  | hole h => exact Store.lt_size h
  | inside _ _ _ _ _ value => exact Store.lt_size value

theorem mono (h : Carries s n) (hle : s.Le s') : Carries s' n := by
  induction h with
  | hole h => exact .hole (h.mono hle)
  | inside clean left right below _ value ih =>
    exact .inside clean (left.mono hle hle) (right.mono hle hle) below ih (hle _ _ value)

/-- What the token resolves to has the text that fills the hole in it once. -/
theorem resolveId (h : Carries s n) (hs : s.Hollow) :
    ∃ l r : Text, ∀ v limit, n < limit → (s.fill v).resolveId limit n = l ++ v ++ r := by
  induction h with
  | hole =>
    refine ⟨[], [], fun v limit hl => ?_⟩
    simp only [Store.resolveId, if_pos hl, hs.fill_values, Store.resolve_zero, List.nil_append, List.append_nil]
  | @inside n k a b clean left right below _ value ih =>
    obtain ⟨l, r, hk⟩ := ih
    have hkn : k < n := below (k, k) (by simp)
    have hvalue (v : Text) : (s.fill v).values[n]? = some (spell Prod.fst (a ++ .token (k, k) :: b)) :=
      (Store.fill_values (by omega)).trans value
    refine ⟨(s.fill []).detokenize (spell Prod.snd a) ++ l, r ++ (s.fill []).detokenize (spell Prod.snd b),
      fun v limit hl => ?_⟩
    rw [Store.resolveId, if_pos hl]
    simp only [hvalue, Store.resolve_fill_around clean left right hs below, hk v n hkn, List.append_assoc]

end Carries

/-- The text is the token `k`, which carries the hole, between what means something. -/
structure Bearing (s : Store) (a : Script) (k : Nat) (b : Script) (t : Text) : Prop where
  left : Known s s a
  right : Known s s b
  carries : Carries s k
  fst : t = spell Prod.fst (a ++ .token (k, k) :: b)
  snd : t = spell Prod.snd (a ++ .token (k, k) :: b)

def Bears (P : Script → Prop) (s : Store) (t : Text) : Prop :=
  ∃ a k b, P (a ++ .token (k, k) :: b) ∧ Bearing s a k b t

theorem Bearing.mono (h : Bearing s a k b t) (hle : s.Le s') : Bearing s' a k b t :=
  ⟨h.left.mono hle hle, h.right.mono hle hle, h.carries.mono hle, h.fst, h.snd⟩

theorem Bearing.lt_size (h : Bearing s a k b t) {i : Nat × Nat} (hi : .token i ∈ a ++ .token (k, k) :: b) :
    i.1 < s.size := by
  rw [List.mem_append, List.mem_cons] at hi
  rcases hi with hi | hi | hi
  · exact (h.left i hi).lt_size.1
  · obtain rfl := Glyph.token.inj hi
    exact h.carries.lt_size
  · exact (h.right i hi).lt_size.1

namespace Bears

theorem imp (h : Bears P s t) (hpq : ∀ g, P g → Q g) : Bears Q s t := by
  obtain ⟨a, k, b, hP, hb⟩ := h
  exact ⟨a, k, b, hpq _ hP, hb⟩

theorem clean (h : Bears Solid s t) : Bears Clean s t := h.imp fun _ => Solid.clean

theorem ne_nil (h : Bears P s t) : t ≠ [] := by
  obtain ⟨a, k, b, -, hb⟩ := h
  rw [hb.fst, Ne, spell_eq_nil]
  simp

theorem detokenize (h : Bears Clean s t) (hs : s.Hollow) :
    ∃ l r : Text, ∀ v, (s.fill v).detokenize t = l ++ v ++ r := by
  obtain ⟨a, k, b, hclean, hb⟩ := h
  obtain ⟨l, r, hk⟩ := hb.carries.resolveId hs
  refine ⟨(s.fill []).detokenize (spell Prod.snd a) ++ l, r ++ (s.fill []).detokenize (spell Prod.snd b), fun v => ?_⟩
  rw [Store.detokenize, Store.size_fill, hb.fst,
    Store.resolve_fill_around hclean hb.left hb.right hs (fun i hi => hb.lt_size hi), hk v _ hb.carries.lt_size]
  simp

theorem carries_mint (h : Bears Clean s t) : Carries (s.mint t).2 s.size := by
  obtain ⟨a, k, b, hclean, hb⟩ := h
  have hm := hb.mono (s.le_mint t)
  exact .inside hclean hm.left hm.right (fun i hi => hb.lt_size hi) hm.carries (hb.fst ▸ s.mint_values t)

theorem around (hx : Same Solid s s x x) (ht : Bears Clean s t) (hy : Same Solid s s y y) :
    Bears Solid s (x ++ t ++ y) := by
  obtain ⟨g, hg, hkg, hx, hx'⟩ := hx
  obtain ⟨a, k, b, hclean, hb⟩ := ht
  obtain ⟨h, hh, hkh, hy, hy'⟩ := hy
  have hassoc : g ++ a ++ .token (k, k) :: (b ++ h) = g ++ (a ++ .token (k, k) :: b) ++ h := by simp
  refine ⟨g ++ a, k, b ++ h, hassoc ▸ hg.around hh hclean, hkg.append hb.left, hb.right.append hkh, hb.carries, ?_, ?_⟩
  · rw [hassoc, spell_append, spell_append, ← hx, ← hb.fst, ← hy]
  · rw [hassoc, spell_append, spell_append, ← hx', ← hb.snd, ← hy']

theorem append_same (hx : Bears Solid s x) (hy : Same Solid s s y y) : Bears Solid s (x ++ y) := by
  obtain ⟨a, k, b, hsolid, hb⟩ := hx
  obtain ⟨h, hh, hkh, hy, hy'⟩ := hy
  have hassoc : a ++ .token (k, k) :: (b ++ h) = a ++ .token (k, k) :: b ++ h := by simp
  refine ⟨a, k, b ++ h, hassoc ▸ hsolid.append hh, hb.left, hb.right.append hkh, hb.carries, ?_, ?_⟩
  · rw [hassoc, spell_append, ← hb.fst, ← hy]
  · rw [hassoc, spell_append, ← hb.snd, ← hy']

theorem same_append (hx : Same Solid s s x x) (hy : Bears Solid s y) : Bears Solid s (x ++ y) := by
  obtain ⟨g, hg, hkg, hx, hx'⟩ := hx
  obtain ⟨a, k, b, hsolid, hb⟩ := hy
  refine ⟨g ++ a, k, b, ?_, hkg.append hb.left, hb.right, hb.carries, ?_, ?_⟩
  · rw [List.append_assoc]
    exact hg.append hsolid
  · rw [List.append_assoc, spell_append, ← hx, ← hb.fst]
  · rw [List.append_assoc, spell_append, ← hx', ← hb.snd]

theorem element {tag : String} (h : Bears Clean s t) (ht : ';' ∉ tag.toList) : Bears Solid s (Html.element tag t) := by
  rw [Html.element_eq]
  exact around (same_of_walled (walled_opening ht)) h (same_of_walled (walled_closing ht))

theorem block {tag : String} (h : Bears Clean s t) (ht : ';' ∉ tag.toList) : Bears Solid s (Html.block tag t) := by
  have hbreak : Same Solid s s ['\n'] ['\n'] := same_of_walled (by decide)
  exact (around hbreak h hbreak).clean.element ht

/-- A character that no token is written with has the hole on one side of it. -/
theorem cut_char (h : Bears Clean s (u ++ d :: v)) (hd : d ∉ Token.alphabet) :
    Bears Clean s u ∧ Sound s v ∨ Sound s u ∧ Bears Clean s v := by
  obtain ⟨a, k, b, hclean, hb⟩ := h
  obtain ⟨x, y, hg, rfl, rfl⟩ := exists_of_spell_eq_append_cons hd hb.fst.symm
  have hsnd {w : Script} (hw : w ⊆ a ++ .token (k, k) :: b) : spell Prod.fst w = spell Prod.snd w :=
    (spell_snd_eq hclean (hb.fst.symm.trans hb.snd) hw).symm
  have hleft : x <:+: a ++ .token (k, k) :: b := hg ▸ (List.prefix_append _ _).isInfix
  have hright : y <:+: a ++ .token (k, k) :: b := hg ▸ ⟨x ++ [Glyph.char d], [], by simp⟩
  have hcut : x ++ [Glyph.char d] ++ y = a ++ .token (k, k) :: b := by simp [hg]
  have hx := hsnd hleft.subset
  have hy := hsnd hright.subset
  have hcx := hclean.slice hleft
  have hcy := hclean.slice hright
  rcases List.append_append_eq_append_cons hcut with ⟨c, rfl, rfl⟩ | ⟨c, rfl, rfl⟩ | ⟨c, e, -, hchar, -⟩
  · have hpart : Part x (x ++ [Glyph.char d] ++ c) := .of_slice ⟨[], [Glyph.char d] ++ c, by simp⟩
    have hpart' : Part c (x ++ [Glyph.char d] ++ c) := .of_slice (List.suffix_append _ _).isInfix
    exact .inr ⟨⟨x, hcx, hb.left.part hpart, rfl, hx⟩, c, k, b, hcy, hb.left.part hpart', hb.right, hb.carries, rfl, hy⟩
  · have hpart : Part c (c ++ [Glyph.char d] ++ y) := .of_slice ⟨[], [Glyph.char d] ++ y, by simp⟩
    have hpart' : Part y (c ++ [Glyph.char d] ++ y) := .of_slice (List.suffix_append _ _).isInfix
    exact .inl ⟨⟨a, k, c, hcx, hb.left, hb.right.part hpart, hb.carries, rfl, hx⟩, y, hcy,
      hb.right.part hpart', rfl, hy⟩
  · cases c <;> simp at hchar

theorem not_nil (h : Bears P s []) : False := h.ne_nil rfl

theorem drop_front (h : Bears Clean s (w ++ v)) (hw : ∀ d ∈ w, d ∉ Token.alphabet) : Bears Clean s v := by
  induction w with
  | nil => exact h
  | cons d w ih =>
    rw [List.forall_mem_cons] at hw
    rcases cut_char (u := []) h hw.1 with ⟨hnil, -⟩ | ⟨-, hrest⟩
    · exact hnil.not_nil.elim
    · exact ih hrest hw.2

theorem drop_back (h : Bears Clean s (u ++ w)) (hw : ∀ d ∈ w, d ∉ Token.alphabet) : Bears Clean s u := by
  cases w with
  | nil => simpa using h
  | cons d w =>
    rw [List.forall_mem_cons] at hw
    rcases cut_char h hw.1 with ⟨hu, -⟩ | ⟨-, hrest⟩
    · exact hu
    · exact (drop_front (v := []) (by simpa using hrest) hw.2).not_nil.elim

/-- Characters that no token is written with have the hole on one side of them. -/
theorem cut (h : Bears Clean s (u ++ w ++ v)) (hw : ∀ d ∈ w, d ∉ Token.alphabet) (hne : w ≠ []) :
    Bears Clean s u ∧ Sound s v ∨ Sound s u ∧ Bears Clean s v := by
  obtain ⟨d, w, rfl⟩ := List.exists_cons_of_ne_nil hne
  rw [List.forall_mem_cons] at hw
  rw [List.append_assoc, List.cons_append] at h
  rcases cut_char h hw.1 with ⟨hu, hrest⟩ | ⟨hu, hrest⟩
  · exact .inl ⟨hu, (hrest.peel (c := d) fun hsemi => hw.2 _ hsemi (by decide)).1⟩
  · exact .inr ⟨hu, hrest.drop_front hw.2⟩

end Bears

end Markup
