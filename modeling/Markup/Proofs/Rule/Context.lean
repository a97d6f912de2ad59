import Markup.Dialect
import Markup.Proofs.Run
import Markup.Proofs.Script.Linked
import Mathlib.Data.List.Nodup

/-! # What a context hands out

A context is a store together with all the tokens that it has handed out. Running rules in a context is running them in
its store; the record beside it only grows, one token for each new value. -/
namespace Markup

structure Context where
  store : Store
  /-- The tokens handed out so far, the first one first. -/
  handed : List Text

namespace Context

/-- The context that has put the values into its store one after the other. -/
def holding (s : Store) : Context := ⟨s, (List.range s.size).map Token.ofId⟩

def mint (c : Context) (value : Text) : Text × Context :=
  ((c.store.mint value).1, ⟨(c.store.mint value).2, c.handed ++ [(c.store.mint value).1]⟩)

/-- A result with the record left out. -/
def forget {α : Type} (r : α × Context) : α × Store := (r.1, r.2.store)

end Context

/-- How a stage is answered in a context. -/
abbrev Record := Stage → Text → Context → Option (Text × Context)

/-- The record answers as the stores alone do. -/
def Record.Of (record : Record) (answer : Answer) : Prop :=
  ∀ stage t c, (record stage t c).map Context.forget = answer stage t c.store

def Program.trace {α : Type} (record : Record) : Program α → Context → Option (α × Context)
  | done a, c => some (a, c)
  | run stage text next, c =>
    match record stage text c with
    | some (t, c') => (next t).trace record c'
    | none => none
  | mint value next, c => (next (c.mint value).1).trace record (c.mint value).2
  | inspect next, c => (next c.store).trace record c

def saturateIn (record : Record) (matcher : Matcher) (replace : Match → Program (Option Text)) :
    (fuel : Nat) → (behind ahead : Text) → Context → Option (Text × Context)
  | 0, _, _, _ => none
  | fuel + 1, behind, ahead, c =>
    match matcher.find behind ahead with
    | none => some (behind.reverse ++ ahead, c)
    | some found =>
      match (replace found).trace record c with
      | none => none
      | some (replacement, c) =>
        match replacement.filter (· ≠ found.whole) with
        | some new => saturateIn record matcher replace fuel [] (found.replaceBy new) c
        | none =>
          match found.resume with
          | some (behind, ahead) => saturateIn record matcher replace fuel behind ahead c
          | none => some (found.text, c)

def Rule.applyIn (record : Record) (fuel : Nat) (r : Rule) (text : Text) (c : Context) : Option (Text × Context) :=
  match r.action with
  | .pattern matcher replace => saturateIn record matcher replace fuel [] text c
  | .transform change =>
    match (change text).trace record c with
    | none => none
    | some (result, c) => some ((result.filter (· ≠ [])).getD text, c)

def applyAllIn (record : Record) (fuel : Nat) : List Rule → Text → Context → Option (Text × Context)
  | [], text, c => some (text, c)
  | r :: rules, text, c =>
    match r.applyIn record fuel text c with
    | some (text, c) => applyAllIn record fuel rules text c
    | none => none

def Grammar.runIn (g : Grammar) : (fuel : Nat) → Record
  | 0 => fun _ _ _ => none
  | fuel + 1 => fun stage text c => applyAllIn (g.runIn fuel) fuel (g.rules stage) text c

variable {record : Record} {answer : Answer}

theorem Program.trace_forget {α : Type} (h : record.Of answer) (p : Program α) (c : Context) :
    (p.trace record c).map Context.forget = p.eval answer c.store := by
  induction p generalizing c with
  | done a => rfl
  | run stage text next ih =>
    rw [trace, eval, ← h]
    cases record stage text c with
    | none => rfl
    | some r => exact ih r.1 r.2
  | mint value next ih => exact ih _ _
  | inspect next ih => exact ih _ _

theorem saturateIn_forget (h : record.Of answer) (m : Matcher) (f : Match → Program (Option Text)) (fuel : Nat)
    (behind ahead : Text) (c : Context) :
    (saturateIn record m f fuel behind ahead c).map Context.forget = saturate answer m f fuel behind ahead c.store := by
  induction fuel generalizing behind ahead c with
  | zero => rfl
  | succ fuel ih =>
    rw [saturateIn, saturate]
    cases m.find behind ahead with
    | none => rfl
    | some found =>
      simp only
      rw [← (f found).trace_forget h c]
      cases (f found).trace record c with
      | none => rfl
      | some r =>
        simp only [Option.map_some, Context.forget]
        cases r.1.filter (· ≠ found.whole) with
        | some new => exact ih _ _ _
        | none =>
          cases found.resume with
          | some next => exact ih _ _ _
          | none => rfl

theorem Rule.applyIn_forget (h : record.Of answer) (fuel : Nat) (r : Rule) (t : Text) (c : Context) :
    (r.applyIn record fuel t c).map Context.forget = r.apply answer fuel t c.store := by
  rw [applyIn, apply]
  cases r.action with
  | pattern m f => exact saturateIn_forget h m f fuel [] t c
  | transform change =>
    simp only
    rw [← (change t).trace_forget h c]
    cases (change t).trace record c <;> rfl

theorem applyAllIn_forget (h : record.Of answer) (fuel : Nat) (rules : List Rule) (t : Text) (c : Context) :
    (applyAllIn record fuel rules t c).map Context.forget = applyAll answer fuel rules t c.store := by
  induction rules generalizing t c with
  | nil => rfl
  | cons r rules ih =>
    rw [applyAllIn, applyAll, ← r.applyIn_forget h]
    cases r.applyIn record fuel t c with
    | none => rfl
    | some x => exact ih x.1 x.2

theorem Grammar.runIn_of (g : Grammar) (fuel : Nat) : (g.runIn fuel).Of (g.run fuel) := by
  induction fuel with
  | zero => exact fun _ _ _ => rfl
  | succ fuel ih => exact fun stage t c => applyAllIn_forget ih fuel (g.rules stage) t c

/-- The later context has more values, and has handed out their tokens and no others. -/
def Context.Grows (c c' : Context) : Prop :=
  ∃ vs : List Text, c'.store.values.toList = c.store.values.toList ++ vs ∧
    c'.handed = c.handed ++ (List.range' c.store.size vs.length).map Token.ofId

namespace Context
variable {c c' c'' : Context}

theorem Grows.refl (c : Context) : c.Grows c := ⟨[], by simp, by simp⟩

theorem Grows.trans (h : c.Grows c') (h' : c'.Grows c'') : c.Grows c'' := by
  obtain ⟨vs, hv, hh⟩ := h
  obtain ⟨ws, hw, hh'⟩ := h'
  have hsize : c'.store.size = c.store.size + vs.length := by
    simpa [Store.size] using congrArg List.length hv
  refine ⟨vs ++ ws, by rw [hw, hv, List.append_assoc], ?_⟩
  rw [hh', hh, hsize, List.length_append, ← List.range'_append_1, List.map_append, List.append_assoc]

theorem grows_mint (c : Context) (v : Text) : c.Grows (c.mint v).2 := ⟨[v], by simp [mint, Store.mint], rfl⟩

end Context

/-- Whatever the record answers, it only adds to the context. -/
def Record.Grows (record : Record) : Prop :=
  ∀ stage t c t' c', record stage t c = some (t', c') → c.Grows c'

variable {c c' : Context} {t t' : Text}

theorem Program.trace_grows {α : Type} (h : record.Grows) {p : Program α} {a : α}
    (he : p.trace record c = some (a, c')) : c.Grows c' := by
  induction p generalizing c with
  | done b =>
    obtain ⟨rfl, rfl⟩ := by simpa [trace] using he
    exact .refl c
  | run stage text next ih =>
    rw [trace] at he
    split at he
    · next u mid hrun => exact (h _ _ _ _ _ hrun).trans (ih u he)
    · contradiction
  | mint value next ih => exact (c.grows_mint value).trans (ih _ he)
  | inspect next ih => exact ih _ he

/-- A declined match keeps what its replacement has minted. -/
theorem saturateIn_grows (h : record.Grows) {m : Matcher} {f : Match → Program (Option Text)} {fuel : Nat}
    {behind ahead : Text} (he : saturateIn record m f fuel behind ahead c = some (t', c')) : c.Grows c' := by
  induction fuel generalizing behind ahead c with
  | zero => simp [saturateIn] at he
  | succ fuel ih =>
    rw [saturateIn] at he
    split at he
    · obtain ⟨-, rfl⟩ := by simpa using he
      exact .refl c
    · split at he
      · contradiction
      · next r mid hround =>
        have hmid := Program.trace_grows h hround
        split at he
        · exact hmid.trans (ih he)
        · split at he
          · exact hmid.trans (ih he)
          · obtain ⟨-, rfl⟩ := by simpa using he
            exact hmid

theorem Rule.applyIn_grows (h : record.Grows) {fuel : Nat} {r : Rule}
    (he : r.applyIn record fuel t c = some (t', c')) : c.Grows c' := by
  rw [applyIn] at he
  split at he
  · exact saturateIn_grows h he
  · split at he
    · contradiction
    · next r mid hround =>
      obtain ⟨-, rfl⟩ := by simpa using he
      exact Program.trace_grows h hround

theorem applyAllIn_grows (h : record.Grows) {fuel : Nat} {rules : List Rule}
    (he : applyAllIn record fuel rules t c = some (t', c')) : c.Grows c' := by
  induction rules generalizing t c with
  | nil =>
    obtain ⟨-, rfl⟩ := by simpa [applyAllIn] using he
    exact .refl c
  | cons r rules ih =>
    rw [applyAllIn] at he
    split at he
    · next u mid hr => exact (r.applyIn_grows h hr).trans (ih he)
    · contradiction

theorem Grammar.runIn_grows (g : Grammar) (fuel : Nat) : (g.runIn fuel).Grows := by
  induction fuel with
  | zero => exact fun _ _ _ _ _ he => nomatch he
  | succ fuel ih => exact fun _ _ _ _ _ he => applyAllIn_grows ih he

namespace Grammar

/-- The program, and with it all that is ever asked of a context, brings the context to an end. -/
def Lives {α : Type} (g : Grammar) (p : Program α) (c : Context) (a : α) (c' : Context) : Prop :=
  ∃ fuel, p.trace (g.runIn fuel) c = some (a, c')

variable {g : Grammar} {α : Type} {p : Program α} {a : α}

theorem Lives.grows (h : g.Lives p c a c') : c.Grows c' := by
  obtain ⟨fuel, h⟩ := h
  exact Program.trace_grows (g.runIn_grows fuel) h

theorem Evaluates.lives {s : Store} (h : g.Evaluates p c.store a s) : ∃ c', g.Lives p c a c' ∧ c'.store = s := by
  obtain ⟨fuel, h⟩ := h
  rw [← p.trace_forget (g.runIn_of fuel), Option.map_eq_some_iff] at h
  obtain ⟨⟨b, c'⟩, h, hforget⟩ := h
  obtain ⟨rfl, rfl⟩ := Prod.mk.inj hforget
  exact ⟨c', ⟨fuel, h⟩, rfl⟩

/-- Nothing happens in a context that does not happen in its store. -/
theorem Lives.evaluates (h : g.Lives p c a c') : g.Evaluates p c.store a c'.store := by
  obtain ⟨fuel, h⟩ := h
  exact ⟨fuel, by rw [← p.trace_forget (g.runIn_of fuel), h]; rfl⟩

end Grammar

namespace Token

theorem ofId_injective : Function.Injective ofId := fun m n h => by
  have hdigits : Nat.toDigits 10 m = Nat.toDigits 10 n := by simpa [ofId] using h
  rw [← digitsValue_toDigits m, hdigits, digitsValue_toDigits]

end Token

/-- What a context has handed out is one token for each of its values. -/
theorem Context.Grows.handed_eq {s : Store} (h : (Context.holding s).Grows c) :
    c.handed = (List.range c.store.size).map Token.ofId := by
  obtain ⟨vs, hvs, hhanded⟩ := h
  have hsize : c.store.size = s.size + vs.length := by
    simpa [Store.size, Context.holding] using congrArg List.length hvs
  rw [hhanded, hsize, List.range_add, List.map_append, List.range'_eq_map_range]
  rfl

namespace Store
variable {s s' : Store}

theorem le_of_prefix (h : s.values.toList <+: s'.values.toList) : s.Le s' := by
  intro n v hv
  rw [← Array.getElem?_toList] at hv ⊢
  obtain ⟨vs, hvs⟩ := h
  rw [← hvs, List.getElem?_append_left (List.getElem?_eq_some_iff.1 hv).1, hv]

theorem Le.detokenize_eq (h : s.Le s') (hsize : s.size ≤ s'.size) {t : Text}
    (ht : ∀ piece ∈ Token.pieces t, ∀ n, piece.id? = some n → n < s'.size → n < s.size) :
    s'.detokenize t = s.detokenize t := by
  rw [detokenize, detokenize, resolve, resolve]
  refine List.flatMap_congr fun piece hp => ?_
  cases hid : piece.id? with
  | none => rfl
  | some n =>
    by_cases hn : n < s'.size
    · have hlt := ht piece hp n hid hn
      have hvalue : s.values[n]? = some s.values[n] := Array.getElem?_eq_getElem hlt
      simp only [dif_pos hn, dif_pos hlt, hvalue, h n _ hvalue]
      exact h.resolve_eq hlt.le _
    · have hlt : ¬ n < s.size := by omega
      simp only [dif_neg hn, dif_neg hlt]

end Store

/-- The store only grows, whatever rules the grammar has: a run adds values after those that were there, so a text with
no newer tokens is resolved as before. All tokens that a context hands out in its life are different. -/
theorem store_only_grows (g : Grammar) :
    (∀ stage t s out after, g.Runs stage t s out after → s.values.toList <+: after.values.toList ∧
      ∀ u, (∀ piece ∈ Token.pieces u, ∀ n, piece.id? = some n → n < after.size → n < s.size) →
        after.detokenize u = s.detokenize u) ∧
    (∀ {α : Type} (life : Program α) s a after, g.Evaluates life s a after →
      ∃ c, g.Lives life (.holding s) a c ∧ c.store = after) ∧
    ∀ {α : Type} (life : Program α) s a c, g.Lives life (.holding s) a c → c.handed.Nodup := by
  refine ⟨fun stage t s out after h => ?_, fun life s a after h => Grammar.Evaluates.lives (c := .holding s) h,
    fun life s a c h => ?_⟩
  · obtain ⟨c, hlives, rfl⟩ := (Grammar.evaluates_rerun.2 h).lives (c := .holding s)
    obtain ⟨vs, hvs, -⟩ := hlives.grows
    have hstart : s.values.toList <+: c.store.values.toList := ⟨vs, hvs.symm⟩
    exact ⟨hstart, fun u hu => (Store.le_of_prefix hstart).detokenize_eq hstart.length_le hu⟩
  · rw [h.grows.handed_eq]
    exact List.Nodup.map Token.ofId_injective List.nodup_range

theorem store_only_grows_of_emphasis :
    dialect.Runs .line "*a*".toList ⟨#[['x']]⟩ "<em>;;xsv;1;</em>".toList ⟨#[['x'], ['a']]⟩ ∧
    Store.detokenize ⟨#[['x'], ['a']]⟩ ";;xsv;0;;;xsv;7;".toList =
      Store.detokenize ⟨#[['x']]⟩ ";;xsv;0;;;xsv;7;".toList ∧
    ∃ c, dialect.Lives (.rerun .line "*a*".toList) (.holding ⟨#[['x']]⟩) "<em>;;xsv;1;</em>".toList c ∧
      c.store = ⟨#[['x'], ['a']]⟩ ∧ c.handed.Nodup := by
  have hrun : dialect.Runs .line "*a*".toList ⟨#[['x']]⟩ "<em>;;xsv;1;</em>".toList ⟨#[['x'], ['a']]⟩ :=
    ⟨4, by decide +kernel⟩
  have hbelow : ∀ piece ∈ Token.pieces ";;xsv;0;;;xsv;7;".toList, ∀ n, piece.id? = some n → n < 2 → n < 1 := by
    have hpieces : Token.pieces ";;xsv;0;;;xsv;7;".toList = [.token ['0'], .token ['7']] := by decide +kernel
    have hids : Token.Piece.id? (.token ['0']) = some 0 ∧ Token.Piece.id? (.token ['7']) = some 7 := by decide +kernel
    rw [hpieces, List.forall_mem_cons, List.forall_mem_cons, hids.1, hids.2]
    refine ⟨fun n hn _ => ?_, fun n hn hlt => ?_, by simp⟩
    · obtain rfl := Option.some.inj hn
      decide
    · obtain rfl := Option.some.inj hn
      exact absurd hlt (by decide)
  obtain ⟨hgrows, hlives, hnodup⟩ := store_only_grows dialect
  obtain ⟨c, hc, hstore⟩ := hlives _ _ _ _ (Grammar.evaluates_rerun.2 hrun)
  exact ⟨hrun, (hgrows _ _ _ _ _ hrun).2 _ hbelow, c, hc, hstore, hnodup _ _ _ _ hc⟩

end Markup
