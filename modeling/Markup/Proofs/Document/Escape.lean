import Markup.Proofs.Block.Twin
import Markup.Proofs.Document.Quiet

/-! # Escaping everything

Before each character that could mean something a backslash is put. The escape rule then hides these characters one by
one, from left to right, and what is left has no marks. -/
namespace Markup.Document
open Pattern Grammar
open Text (trimLines)
variable {t done rest : Text} {c : Char}

/-- Everything but white space and ASCII letters and digits could mean something. -/
def needsEscape (c : Char) : Bool := !isSpace c && !c.isAlphanum

def escaped (t : Text) : Text := t.flatMap fun c => if needsEscape c then ['\\', c] else [c]

/-- The text with a token in the place of every character that could mean something; `n` is the number of the first
token. -/
def tokened (n : Nat) : Text → Text
  | [] => []
  | c :: t => if needsEscape c then Token.ofId n ++ tokened (n + 1) t else c :: tokened n t

/-- The values of the tokens. -/
def hidden (t : Text) : List Text := (t.filter needsEscape).map ([·])

theorem escaped_cons (h : needsEscape c = true) : escaped (c :: t) = '\\' :: c :: escaped t := by
  rw [escaped, List.flatMap_cons, if_pos h, escaped, List.cons_append, List.singleton_append]

theorem escaped_cons_of_plain (h : needsEscape c = false) : escaped (c :: t) = c :: escaped t := by
  rw [escaped, List.flatMap_cons, if_neg (by simp [h]), escaped, List.singleton_append]

theorem tokened_cons (h : needsEscape c = true) (n : Nat) : tokened n (c :: t) = Token.ofId n ++ tokened (n + 1) t := by
  rw [tokened, if_pos h]

theorem tokened_cons_of_plain (h : needsEscape c = false) (n : Nat) : tokened n (c :: t) = c :: tokened n t := by
  rw [tokened, if_neg (by simp [h])]

theorem hidden_cons (h : needsEscape c = true) : hidden (c :: t) = [c] :: hidden t := by
  rw [hidden, List.filter_cons_of_pos h, List.map_cons, hidden]

theorem hidden_cons_of_plain (h : needsEscape c = false) : hidden (c :: t) = hidden t := by
  rw [hidden, List.filter_cons_of_neg (by simp [h]), hidden]

theorem ne_of_plain {d : Char} (h : needsEscape c = false) (hd : needsEscape d = true) : c ≠ d := fun he => by
  rw [he, hd] at h
  contradiction

theorem find_escape (hdone : '\\' ∉ done) (hc : isEscapable c = true) :
    escapePattern.matcher.find [] (done ++ '\\' :: c :: rest) = some ⟨done.reverse, ['\\', c], rest, [some [c]]⟩ := by
  have hskip : ∀ a b : Text, done = a ++ b → b ≠ [] →
      escapePattern.scanner (a.reverse ++ []).head? (b ++ '\\' :: c :: rest) = none := by
    intro a b hab hne
    refine escapeScanner_eq_none _ fun d v hv => ?_
    obtain ⟨e, b, rfl⟩ := List.exists_cons_of_ne_nil hne
    obtain rfl : e = '\\' := (List.cons.inj hv).1
    exact hdone (hab ▸ List.mem_append_right a List.mem_cons_self)
  have hhit : escapePattern.scanner (done.reverse ++ []).head? ('\\' :: c :: rest) =
      some ⟨['\\', c], rest, [some [c]]⟩ := by
    rw [escapeScanner_cons, if_pos ⟨rfl, hc⟩]
  rw [matcher_eq]
  refine (Scanner.search_skip hskip).trans ((Scanner.search_of_hit hhit).trans ?_)
  rw [List.append_nil]

/-- One token after the other: what lies behind has no backslash left, and what lies ahead is escaped. -/
theorem applies_escape {G : Grammar} (hdone : '\\' ∉ done) (ht : '_' ∉ t) (s : Store) :
    G.Applies escape (done ++ escaped t) s (done ++ tokened s.size t) (s.mintAll (hidden t)) := by
  induction t generalizing done s with
  | nil =>
    rw [escaped, List.flatMap_nil, tokened, List.append_nil]
    exact (escape_quiet hdone).applies s
  | cons c t ih =>
    rw [List.mem_cons, not_or] at ht
    cases hc : needsEscape c with
    | true =>
      have hescapable : isEscapable c = true := by
        rw [isEscapable, ← needsEscape, hc, Bool.true_and, bne_iff_ne]
        exact Ne.symm ht.1
      have hback : '\\' ∉ done ++ Token.ofId s.size := by
        rw [List.mem_append, not_or]
        exact ⟨hdone, Token.not_mem_ofId (by decide) s.size⟩
      have hnext := ih hback ht.2 (s.mint [c]).2
      have hnew : Token.ofId s.size ≠ ['\\', c] := fun h => absurd (congrArg List.head? h) (by simp [Token.head?_ofId])
      rw [escaped_cons hc, tokened_cons hc, hidden_cons hc]
      refine (saturates_step (find_escape hdone hescapable) (evaluates_hidden [c] s) hnew).2 ?_
      rw [Match.replaceBy_reverse]
      rwa [Store.size_mint, List.append_assoc done (Token.ofId s.size) (tokened _ _)] at hnext
    | false =>
      have hback : '\\' ∉ done ++ [c] := by simp [hdone, Ne.symm (ne_of_plain hc (d := '\\') (by decide))]
      have hnext := ih hback ht.2 s
      rw [escaped_cons_of_plain hc, tokened_cons_of_plain hc, hidden_cons_of_plain hc]
      rwa [List.append_assoc, List.singleton_append, List.append_assoc, List.singleton_append] at hnext

theorem shows_tokened (t : Text) (s : Store) : Shows (s.mintAll (hidden t)) (tokened s.size t) t := by
  induction t generalizing s with
  | nil => exact .nil
  | cons c t ih =>
    cases hc : needsEscape c with
    | true =>
      have hmarker : ¬ Token.marker <:+: [c] := fun h => absurd h.length_le (by rw [List.length_singleton]; decide)
      have hvalue : Sound s [c] := same_refl (Script.clean_ofText hmarker)
      have htoken : Shows (s.mint [c]).2 (Token.ofId s.size) [c] := by
        have h := Shows.mint hvalue (List.cons_ne_nil c [])
        rwa [s.detokenize_of_marker hmarker] at h
      have hrest := ih (s.mint [c]).2
      rw [tokened_cons hc, hidden_cons hc]
      rw [Store.size_mint] at hrest
      exact (htoken.mono (Store.le_mintAll _ _)).append hrest
    | false =>
      have hsemi : ';' ∉ [c] := by simpa using Ne.symm (ne_of_plain hc (d := ';') (by decide))
      rw [tokened_cons_of_plain hc, hidden_cons_of_plain hc]
      exact (Shows.of_not_mem hsemi).append (ih s)

/-- A character of the text that could mean something is left only in tokens. -/
theorem of_mem_tokened {d : Char} {n : Nat} (h : d ∈ tokened n t) :
    d ∈ Token.alphabet ∨ d ∈ t ∧ needsEscape d = false := by
  induction t generalizing n with
  | nil => exact absurd h List.not_mem_nil
  | cons c t ih =>
    have later {m : Nat} (hd : d ∈ tokened m t) : d ∈ Token.alphabet ∨ d ∈ c :: t ∧ needsEscape d = false :=
      (ih hd).imp_right fun hmem => ⟨List.mem_cons_of_mem c hmem.1, hmem.2⟩
    cases hc : needsEscape c with
    | true =>
      rw [tokened_cons hc, List.mem_append] at h
      exact h.elim (fun hd => .inl (Token.mem_alphabet hd)) later
    | false =>
      rw [tokened_cons_of_plain hc, List.mem_cons] at h
      rcases h with rfl | hd
      · exact .inr ⟨List.mem_cons_self, hc⟩
      · exact later hd

theorem not_mem_tokened {d : Char} (hd : needsEscape d = true ∧ d ∉ Token.alphabet) (n : Nat) : d ∉ tokened n t :=
  fun h => (of_mem_tokened h).elim hd.2 fun hplain => by simp [hd.1] at hplain

theorem newline_not_mem_tokened (ht : '\n' ∉ t) (n : Nat) : '\n' ∉ tokened n t :=
  fun h => (of_mem_tokened h).elim (by decide) fun hplain => ht hplain.1

theorem newline_not_mem_escaped (ht : '\n' ∉ t) : '\n' ∉ escaped t := by
  rw [escaped, List.mem_flatMap]
  rintro ⟨c, hc, hmem⟩
  have hne : '\n' ≠ c := fun h => ht (h ▸ hc)
  split at hmem
  · simp [hne] at hmem
  · simp [hne] at hmem

theorem getLast?_escaped (t : Text) : (escaped t).getLast? = t.getLast? := by
  rcases List.eq_nil_or_concat' t with rfl | ⟨t, c, rfl⟩
  · rfl
  · rw [escaped, List.flatMap_append, List.flatMap_singleton, List.getLast?_append_cons]
    split
    · simp
    · simp

/-- Before the lines and the blocks are done, all that happens to an escaped line is that its tokens are put in. -/
theorem applies_preparation_escaped (hline : '\n' ∉ t) (hscore : '_' ∉ t) (hlast : ∀ c ∈ t.getLast?, isSpace c = false)
    (s : Store) : dialect.AppliesAll preparation (escaped t) s (tokened s.size t) (s.mintAll (hidden t)) := by
  have hescaped := newline_not_mem_escaped hline
  have htrim : trimLines (escaped t) = escaped t := by
    refine Text.trimLines_eq_self fun l hl => Text.trimEnd_eq_self ?_
    rw [Text.lines_eq_singleton hescaped, List.mem_singleton] at hl
    rw [hl, getLast?_escaped, Option.all_eq_true]
    exact fun c hc => by rw [hlast c hc, Bool.not_false]
  have htrailing := applies_trailingSpace (escaped t) s
  have hescape : dialect.Applies escape ([] ++ escaped t) s ([] ++ tokened s.size t) _ :=
    applies_escape List.not_mem_nil hscore s
  rw [htrim] at htrailing
  exact appliesAll_cons.2 ⟨_, s, htrailing, appliesAll_cons.2 ⟨_, s, (code_quiet_of_line hescaped).applies s,
    appliesAll_cons.2 ⟨_, _, hescape, appliesAll_nil⟩⟩⟩

end Markup.Document
