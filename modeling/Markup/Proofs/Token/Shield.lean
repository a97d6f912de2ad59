import Markup.Proofs.Script.Linked

/-! # Shielding

A fresh token shields its value: resolved in any place of a text, it gives what the value resolved to before the token
was minted. The one thing that can break a token is a text before it that ends in a marker and digits, since the
leftmost token-shaped stretch then takes the first semicolon of the token. -/
namespace Markup

namespace Token
variable {t r digits after : Text}

/-- The text ends in all of a token-shaped stretch but the semicolon. -/
def Dangling (a : Text) : Prop :=
  ∃ before digits, a = before ++ marker ++ digits ∧ digits ≠ [] ∧ ∀ c ∈ digits, isDecimal c = true

theorem Dangling.prepend {a : Text} (h : Dangling a) (u : Text) : Dangling (u ++ a) := by
  obtain ⟨before, digits, rfl, hd⟩ := h
  exact ⟨u ++ before, digits, by simp only [List.append_assoc], hd⟩

theorem not_dangling_nil : ¬ Dangling [] := fun ⟨before, digits, h, hne, _⟩ => hne (by simp_all)

theorem not_isDecimal_semicolon : ¬ isDecimal ';' = true := by decide

theorem shape?_eq_some_iff : shape? t = some (digits, after) ↔
    t = marker ++ digits ++ ';' :: after ∧ digits ≠ [] ∧ ∀ c ∈ digits, isDecimal c = true := by
  constructor
  · intro h
    refine ⟨eq_of_shape? h, ?_⟩
    simp only [shape?, Option.bind_eq_bind, Option.bind_eq_some_iff] at h
    obtain ⟨rest, -, h⟩ := h
    split at h
    · next d ds hd ha =>
      obtain rfl := (Prod.mk.inj (Option.some.inj h)).1
      exact ⟨by rw [hd]; exact List.cons_ne_nil _ _, List.all_eq_true.1 List.all_takeWhile⟩
    · contradiction
  · rintro ⟨rfl, hne, hdigits⟩
    have htake : (digits ++ ';' :: after).takeWhile isDecimal = digits := by
      rw [List.takeWhile_append_of_pos hdigits, List.takeWhile_cons_of_neg not_isDecimal_semicolon, List.append_nil]
    have hdrop : (digits ++ ';' :: after).dropWhile isDecimal = ';' :: after := by
      rw [List.dropWhile_append_of_pos hdigits, List.dropWhile_cons_of_neg not_isDecimal_semicolon]
    obtain ⟨d, ds, rfl⟩ := List.exists_cons_of_ne_nil hne
    simp only [shape?, List.append_assoc, isPrefixOf?_append, htake, hdrop, Option.bind_eq_bind, Option.bind_some]

theorem ofId_ne_digits {n : Nat} {u v : Text} (hne : digits ≠ []) (hd : ∀ c ∈ digits, isDecimal c = true)
    (h : ofId n ++ u = digits ++ v) : False := by
  obtain ⟨d, ds, rfl⟩ := List.exists_cons_of_ne_nil hne
  have hhead : ';' = d := (List.cons.inj h).1
  exact not_isDecimal_semicolon (hhead ▸ hd d List.mem_cons_self)

/-- The rest of a marker that has begun before a token is not spelled by the token, except for the one semicolon. -/
theorem eq_of_marker_rest {n : Nat} {x u v : Text} (hr : r ≠ []) (hm : marker = r ++ x) (h : ofId n ++ u = x ++ v) :
    x = [] ∨ x = [';'] := by
  have hx : x <:+ [';', 'x', 's', 'v', ';'] := by
    rcases List.suffix_cons_iff.1 (show x <:+ marker from ⟨r, hm.symm⟩) with rfl | hx
    · exact absurd (List.self_eq_append_left.1 hm) hr
    · exact hx
  by_contra! hne
  have hprefix := Script.isPrefixOf?_marker_suffix hx hne.1 hne.2 n u
  rw [h, isPrefixOf?_append] at hprefix
  contradiction

/-- Before a token, a text without a dangling end has the token-shaped beginnings that it has alone. -/
theorem shape?_append_ofId (hr : r ≠ []) (hd : ¬ Dangling r) (n : Nat) (b : Text) :
    shape? (r ++ (ofId n ++ b)) = (shape? r).map fun (digits, after) => (digits, after ++ (ofId n ++ b)) := by
  cases hs : shape? r with
  | some p =>
    obtain ⟨hsplit, hdigits⟩ := shape?_eq_some_iff.1 hs
    exact shape?_eq_some_iff.2 ⟨by rw [hsplit]; simp only [List.append_assoc, List.cons_append], hdigits⟩
  | none =>
    refine Option.eq_none_iff_forall_ne_some.2 fun ⟨digits, after⟩ hshape => ?_
    obtain ⟨hsplit, hne, hdigits⟩ := shape?_eq_some_iff.1 hshape
    rw [List.append_assoc, List.append_eq_append_iff] at hsplit
    rcases hsplit with ⟨x, hm, h⟩ | ⟨y, rfl, h⟩
    · rcases eq_of_marker_rest hr hm h with rfl | rfl
      · exact ofId_ne_digits hne hdigits h
      · obtain ⟨d, ds, rfl⟩ := List.exists_cons_of_ne_nil hne
        have hd : ';' = d := (List.cons.inj (List.cons.inj h).2).1
        exact not_isDecimal_semicolon (hd ▸ hdigits d List.mem_cons_self)
    · rw [List.append_eq_append_iff] at h
      rcases h with ⟨z, rfl, h⟩ | ⟨z, rfl, h⟩
      · cases z with
        | nil => exact hd ⟨[], digits, by simp, hne, hdigits⟩
        | cons c z =>
          obtain rfl : ';' = c := (List.cons.inj h).1
          rw [shape?_eq_some_iff.2 ⟨by rw [List.append_assoc], hne, hdigits⟩] at hs
          contradiction
      · have hz : z = [] := by
          by_contra hz
          exact ofId_ne_digits hz (fun c hc => hdigits c (List.mem_append_right y hc)) h
        subst hz
        exact hd ⟨[], y, by simp, by simpa using hne, by simpa using hdigits⟩

/-- A token after a text without a dangling end is a piece of its own. -/
theorem pieces_append_ofId {a : Text} (ha : ¬ Dangling a) (n : Nat) (b : Text) :
    pieces (a ++ (ofId n ++ b)) = pieces a ++ .token (Nat.toDigits 10 n) :: pieces b := by
  fun_induction pieces a with
  | case1 => exact pieces_of_shape? (Script.shape?_ofId n b)
  | case2 c r digits after h ih =>
    have hafter : ¬ Dangling after := fun hd => ha (by
      rw [eq_of_shape? h]
      simpa using hd.prepend (marker ++ digits ++ [';']))
    have hs := shape?_append_ofId (List.cons_ne_nil c r) ha n b
    rw [h, Option.map_some] at hs
    rw [pieces_of_shape? hs, ih hafter, List.cons_append]
  | case3 c r h ih =>
    have hs := shape?_append_ofId (List.cons_ne_nil c r) ha n b
    rw [h, Option.map_none, List.cons_append] at hs
    rw [List.cons_append, pieces_cons hs, ih fun hd => ha (hd.prepend [c]), List.cons_append]

end Token

namespace Store

theorem resolve_append_ofId {a : Text} (ha : ¬ Token.Dangling a) (s : Store) (limit n : Nat) (b : Text) :
    s.resolve limit (a ++ (Token.ofId n ++ b)) = s.resolve limit a ++ s.resolveId limit n ++ s.resolve limit b := by
  rw [resolve, Token.pieces_append_ofId ha, List.flatMap_append, List.flatMap_cons, ← resolve, ← resolve,
    List.append_assoc]
  congr 2
  simp only [Token.Piece.id?, Token.readId?_toDigits, resolveId]
  by_cases hn : n < limit
  · simp only [dif_pos hn, if_pos hn]
    cases s.values[n]? <;> rfl
  · simp only [dif_neg hn, if_neg hn]
    rfl

theorem resolve_ofId_append (s : Store) (limit n : Nat) (b : Text) :
    s.resolve limit (Token.ofId n ++ b) = s.resolveId limit n ++ s.resolve limit b := by
  simpa [resolve_nil] using resolve_append_ofId Token.not_dangling_nil s limit n b

theorem resolve_ofId (s : Store) (limit n : Nat) : s.resolve limit (Token.ofId n) = s.resolveId limit n := by
  simpa [resolve_nil] using s.resolve_ofId_append limit n []

/-- A fresh token resolves to what its value resolved to before, whatever the value spells, and takes no part in what
stands around it. -/
theorem detokenize_around_mint (s : Store) (v : Text) :
    (∀ a b, ¬ Token.Dangling a → (s.mint v).2.detokenize (a ++ (s.mint v).1 ++ b) =
      (s.mint v).2.detokenize a ++ s.detokenize v ++ (s.mint v).2.detokenize b) ∧
    (s.mint v).2.detokenize (s.mint v).1 = s.detokenize v := by
  have around (a b : Text) (ha : ¬ Token.Dangling a) : (s.mint v).2.detokenize (a ++ (s.mint v).1 ++ b) =
      (s.mint v).2.detokenize a ++ s.detokenize v ++ (s.mint v).2.detokenize b := by
    rw [List.append_assoc, ← s.resolveId_mint v]
    exact resolve_append_ofId ha _ _ _ b
  refine ⟨around, ?_⟩
  simpa [detokenize, resolve_nil] using around [] [] Token.not_dangling_nil

theorem detokenize_around_mint_of_own_number :
    ¬ Token.Dangling "7;;xsv;".toList ∧
    Store.detokenize ⟨#["<em>x</em>".toList, "<p>;;xsv;00;;;xsv;1;</p>".toList]⟩ "7;;xsv;;;xsv;1;0;".toList =
      "7;;xsv;<p><em>x</em>;;xsv;1;</p>0;".toList := by
  have hopen : ¬ Token.Dangling "7;;xsv;".toList := by
    rintro ⟨before, digits, h, hne, hdigits⟩
    obtain ⟨ds, d, rfl⟩ := (List.eq_nil_or_concat' digits).resolve_left hne
    have hd : some ';' = some d := by simpa using congrArg List.getLast? h
    obtain rfl := Option.some.inj hd
    exact Token.not_isDecimal_semicolon (hdigits ';' (by simp))
  refine ⟨hopen, ?_⟩
  exact ((detokenize_around_mint ⟨#["<em>x</em>".toList]⟩ "<p>;;xsv;00;;;xsv;1;</p>".toList).1 _ "0;".toList
    hopen).trans
    (by decide +kernel)

end Store
end Markup
