import EmbeddedLisp.Proofs.Reader.Derivation

/-! Reading on. A token that cannot stand where it stands cannot do so if there are more tokens
behind it, and the forms before it are read as before. What a reader has read before shows in
nothing but the surroundings that its errors give. -/
namespace EmbeddedLisp

namespace SyntaxError

/-- An error without the surroundings of the place. -/
def withoutContext (p : SyntaxError) : SyntaxError := { p with context := none }

end SyntaxError

namespace Reader

section

variable {maxNesting : Option Nat} {unfinished : List (List Expression)} {tokens rest : List Token}

/-- Only at the end of the tokens does it matter what comes behind them. -/
theorem readForm_append_of_error {failure : Failure}
    (hRead : readForm maxNesting unfinished tokens = .error (failure, rest))
    (hKind : failure.kind ≠ .incomplete) (more : List Token) :
    readForm maxNesting unfinished (tokens ++ more) = .error (failure, rest ++ more) := by
  fun_induction readForm maxNesting unfinished tokens with
  | case1 | case2 =>
    cases hRead
    exact absurd rfl hKind
  | case3 unfinished after limit hExceeded =>
    cases hRead
    rw [List.cons_append, readForm_opening, hExceeded]
  | case4 unfinished after hNone ih =>
    rw [List.cons_append, readForm_opening, hNone]
    exact ih hRead
  | case5 =>
    cases hRead
    rfl
  | case6 | case8 => cases hRead
  | case7 _ _ _ _ ih | case9 _ _ _ _ ih => exact ih hRead

/-- An error that is not for want of tokens is at a token. -/
theorem rest_ne_nil_of_error {failure : Failure}
    (hRead : readForm maxNesting unfinished tokens = .error (failure, rest))
    (hKind : failure.kind ≠ .incomplete) : rest ≠ [] := by
  fun_induction readForm maxNesting unfinished tokens with
  | case1 | case2 =>
    cases hRead
    exact absurd rfl hKind
  | case3 | case5 =>
    cases hRead
    exact List.cons_ne_nil _ _
  | case6 | case8 => cases hRead
  | case4 _ _ _ ih | case7 _ _ _ _ ih | case9 _ _ _ _ ih => exact ih hRead

/-- What is left to read is the end of what there was. -/
theorem readForm_error_suffix {failure : Failure}
    (hRead : readForm maxNesting unfinished tokens = .error (failure, rest)) : rest <:+ tokens := by
  fun_induction readForm maxNesting unfinished tokens with
  | case1 | case2 | case3 | case5 =>
    cases hRead
    exact List.suffix_refl _
  | case4 _ _ _ ih | case7 _ _ _ _ ih | case9 _ _ _ _ ih =>
    exact (ih hRead).trans (List.suffix_cons _ _)
  | case6 | case8 => cases hRead

end

open EmbeddedLisp.Derivation
open Expression (heightEach)

theorem items_of_derivations (ds : List Derivation) {r : Reader} {rest : List Token}
    (hRest : r.rest = tokensEach ds ++ rest)
    (hWithin : Within r.maxNesting (heightEach (formEach ds))) :
    r.items = (formEach ds).map .ok ++ { r with rest }.items := by
  induction ds generalizing r with
  | nil =>
    rw [tokensEach, List.nil_append] at hRest
    subst hRest
    rfl
  | cons d ds ih =>
    rw [tokensEach, List.append_assoc] at hRest
    have hRead : readForm r.maxNesting [] r.rest = .ok (d.form, tokensEach ds ++ rest) :=
      readForm_eq_ok_iff.2 ⟨d, hRest, rfl, hWithin.mono (Nat.le_max_left _ _)⟩
    have hItems := ih (r := { r with rest := tokensEach ds ++ rest }) rfl
      (hWithin.mono (Nat.le_max_right _ _))
    rw [items_of_some (next?_of_ok hRead), hItems]
    rfl

theorem items_ne_nil {r : Reader} (hSome : r.rest ≠ []) : r.items ≠ [] := by
  cases hRead : readForm r.maxNesting [] r.rest with
  | ok result =>
    rw [items_of_some (next?_of_ok hRead)]
    exact List.cons_ne_nil _ _
  | error failed =>
    rw [items_of_some (next?_of_error hSome hRead)]
    exact List.cons_ne_nil _ _

/-- Where a reader that goes on as long as it can comes to a halt. -/
def Halts (maxNesting : Option Nat) (tokens : List Token) : Prop :=
  tokens = [] ∨ ∃ failure rest, tokens ≠ [] ∧ readForm maxNesting [] tokens = .error (failure, rest)

theorem exists_derivations (maxNesting : Option Nat) (tokens : List Token) :
    ∃ ds rest, tokens = tokensEach ds ++ rest ∧ Within maxNesting (heightEach (formEach ds)) ∧
      Halts maxNesting rest := by
  induction hLength : tokens.length using Nat.strongRecOn generalizing tokens with
  | _ length ih =>
    subst hLength
    by_cases hNone : tokens = []
    · exact ⟨[], [], hNone, fun _ _ => Nat.zero_le _, .inl rfl⟩
    cases hRead : readForm maxNesting [] tokens with
    | error failed =>
      exact ⟨[], tokens, rfl, fun _ _ => Nat.zero_le _, .inr ⟨failed.1, failed.2, hNone, hRead⟩⟩
    | ok result =>
      obtain ⟨e, after⟩ := result
      obtain ⟨ds, rest, hAfter, hWithin, hHalts⟩ := ih _ (readForm_shorter hRead) after rfl
      obtain ⟨d, rfl, rfl, hFirst⟩ := readForm_eq_ok_iff.1 hRead
      refine ⟨d :: ds, rest, by rw [hAfter, tokensEach, List.append_assoc],
        fun limit hLimit => ?_, hHalts⟩
      exact Nat.max_le.2 ⟨hFirst limit hLimit, hWithin limit hLimit⟩

/-- An item without the surroundings that it gives if it is an error. -/
def outline : Except SyntaxError Expression → Except SyntaxError Expression :=
  Except.mapError SyntaxError.withoutContext

theorem errorAt_withoutContext {r : Reader} (hSuffix : r.rest <:+ r.tokens) (failure : Failure) :
    (r.errorAt failure).withoutContext =
      ⟨failure.kind, failure.message, none, r.rest.head?.map Token.text⟩ := by
  obtain ⟨before, hTokens⟩ := hSuffix
  simp [errorAt, SyntaxError.placed, SyntaxError.withoutContext, position, ← hTokens,
    List.getElem?_append_right, List.head?_eq_getElem?]

/-- The item at which a reader halts. -/
theorem items_of_error {r : Reader} {failure : Failure} {rest : List Token} (hSome : r.rest ≠ [])
    (hRead : readForm r.maxNesting [] r.rest = .error (failure, rest)) :
    r.items = [.error ({ r with rest }.errorAt failure)] := by
  rw [items_of_some (next?_of_error hSome hRead), items_of_none (next?_of_nil rfl)]

theorem outline_of_error {r : Reader} (hSuffix : r.rest <:+ r.tokens) {failure : Failure}
    {rest : List Token} (hRead : readForm r.maxNesting [] r.rest = .error (failure, rest)) :
    outline (.error ({ r with rest }.errorAt failure)) =
      .error ⟨failure.kind, failure.message, none, rest.head?.map Token.text⟩ := by
  have hRest : rest <:+ r.tokens := (readForm_error_suffix hRead).trans hSuffix
  exact congrArg Except.error (errorAt_withoutContext (r := { r with rest }) hRest failure)

/-- Of what has been read before, the items show no more than surroundings. -/
theorem items_outline_congr {r r' : Reader} (hNesting : r'.maxNesting = r.maxNesting)
    (hRest : r'.rest = r.rest) (hSuffix : r.rest <:+ r.tokens) (hSuffix' : r'.rest <:+ r'.tokens) :
    r'.items.map outline = r.items.map outline := by
  obtain ⟨ds, rest, hTokens, hWithin, hHalts⟩ := exists_derivations r.maxNesting r.rest
  have hEnd : rest <:+ r.rest := ⟨tokensEach ds, hTokens.symm⟩
  rw [items_of_derivations ds hTokens hWithin,
    items_of_derivations (r := r') ds (hRest.trans hTokens) (hNesting ▸ hWithin), List.map_append,
    List.map_append]
  congr 1
  rcases hHalts with rfl | ⟨failure, stopped, hSome, hRead⟩
  · rw [items_of_none (next?_of_nil rfl), items_of_none (next?_of_nil rfl)]
  · have hRead' : readForm r'.maxNesting [] rest = .error (failure, stopped) := hNesting ▸ hRead
    rw [items_of_error (r := { r with rest }) hSome hRead,
      items_of_error (r := { r' with rest }) hSome hRead', List.map_singleton, List.map_singleton,
      outline_of_error (r := { r with rest }) (hEnd.trans hSuffix) hRead,
      outline_of_error (r := { r' with rest }) ((hRest ▸ hEnd).trans hSuffix') hRead']

end Reader

end EmbeddedLisp
