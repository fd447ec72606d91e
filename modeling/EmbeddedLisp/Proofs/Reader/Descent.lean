import EmbeddedLisp.Proofs.Reader.Derivation

/-! Recursive descent. The elements of a list are read one after another by calls inside of the call
that reads the list, and all of them move the same reader on, also a call that fails in the middle
of a form. Nothing in a call says beforehand that it ends. It does because each form takes a token
at least, and then it has come to what reading with a stack of open lists comes to. -/
namespace EmbeddedLisp.Reader

mutual

/-- Reads the next form inside of `depth` lists. The calls inside of each other, and the rounds that
they have gone, are no more than a number of steps. -/
def descend : (steps depth : Nat) → Reader → Option (Except SyntaxError Expression × Reader)
  | 0, _, _ => none
  | steps + 1, depth, r =>
    match r.rest with
    | [] => some (.error (r.errorAt .endOfInput), r)
    | .opening :: rest =>
      match exceeded? r.maxNesting depth with
      | some limit => some (.error (r.errorAt (.tooDeep limit)), r)
      | none => collect steps depth [] { r with rest }
    | .closing :: _ => some (.error (r.errorAt .unexpectedClose), r)
    | .atom text :: rest => some (.ok (.ofAtom text), { r with rest })

/-- Reads more elements of a list, up to the parenthesis that closes it. -/
def collect : (steps depth : Nat) → (elements : List Expression) → Reader →
    Option (Except SyntaxError Expression × Reader)
  | 0, _, _, _ => none
  | steps + 1, depth, elements, r =>
    match r.rest with
    | [] => some (.error (r.errorAt .unclosedList), r)
    | .closing :: rest => some (.ok (.list elements), { r with rest })
    | _ :: _ =>
      match descend steps (depth + 1) r with
      | none => none
      | some (.error p, stopped) => some (.error p, stopped)
      | some (.ok e, after) => collect steps depth (elements ++ [e]) after

end

/-- What a call comes to that begins inside of the lists `unfinished` and is to leave the lists
`outer` open: a form, behind which reading goes on, or the error with which reading ends. -/
inductive ComesTo (r : Reader) (unfinished outer : List (List Expression)) :
    Option (Except SyntaxError Expression × Reader) → Prop where
  | form (e : Expression) (rest : List Token) (hShorter : rest.length < r.rest.length)
      (hRead : readForm r.maxNesting unfinished r.rest = continueWith r.maxNesting outer e rest) :
      ComesTo r unfinished outer (some (.ok e, { r with rest }))
  | error (failure : Failure) (rest : List Token)
      (hRead : readForm r.maxNesting unfinished r.rest = .error (failure, rest)) :
      ComesTo r unfinished outer (some (.error ({ r with rest }.errorAt failure), { r with rest }))

section

variable {r : Reader} {unfinished inner outer : List (List Expression)} {t : Token}
  {rest : List Token}

theorem ComesTo.take {e : Expression} (hRest : r.rest = t :: rest)
    (hRead : readForm r.maxNesting unfinished (t :: rest) =
      continueWith r.maxNesting outer e rest) :
    ComesTo r unfinished outer (some (.ok e, { r with rest })) := by
  refine .form e rest ?_ (hRest ▸ hRead)
  rw [hRest, List.length_cons]
  exact Nat.lt_succ_self _

theorem ComesTo.stop {tokens : List Token} {failure : Failure} (hRest : r.rest = tokens)
    (hRead : readForm r.maxNesting unfinished tokens = .error (failure, tokens)) :
    ComesTo r unfinished outer (some (.error (r.errorAt failure), r)) := by
  subst hRest
  exact .error failure r.rest hRead

/-- What is read behind some tokens is read from there on, too. -/
theorem ComesTo.behind {call : Option (Except SyntaxError Expression × Reader)}
    (hShorter : rest.length < r.rest.length)
    (hSame : readForm r.maxNesting unfinished r.rest = readForm r.maxNesting inner rest)
    (hInner : ComesTo { r with rest } inner outer call) : ComesTo r unfinished outer call := by
  cases hInner with
  | form e rest' hLess hRead =>
    exact .form e rest' (Nat.lt_trans hLess hShorter) (hSame.trans hRead)
  | error failure rest' hRead => exact .error failure rest' (hSame.trans hRead)

theorem ComesTo.eq_read {call : Option (Except SyntaxError Expression × Reader)}
    (hCall : ComesTo r [] [] call) : call = some r.read := by
  cases hCall with
  | form e rest hShorter hRead => simp only [read, hRead, continueWith]
  | error failure rest hRead => simp only [read, hRead]

/-- Where a form is asked for: inside of a list only if there is a token that does not close it. -/
def Asked (unfinished : List (List Expression)) (tokens : List Token) : Prop :=
  unfinished ≠ [] → ∃ t rest, tokens = t :: rest ∧ t ≠ .closing

theorem Asked.eq_nil (hAsked : Asked outer r.rest)
    (hNone : ∀ t rest, r.rest = t :: rest → t = .closing) : outer = [] := by
  by_contra hSome
  obtain ⟨t, rest, hRest, hOther⟩ := hAsked hSome
  exact hOther (hNone t rest hRest)

/-- A form is an atom, or what the elements of a list come to. -/
theorem comesTo_descend {steps : Nat} (hAsked : Asked outer r.rest)
    (hCollect : ∀ rest, r.rest = .opening :: rest →
      ComesTo { r with rest } ([] :: outer) outer (collect steps outer.length [] { r with rest })) :
    ComesTo r outer outer (descend (steps + 1) outer.length r) := by
  match hRest : r.rest with
  | [] =>
    obtain rfl : outer = [] := hAsked.eq_nil (by simp [hRest])
    rw [descend, hRest]
    exact .stop hRest rfl
  | .closing :: rest =>
    obtain rfl : outer = [] := hAsked.eq_nil (by simp [hRest])
    rw [descend, hRest]
    exact .stop hRest rfl
  | .atom text :: rest =>
    rw [descend, hRest]
    exact .take hRest (readForm_atom outer text rest)
  | .opening :: rest =>
    have hOpening := @readForm_opening r.maxNesting outer rest
    cases hExceeded : exceeded? r.maxNesting outer.length with
    | some limit =>
      rw [hExceeded] at hOpening
      simp only [descend, hRest, hExceeded]
      exact .stop hRest hOpening
    | none =>
      rw [hExceeded] at hOpening
      simp only [descend, hRest, hExceeded]
      refine (hCollect rest hRest).behind ?_ (hRest ▸ hOpening)
      rw [hRest, List.length_cons]
      exact Nat.lt_succ_self _

/-- The elements of a list are none, or one that is a form of its own and the others. -/
theorem comesTo_collect {steps : Nat} {elements : List Expression}
    (hDescend : ∀ t rest, r.rest = t :: rest → t ≠ .closing →
      ComesTo r (elements.reverse :: outer) (elements.reverse :: outer)
        (descend steps (outer.length + 1) r))
    (hCollect : ∀ e rest, rest.length < r.rest.length →
      ComesTo { r with rest } ((elements ++ [e]).reverse :: outer) outer
        (collect steps outer.length (elements ++ [e]) { r with rest })) :
    ComesTo r (elements.reverse :: outer) outer (collect (steps + 1) outer.length elements r) := by
  have hElement (t : Token) (rest : List Token) (hRest : r.rest = t :: rest)
    (hOther : t ≠ .closing) :
      ComesTo r (elements.reverse :: outer) outer
        (match descend steps (outer.length + 1) r with
          | none => none
          | some (.error p, stopped) => some (.error p, stopped)
          | some (.ok e, after) => collect steps outer.length (elements ++ [e]) after) := by
    have hCall := hDescend t rest hRest hOther
    generalize descend steps (outer.length + 1) r = call at hCall ⊢
    cases hCall with
    | error failure rest' hRead => exact .error failure rest' hRead
    | form e rest' hShorter hRead =>
      refine (hCollect e rest' hShorter).behind hShorter ?_
      rw [hRead, List.reverse_append]
      rfl
  match hRest : r.rest with
  | [] =>
    rw [collect, hRest]
    exact .stop hRest rfl
  | .closing :: rest =>
    rw [collect, hRest]
    refine .take hRest ?_
    rw [readForm_closing, List.reverse_reverse]
  | .opening :: rest =>
    rw [collect, hRest]
    exact hElement _ rest hRest (by simp)
  | .atom text :: rest =>
    rw [collect, hRest]
    exact hElement _ rest hRest (by simp)

end

/-- Each call ends within twice as many steps as there are tokens, and one more if it is in the
middle of a list: a round that goes to an element of the list takes no token itself. -/
theorem calls_end (steps : Nat) :
    (∀ (r : Reader) (outer : List (List Expression)), 2 * r.rest.length ≤ steps → 0 < steps →
      Asked outer r.rest → ComesTo r outer outer (descend steps outer.length r)) ∧
    ∀ (r : Reader) (elements : List Expression) (outer : List (List Expression)),
      2 * r.rest.length < steps →
      ComesTo r (elements.reverse :: outer) outer (collect steps outer.length elements r) := by
  induction steps with
  | zero =>
    refine ⟨fun _ _ _ hSome => absurd hSome (Nat.lt_irrefl 0), fun r _ _ hSome => ?_⟩
    exact absurd hSome (Nat.not_lt_zero _)
  | succ steps ih =>
    refine ⟨fun r outer hSteps _ hAsked => comesTo_descend hAsked fun rest hRest => ?_,
      fun r elements outer hSteps => comesTo_collect (fun t rest hRest hOther => ?_)
        fun e rest hShorter => ?_⟩
    · rw [hRest, List.length_cons] at hSteps
      exact ih.2 _ [] outer (by dsimp only; omega)
    · have hMore : 0 < r.rest.length := List.length_pos_iff.2 (by simp [hRest])
      exact ih.1 r (elements.reverse :: outer) (by omega) (by omega) fun _ =>
        ⟨t, rest, hRest, hOther⟩
    · exact ih.2 _ (elements ++ [e]) outer (by dsimp only; omega)

/-- Recursive descent ends, and comes to what is read. -/
theorem descend_eq_read {r : Reader} {steps : Nat} (hSteps : 2 * r.rest.length < steps) :
    descend steps 0 r = some r.read := by
  have hAsked : Asked [] r.rest := fun hSome => absurd rfl hSome
  exact ((calls_end steps).1 r [] (by omega) (by omega) hAsked).eq_read

end EmbeddedLisp.Reader
