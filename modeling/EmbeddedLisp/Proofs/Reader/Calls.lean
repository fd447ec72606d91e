import EmbeddedLisp.Proofs.Reader.Continuation
import EmbeddedLisp.Proofs.Reader.Descent
import EmbeddedLisp.Proofs.Reader.Diagnosis

/-! Calls on one reader, in any order. A call for the next form that fails stays where it failed, so
another one may go on in the middle of a form, while one for the next item gives up all that is
left. Either way the reader moves on in its tokens and never back, and each form that it gives has
the tokens that it moves past. -/
namespace EmbeddedLisp.Reader

open EmbeddedLisp.Derivation

/-- The two calls by which forms are taken from a reader. -/
inductive Call where
  /-- The next form. -/
  | read
  /-- The next form if there are tokens left, the last one after an error. -/
  | next

/-- What a call gives, if it gives something, and the reader behind it. -/
def answer (r : Reader) : Call → Option (Except SyntaxError Expression) × Reader
  | .read => (some r.read.1, r.read.2)
  | .next =>
    match r.next? with
    | none => (none, r)
    | some (result, after) => (some result, after)

/-- The reader after a history of calls. -/
def after (r : Reader) (calls : List Call) : Reader :=
  calls.foldl (fun r call => (r.answer call).2) r

/-- What the calls of a history give, one after another. -/
def replies : Reader → List Call → List (Option (Except SyntaxError Expression))
  | _, [] => []
  | r, call :: rest => (r.answer call).1 :: replies (r.answer call).2 rest

/-- What a call can do. -/
inductive Step (r : Reader) : Call → Option (Except SyntaxError Expression) → Reader → Prop where
  | form (call : Call) (d : Derivation) (rest : List Token) (hRest : r.rest = d.tokens ++ rest) :
      Step r call (some (.ok d.form)) { r with rest }
  | stop (failure : Failure) (rest : List Token) (hSuffix : rest <:+ r.rest)
      (hKind : failure.kind = .incomplete ↔ rest = []) :
      Step r .read (some (.error ({ r with rest }.errorAt failure))) { r with rest }
  | giveUp (p : SyntaxError) : Step r .next (some (.error p)) { r with rest := [] }
  | done (hNone : r.rest = []) : Step r .next none r

section

variable {start r r' : Reader} {call : Call} {reply : Option (Except SyntaxError Expression)}

theorem incomplete_iff_of_error {failure : Failure} {tokens rest : List Token}
    (hRead : readForm r.maxNesting [] tokens = .error (failure, rest)) :
    failure.kind = .incomplete ↔ rest = [] := by
  have hStopped := readForm_stopped (fun _ _ => Nat.zero_le _) hRead
  cases hStopped <;> simp [Failure.kind]

/-- Every call makes a step. -/
theorem step_answer (r : Reader) (call : Call) :
    Step r call (r.answer call).1 (r.answer call).2 := by
  cases hRead : readForm r.maxNesting [] r.rest with
  | ok result =>
    obtain ⟨e, rest⟩ := result
    obtain ⟨d, hRest, rfl, -⟩ := readForm_eq_ok_iff.1 hRead
    cases call with
    | read =>
      simp only [answer, read, hRead]
      exact .form .read d rest hRest
    | next =>
      simp only [answer, next?_of_ok hRead]
      exact .form .next d rest hRest
  | error failed =>
    obtain ⟨failure, rest⟩ := failed
    cases call with
    | read =>
      simp only [answer, read, hRead]
      exact .stop failure rest (readForm_error_suffix hRead) (incomplete_iff_of_error hRead)
    | next =>
      by_cases hNone : r.rest = []
      · simp only [answer, next?_of_nil hNone]
        exact .done hNone
      · simp only [answer, next?_of_error hNone hRead]
        exact .giveUp _

/-- A reader that has come from another one and stands somewhere in its tokens. -/
structure Along (start r : Reader) : Prop where
  tokens : r.tokens = start.tokens
  suffix : r.rest <:+ start.tokens

namespace Along

theorem drop_position (h : Along start r) : start.tokens.drop r.position = r.rest := by
  rw [position, h.tokens]
  exact (List.suffix_iff_eq_drop.1 h.suffix).symm

theorem position_add_length (h : Along start r) :
    r.position + r.rest.length = start.tokens.length := by
  rw [position, h.tokens]
  exact Nat.sub_add_cancel h.suffix.length_le

theorem position_eq_length_iff (h : Along start r) :
    r.position = start.tokens.length ↔ r.rest = [] := by
  have hLength := h.position_add_length
  rw [← List.length_eq_zero_iff]
  omega

/-- It may go on to any place behind. -/
theorem moved (h : Along start r) {rest : List Token} (hSuffix : rest <:+ r.rest) :
    Along start { r with rest } :=
  ⟨h.tokens, hSuffix.trans h.suffix⟩

end Along

/-- A call moves the reader on in its tokens and changes nothing else. -/
theorem Step.exists_rest (hStep : Step r call reply r') :
    ∃ rest, rest <:+ r.rest ∧ r' = { r with rest } := by
  cases hStep with
  | form call d rest hRest => exact ⟨rest, ⟨d.tokens, hRest.symm⟩, rfl⟩
  | stop failure rest hSuffix => exact ⟨rest, hSuffix, rfl⟩
  | giveUp => exact ⟨[], List.nil_suffix, rfl⟩
  | done => exact ⟨r.rest, List.suffix_refl _, rfl⟩

/-- A step stays along the tokens of the start. -/
theorem Step.along (hStep : Step r call reply r') (h : Along start r) : Along start r' := by
  obtain ⟨rest, hSuffix, rfl⟩ := hStep.exists_rest
  exact h.moved hSuffix

/-- No call goes back. -/
theorem Step.position_le (hStep : Step r call reply r') (h : Along start r) :
    r.position ≤ r'.position := by
  have hPlace := h.position_add_length
  have hPlace' := (hStep.along h).position_add_length
  obtain ⟨rest, hSuffix, rfl⟩ := hStep.exists_rest
  have hLength := hSuffix.length_le
  dsimp only at hPlace'
  omega

/-- A form that is answered was written by the tokens passed. -/
theorem Step.form_tokens {e : Expression} (hStep : Step r call (some (.ok e)) r')
    (h : Along start r) :
    ∃ d : Derivation, d.form = e ∧
      start.tokens.drop r.position = d.tokens ++ start.tokens.drop r'.position ∧
      r'.position = r.position + d.tokens.length ∧ r.position < r'.position := by
  have hPlace := h.position_add_length
  have h' := hStep.along h
  have hPlace' := h'.position_add_length
  rw [h.drop_position, h'.drop_position]
  cases hStep with
  | form call d rest hRest =>
    have hSome : 0 < d.tokens.length := by
      cases d <;> simp [Derivation.tokens]
    rw [hRest, List.length_append] at hPlace
    dsimp only at hPlace'
    exact ⟨d, rfl, hRest, by omega, by omega⟩

theorem Step.read_error {p : SyntaxError} (hStep : Step r .read (some (.error p)) r')
    (h : Along start r) :
    p.found = start.tokens[r'.position]?.map Token.text ∧
      (p.kind = .incomplete ↔ r'.position = start.tokens.length) := by
  have h' := hStep.along h
  rw [h'.position_eq_length_iff]
  cases hStep with
  | stop failure rest hSuffix hKind =>
    refine ⟨?_, hKind⟩
    rw [errorAt, SyntaxError.placed, List.getElem?_map, h'.tokens]

/-- After an error there is nothing left for `next`. -/
theorem Step.next_error {p : SyntaxError} (hStep : Step r .next (some (.error p)) r') :
    r'.rest = [] := by
  cases hStep
  rfl

/-- After any calls the reader is somewhere behind. -/
theorem exists_rest_after (r : Reader) (calls : List Call) :
    ∃ rest, rest <:+ r.rest ∧ r.after calls = { r with rest } := by
  induction calls generalizing r with
  | nil => exact ⟨r.rest, List.suffix_refl _, rfl⟩
  | cons call calls ih =>
    obtain ⟨rest, hSuffix, hAnswer⟩ := (step_answer r call).exists_rest
    obtain ⟨rest', hSuffix', hAfter⟩ := ih (r.answer call).2
    rw [hAnswer] at hSuffix' hAfter
    exact ⟨rest', hSuffix'.trans hSuffix, by rw [after, List.foldl_cons, ← after, hAnswer, hAfter]⟩

theorem Along.after (h : Along start r) (calls : List Call) : Along start (r.after calls) := by
  obtain ⟨rest, hSuffix, hAfter⟩ := exists_rest_after r calls
  rw [hAfter]
  exact h.moved hSuffix

/-- At the end of the tokens there is nothing more, whatever is called. -/
theorem exhausted_after (hNone : r.rest = []) (more : List Call) :
    (r.after more).isExhausted ∧ (r.after more).next? = none ∧
      ∃ p, (r.after more).read.1 = .error p ∧ p.kind = .incomplete := by
  obtain ⟨rest, hSuffix, hAfter⟩ := exists_rest_after r more
  rw [hNone, List.suffix_nil] at hSuffix
  rw [hAfter, hSuffix]
  exact ⟨rfl, next?_of_nil rfl, _, rfl, rfl⟩

/-- The iterator goes through the items and ends. -/
theorem replies_next (r : Reader) :
    r.replies (List.replicate (r.items.length + 1) .next) = r.items.map some ++ [none] := by
  induction hLength : r.rest.length using Nat.strongRecOn generalizing r with
  | _ length ih =>
    subst hLength
    cases hNext : r.next? with
    | none =>
      rw [items_of_none hNext]
      simp [replies, answer, hNext]
    | some item =>
      obtain ⟨result, behind⟩ := item
      rw [items_of_some hNext, List.length_cons, List.replicate_succ, replies]
      simp only [answer, hNext, List.map_cons, List.cons_append]
      rw [ih _ (next?_shorter hNext) behind rfl]

/-- Forms, and an error behind them if there is one. -/
def itemsOf (es : List Expression) (ending : Option SyntaxError) :
    List (Except SyntaxError Expression) :=
  es.map .ok ++ ending.toList.map .error

theorem mapM_itemsOf (es : List Expression) (ending : Option SyntaxError) :
    (itemsOf es ending).mapM id = ending.elim (.ok es) .error := by
  induction es with
  | nil => cases ending <;> rfl
  | cons e es ih =>
    rw [itemsOf, List.map_cons, List.cons_append, ← itemsOf, List.mapM_cons, ih]
    cases ending <;> rfl

theorem exists_items (r : Reader) : ∃ es ending, r.items = itemsOf es ending := by
  obtain ⟨ds, rest, hTokens, hWithin, hHalts⟩ := exists_derivations r.maxNesting r.rest
  rw [items_of_derivations ds hTokens hWithin]
  rcases hHalts with rfl | ⟨failure, stopped, hSome, hRead⟩
  · exact ⟨formEach ds, none, by rw [items_of_none (next?_of_nil rfl)]; rfl⟩
  · exact ⟨formEach ds, some ({ r with rest := stopped }.errorAt failure),
      congrArg _ (items_of_error hSome hRead)⟩

end

/-- One reader of a text under any calls. Each of them ends, since recursive descent does, and moves
the reader on in its tokens. A form has exactly the tokens that are passed. Reading fails at the
token that the error gives, or at the end if the input is incomplete. Where the next item is an
error nothing is left, for good. And the items, asked for until there is none, are the forms of the
program and then its error, if it has one. -/
theorem reader_calls (options : Options) (text : String) :
    let start := ofText options text
    (∀ calls call,
      let r := start.after calls
      let reply := (r.answer call).1
      let r' := (r.answer call).2
      (∀ steps, 2 * (start.tokens.length - r.position) < steps → descend steps 0 r = some r.read) ∧
      r.position ≤ r'.position ∧ r'.position ≤ start.tokens.length ∧
      (∀ e, reply = some (.ok e) → ∃ d : Derivation, d.form = e ∧
        start.tokens.drop r.position = d.tokens ++ start.tokens.drop r'.position ∧
        r'.position = r.position + d.tokens.length ∧ r.position < r'.position) ∧
      (∀ p, call = .read → reply = some (.error p) →
        p.found = start.tokens[r'.position]?.map Token.text ∧
        (p.kind = .incomplete ↔ r'.position = start.tokens.length)) ∧
      (∀ p, call = .next → reply = some (.error p) →
        r'.position = start.tokens.length ∧
        ∀ more, (r'.after more).isExhausted ∧ (r'.after more).next? = none ∧
          ∃ p', (r'.after more).read.1 = .error p' ∧ p'.kind = .incomplete)) ∧
    ∃ (es : List Expression) (ending : Option SyntaxError),
      parseProgram options text = ending.elim (.ok es) .error ∧
      start.replies (List.replicate (es.length + ending.toList.length + 1) .next) =
        es.map (fun e => some (.ok e)) ++ ending.toList.map (fun p => some (.error p)) ++
        [none] := by
  intro start
  refine ⟨fun calls call => ?_, ?_⟩
  · intro r reply r'
    have h : Along start r := Along.after ⟨rfl, List.suffix_refl _⟩ calls
    have hStep : Step r call reply r' := step_answer r call
    have h' : Along start r' := hStep.along h
    have hPlace := h.position_add_length
    refine ⟨fun steps hSteps => descend_eq_read (by omega), hStep.position_le h, ?_, ?_, ?_, ?_⟩
    · exact Nat.le_of_add_right_le (Nat.le_of_eq h'.position_add_length)
    · intro e hForm
      exact (hForm ▸ hStep).form_tokens h
    · rintro p rfl hError
      exact (hError ▸ hStep).read_error h
    · rintro p rfl hError
      have hNone : r'.rest = [] := (hError ▸ hStep).next_error
      exact ⟨h'.position_eq_length_iff.2 hNone, exhausted_after hNone⟩
  · obtain ⟨es, ending, hItems⟩ := exists_items start
    refine ⟨es, ending, ?_, ?_⟩
    · rw [parseProgram, hItems, mapM_itemsOf]
    · have hReplies := replies_next start
      simpa [hItems, itemsOf, Function.comp_def] using hReplies

end EmbeddedLisp.Reader
