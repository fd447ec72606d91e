import EmbeddedLisp.Interpreter
import EmbeddedLisp.Proofs.Evaluation.Coupling
import EmbeddedLisp.Proofs.Reader.Continuation
import EmbeddedLisp.Proofs.Reader.Prolongation

/-! Texts in pieces. Two texts with the end of a line between them are evaluated as the one text and
then the other: no token goes over the end of a line, the reader is asked for one form at a time,
and what is evaluated has its effects before the next form is read. So it is only in the
surroundings of a syntax error that the other text shows. A text that fails keeps what was evaluated
before, and what comes behind it has no effects, unless it fails because it breaks off. -/
namespace EmbeddedLisp

open EmbeddedLisp.Action

/-- An error without the surroundings that it gives if it is a syntax error. -/
def Error.withoutContext : Error → Error
  | .reading p => .reading p.withoutContext
  | error => error

namespace Interpreter

open Reader (outline)

/-- What an interpreter does with an item of a reader. -/
def evaluateItem (i : Interpreter) (host : Host) : Except SyntaxError Expression → Action Value
  | .ok e => i.eval host e
  | .error p => fail (.reading p)

/-- Evaluates items in turn, for the value of the last one. -/
def evaluateItems (i : Interpreter) (host : Host) (latest : Value)
    (items : List (Except SyntaxError Expression)) : Action Value :=
  items.foldlM (fun _ item => i.evaluateItem host item) latest

variable {i : Interpreter} {host : Host}

theorem evalSource_eq (i : Interpreter) (host : Host) (text : String) :
    i.evalSource host text =
      i.evaluateItems host .nil (Reader.ofText i.options.reading text).items :=
  rfl

theorem evaluateItems_append (latest : Value) (items later : List (Except SyntaxError Expression)) :
    i.evaluateItems host latest (items ++ later) =
      i.evaluateItems host latest items >>= fun v => i.evaluateItems host v later :=
  List.foldlM_append

/-- The value before does not matter if there is something to evaluate. -/
theorem evaluateItems_of_ne_nil {items : List (Except SyntaxError Expression)} (hSome : items ≠ [])
    (latest v : Value) : i.evaluateItems host latest items = i.evaluateItems host v items := by
  cases items with
  | nil => exact absurd rfl hSome
  | cons => rfl

theorem evaluateItems_cons_apply (latest : Value) (item : Except SyntaxError Expression)
    (rest : List (Except SyntaxError Expression)) (m : Machine) :
    i.evaluateItems host latest (item :: rest) m =
      match i.evaluateItem host item m with
      | .ok v after => i.evaluateItems host v rest after
      | .error interrupt after => .error interrupt after := by
  simp only [evaluateItems, List.foldlM_cons, Bind.bind, EStateM.bind]
  cases i.evaluateItem host item m <;> rfl

/-- Items with the same outline are evaluated in the same way. -/
theorem evaluateItems_outline_congr {items items' : List (Except SyntaxError Expression)}
    (hOutline : items'.map outline = items.map outline) (latest : Value) (m : Machine) :
    mapError .withoutContext (i.evaluateItems host latest items') m =
      mapError .withoutContext (i.evaluateItems host latest items) m := by
  induction items generalizing items' latest m with
  | nil => rw [List.map_eq_nil_iff.1 hOutline]
  | cons item rest ih =>
    obtain ⟨item', rest', rfl, hFirst, hRest⟩ := List.map_eq_cons_iff.1 hOutline
    rw [mapError_apply, mapError_apply, evaluateItems_cons_apply, evaluateItems_cons_apply]
    cases item with
    | ok e =>
      cases item' with
      | ok e' =>
        cases hFirst
        cases i.evaluateItem host (.ok e) m with
        | ok v after =>
          rw [← mapError_apply, ← mapError_apply]
          exact ih hRest v after
        | error interrupt after => rfl
      | error p' => cases hFirst
    | error p =>
      cases item' with
      | ok e' => cases hFirst
      | error p' =>
        have hSame : p'.withoutContext = p.withoutContext := Except.error.inj hFirst
        show EStateM.Result.error (.error (.reading p'.withoutContext)) m =
          (.error (.error (.reading p.withoutContext)) m : Outcome Value)
        rw [hSame]

/-- Items that are evaluated to the end are forms. -/
theorem exists_forms_of_evaluateItems {items : List (Except SyntaxError Expression)}
    {latest v : Value} {m reached : Machine}
    (hItems : i.evaluateItems host latest items m = .ok v reached) :
    ∃ es : List Expression, items = es.map .ok := by
  induction items generalizing latest m with
  | nil => exact ⟨[], rfl⟩
  | cons item rest ih =>
    rw [evaluateItems_cons_apply] at hItems
    cases item with
    | error p => cases hItems
    | ok e =>
      split at hItems
      · obtain ⟨es, rfl⟩ := ih hItems
        exact ⟨e :: es, rfl⟩
      · cases hItems

/-- Where the evaluation of items fails, those before the failing one have been evaluated and those
behind it have not. -/
theorem exists_failing_item {items : List (Except SyntaxError Expression)} {latest : Value}
    {m after : Machine} {interrupt : Interrupt}
    (hItems : i.evaluateItems host latest items m = .error interrupt after) :
    ∃ before item behind v reached, items = before ++ item :: behind ∧
      i.evaluateItems host latest before m = .ok v reached ∧
      i.evaluateItem host item reached = .error interrupt after := by
  induction items generalizing latest m with
  | nil => cases hItems
  | cons item rest ih =>
    rw [evaluateItems_cons_apply] at hItems
    split at hItems
    · rename_i v reached hItem
      obtain ⟨before, failing, behind, v', reached', rfl, hBefore, hFailing⟩ := ih hItems
      refine ⟨item :: before, failing, behind, v', reached', rfl, ?_, hFailing⟩
      rw [evaluateItems_cons_apply, hItem]
      exact hBefore
    · rename_i interrupt' after' hItem
      cases hItems
      exact ⟨[], item, rest, latest, m, rfl, rfl, hItem⟩

theorem ofText_lineEnd (options : Reader.Options) (a b : String) :
    Reader.ofText options (a ++ "\n" ++ b) =
      ⟨options.maxNesting, Token.scan options.comments a ++ Token.scan options.comments b,
        Token.scan options.comments a ++ Token.scan options.comments b⟩ := by
  simp only [Reader.ofText, String.append_assoc, Token.scan_lineEnd]

/-- What remains of two texts behind the forms of the first one: in the first text, and with the
second one after it. -/
inductive Remainders (options : Reader.Options) (a b : String) :
    (alone whole : List (Except SyntaxError Expression)) → Prop where
  /-- There are forms only. -/
  | none : Remainders options a b []
      (Reader.items ⟨options.maxNesting, Token.scan options.comments a ++
      Token.scan options.comments b, Token.scan options.comments b⟩)
  /-- The first text breaks off. -/
  | incomplete {p : SyntaxError} (hKind : p.kind = .incomplete)
      (whole : List (Except SyntaxError Expression)) : Remainders options a b [.error p] whole
  | failing {p p' : SyntaxError} (hSame : p'.withoutContext = p.withoutContext) :
      Remainders options a b [.error p] [.error p']

theorem exists_remainders (options : Reader.Options) (a b : String) :
    ∃ (es : List Expression) (alone whole : List (Except SyntaxError Expression)),
      (Reader.ofText options a).items = es.map .ok ++ alone ∧
      (Reader.ofText options (a ++ "\n" ++ b)).items = es.map .ok ++ whole ∧
      Remainders options a b alone whole := by
  obtain ⟨ds, rest, hTokens, hWithin, hHalts⟩ :=
    Reader.exists_derivations options.maxNesting (Token.scan options.comments a)
  have hAlone := Reader.items_of_derivations (r := Reader.ofText options a) ds hTokens hWithin
  have hTokensOn : (Reader.ofText options (a ++ "\n" ++ b)).rest =
      Derivation.tokensEach ds ++ (rest ++ Token.scan options.comments b) := by
    rw [ofText_lineEnd, hTokens, List.append_assoc]
  have hWhole := Reader.items_of_derivations ds hTokensOn (by rwa [ofText_lineEnd])
  refine ⟨Derivation.formEach ds, _, _, hAlone, hWhole, ?_⟩
  rw [ofText_lineEnd]
  rcases hHalts with rfl | ⟨failure, stopped, hSome, hRead⟩
  · rw [Reader.items_of_none (Reader.next?_of_nil rfl), List.nil_append]
    exact .none
  have hError := Reader.items_of_error (r := { Reader.ofText options a with rest }) hSome hRead
  rw [hError]
  by_cases hKind : failure.kind = .incomplete
  · exact .incomplete hKind _
  have hReadOn := Reader.readForm_append_of_error hRead hKind (Token.scan options.comments b)
  have hErrorOn := Reader.items_of_error
    (r := ⟨options.maxNesting, Token.scan options.comments a ++ Token.scan options.comments b,
      rest ++ Token.scan options.comments b⟩) (List.append_ne_nil_of_left_ne_nil hSome _) hReadOn
  rw [hErrorOn]
  have hSuffix : stopped <:+ Token.scan options.comments a :=
    (Reader.readForm_error_suffix hRead).trans ⟨_, hTokens.symm⟩
  have hSuffixOn : stopped ++ Token.scan options.comments b <:+
      Token.scan options.comments a ++ Token.scan options.comments b :=
    List.suffix_append_self_iff.2 hSuffix
  refine .failing ?_
  rw [Reader.errorAt_withoutContext hSuffixOn, Reader.errorAt_withoutContext hSuffix]
  obtain ⟨t, behind, rfl⟩ := List.exists_cons_of_ne_nil (Reader.rest_ne_nil_of_error hRead hKind)
  rfl

/-- What follows a text that was evaluated to its end is evaluated as on its own. -/
theorem evaluateItems_behind (options : Reader.Options) (before : List Token) (b : String)
    (hSome : Token.scan options.comments b ≠ []) (latest : Value) (m : Machine) :
    mapError .withoutContext (i.evaluateItems host latest
        (Reader.items ⟨options.maxNesting, before ++ Token.scan options.comments b,
          Token.scan options.comments b⟩)) m =
      mapError .withoutContext (i.evaluateItems host .nil (Reader.ofText options b).items) m := by
  have hItems : (Reader.ofText options b).items ≠ [] := Reader.items_ne_nil hSome
  rw [evaluateItems_of_ne_nil hItems .nil latest]
  apply evaluateItems_outline_congr
  exact Reader.items_outline_congr rfl rfl (List.suffix_refl _) (List.suffix_append _ _)

/-- A text that begins with forms is evaluated from where those leave the machine. -/
theorem evalSource_of_items {text : String} {es : List Expression}
    {tail : List (Except SyntaxError Expression)}
    (hItems : (Reader.ofText i.options.reading text).items = es.map .ok ++ tail) (m : Machine) :
    i.evalSource host text m =
      match i.evaluateItems host .nil (es.map .ok) m with
      | .ok v reached => i.evaluateItems host v tail reached
      | .error interrupt reached => .error interrupt reached := by
  rw [evalSource_eq, hItems, evaluateItems_append]
  simp only [Bind.bind, EStateM.bind]
  cases i.evaluateItems host .nil (es.map .ok) m <;> rfl

/-- Behind a text that is evaluated to its end. -/
theorem evalSource_append_of_ok {a : String} {m after : Machine} {v : Value}
    (hFirst : i.evalSource host a m = .ok v after) (b : String) :
    if Token.scan i.options.reading.comments b = [] then
      i.evalSource host b after = .ok .nil after ∧
        i.evalSource host (a ++ "\n" ++ b) m = .ok v after
    else
      mapError .withoutContext (i.evalSource host (a ++ "\n" ++ b)) m =
        mapError .withoutContext (i.evalSource host b) after := by
  obtain ⟨es, alone, whole, hAlone, hWhole, hRemainders⟩ := exists_remainders i.options.reading a b
  have hOn : i.evalSource host (a ++ "\n" ++ b) m = _ := evalSource_of_items hWhole m
  rw [evalSource_of_items hAlone] at hFirst
  cases hForms : i.evaluateItems host .nil (es.map .ok) m with
  | error interrupt reached =>
    rw [hForms] at hFirst
    cases hFirst
  | ok latest reached =>
    rw [hForms] at hFirst hOn
    cases hRemainders with
    | incomplete | failing => cases hFirst
    | none =>
      cases hFirst
      split
      next hNothing =>
        have hItems : (Reader.ofText i.options.reading b).items = [] :=
          Reader.items_of_none (Reader.next?_of_nil hNothing)
        rw [hOn, evalSource_eq, hItems, hNothing, Reader.items_of_none (Reader.next?_of_nil rfl)]
        exact ⟨rfl, rfl⟩
      next hSome =>
        rw [evalSource_eq i host b, ← evaluateItems_behind i.options.reading _ b hSome v after,
          mapError_apply, hOn, mapError_apply]

/-- Behind a text that fails, but does not break off. -/
theorem evalSource_append_of_error {a : String} {m after : Machine} {error : Error}
    (hFirst : i.evalSource host a m = .error (.error error) after)
    (hKind : ∀ p, error = .reading p → p.kind ≠ .incomplete) (b : String) :
    mapError .withoutContext (i.evalSource host (a ++ "\n" ++ b)) m =
      .error (.error error.withoutContext) after := by
  obtain ⟨es, alone, whole, hAlone, hWhole, hRemainders⟩ := exists_remainders i.options.reading a b
  rw [mapError_apply, evalSource_of_items hWhole]
  rw [evalSource_of_items hAlone] at hFirst
  cases hForms : i.evaluateItems host .nil (es.map .ok) m with
  | error interrupt reached =>
    rw [hForms] at hFirst
    cases hFirst
    rfl
  | ok latest reached =>
    rw [hForms] at hFirst
    cases hRemainders with
    | none => cases hFirst
    | incomplete hIncomplete =>
      cases hFirst
      exact absurd hIncomplete (hKind _ rfl)
    | @failing p p' hSame =>
      cases hFirst
      show EStateM.Result.error (.error (.reading p'.withoutContext)) after =
        (.error (.error (.reading p.withoutContext)) after : Outcome Value)
      rw [hSame]

/-- Feeding a text in pieces is the same as feeding it whole. Behind a first piece that comes to a
value, the second one is evaluated from where the first has left the machine; if there is nothing in
it, the value is that of the first. A first piece that fails, with an error of the evaluation or
with a token that cannot stand where it stands, fails in the same way if there is a second one. The
machine is left as the failing item leaves it, after all forms before it. Syntax errors are the same
but for the surroundings. -/
theorem evaluates_in_pieces (i : Interpreter) (host : Host) (a b : String) (m : Machine) :
    (∀ v after, i.evalSource host a m = .ok v after →
      if Token.scan i.options.reading.comments b = [] then
        i.evalSource host b after = .ok .nil after ∧
          i.evalSource host (a ++ "\n" ++ b) m = .ok v after
      else
        mapError .withoutContext (i.evalSource host (a ++ "\n" ++ b)) m =
          mapError .withoutContext (i.evalSource host b) after) ∧
    ∀ error after, i.evalSource host a m = .error (.error error) after →
      (∀ p, error = .reading p → p.kind = .unexpectedClose ∨ p.kind = .tooDeeplyNested) →
      mapError .withoutContext (i.evalSource host (a ++ "\n" ++ b)) m =
          .error (.error error.withoutContext) after ∧
        ∃ (before : List Expression) (item : Except SyntaxError Expression)
          (behind : List (Except SyntaxError Expression)) (latest : Value) (reached : Machine),
          (Reader.ofText i.options.reading a).items = before.map .ok ++ item :: behind ∧
          i.evaluateItems host .nil (before.map .ok) m = .ok latest reached ∧
          i.evaluateItem host item reached = .error (.error error) after := by
  refine ⟨fun v after hFirst => evalSource_append_of_ok hFirst b, fun error after hFirst hKind =>
    ⟨?_, ?_⟩⟩
  · refine evalSource_append_of_error hFirst (fun p hReading hIncomplete => ?_) b
    rcases hKind p hReading with hOther | hOther <;> rw [hIncomplete] at hOther <;> cases hOther
  · rw [evalSource_eq] at hFirst
    obtain ⟨before, item, behind, latest, reached, hItems, hBefore, hItem⟩ :=
      exists_failing_item hFirst
    obtain ⟨forms, rfl⟩ := exists_forms_of_evaluateItems hBefore
    exact ⟨forms, item, behind, latest, reached, hItems, hBefore, hItem⟩

end Interpreter

end EmbeddedLisp
