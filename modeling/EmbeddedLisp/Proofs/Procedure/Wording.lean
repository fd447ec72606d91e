import EmbeddedLisp.Proofs.Evaluation.Course
import EmbeddedLisp.Proofs.Procedure.Acceptance
import EmbeddedLisp.Proofs.Reader.RoundTrip

/-! How faults are worded. The builtin procedures show kinds, counts and numbers of what they
reject, and only special forms show parts of the source. As the text of a form that was read is in
one line, so is the message of every fault. -/
namespace EmbeddedLisp

/-- Whether a text has no line break. -/
def OneLine (text : String) : Prop := '\n' ∉ text.toList

instance (text : String) : Decidable (OneLine text) :=
  inferInstanceAs (Decidable ('\n' ∉ text.toList))

theorem OneLine.append {s t : String} (hFirst : OneLine s) (hSecond : OneLine t) :
    OneLine (s ++ t) := by
  simp only [OneLine, String.toList_append, List.mem_append, not_or]
  exact ⟨hFirst, hSecond⟩

/-- A word of the language ends before any blank, so it has no line break. -/
theorem oneLine_of_isWord {comments : Bool} {text : String} (hWord : Token.IsWord comments text) :
    OneLine text := by
  intro hMem
  have hRole := hWord.2 '\n' hMem
  cases comments <;> exact absurd hRole (by decide)

/-- Digits only. -/
theorem oneLine_toString (n : Nat) : OneLine (toString n) := by
  have hDigits : (toString n).toList = Nat.toDigits 10 n := by simp [Nat.toString_eq_repr, Nat.repr]
  intro hMem
  rw [hDigits] at hMem
  exact absurd (Decimal.isDigit_of_mem_toDigits hMem) (by decide)

namespace Expression

mutual

/-- A form is printed in one line as long as the texts in it are, by induction over the form. -/
theorem oneLine_render : (e : Expression) → (∀ t ∈ e.texts, OneLine t) → OneLine e.render
  | .integer n, _ => oneLine_of_isWord (Token.isWord_integer n : Token.IsWord true n.render)
  | .float x, _ => oneLine_of_isWord (Token.isWord_float x : Token.IsWord true x.render)
  | .text t, hTexts => hTexts t (List.mem_singleton_self t)
  | .boolean b, _ => oneLine_of_isWord (Token.isWord_boolean b : Token.IsWord true (writeBoolean b))
  | .list es, hTexts => by
    have hElements := oneLine_renderEach es hTexts
    have hOpening : OneLine "(" := by decide
    have hClosing : OneLine ")" := by decide
    exact (hOpening.append hElements).append hClosing

/-- The elements of a list, which are printed with spaces between them. -/
theorem oneLine_renderEach : (es : List Expression) → (∀ t ∈ textsEach es, OneLine t) →
    OneLine (" ".intercalate (renderEach es))
  | [], _ => by decide
  | [e], hTexts => by
    simpa [renderEach] using oneLine_render e fun t hMem => hTexts t (List.mem_append_left _ hMem)
  | e :: e' :: es, hTexts => by
    have hFirst := oneLine_render e fun t hMem => hTexts t (List.mem_append_left _ hMem)
    have hRest :=
      oneLine_renderEach (e' :: es) fun t hMem => hTexts t (List.mem_append_right _ hMem)
    have hSpace : OneLine " " := by decide
    have hText : " ".intercalate (renderEach (e :: e' :: es)) =
        e.render ++ " " ++ " ".intercalate (renderEach (e' :: es)) := by simp [renderEach]
    rw [hText]
    exact (hFirst.append hSpace).append hRest

end

end Expression

namespace Fault

/-- Whether a fault shows no part of the source and no reason of a host. -/
def Plain : Fault → Prop
  | .notSymbol _ _ | .duplicateParameter _ | .duplicateBinding _ | .malformedBinding
    _ | .reported _ => False
  | _ => True

theorem oneLine_kind (kind : Kind) : OneLine kind.name := by cases kind <;> decide

/-- The names of parameters and procedures are a finite number of texts. -/
theorem oneLine_parameter (parameter : Parameter) :
    OneLine parameter.name := by cases parameter <;> decide

theorem oneLine_builtin (procedure : Builtin) :
    OneLine procedure.name ∧ OneLine procedure.activity := by
  cases procedure <;> decide

/-- What is said about a number of arguments is put together from words and numbers. -/
theorem oneLine_arity (arity : Arity) : OneLine arity.render := by
  have hLeast : OneLine "at least " := by decide
  have hTo : OneLine " to " := by decide
  cases arity with
  | exactly n => exact oneLine_toString n
  | atLeast least => exact hLeast.append (oneLine_toString least)
  | between least greatest =>
    exact ((oneLine_toString least).append hTo).append (oneLine_toString greatest)
  | any => exact (by decide : OneLine "any number of")

/-- A fault that shows nothing of the source is told in one line. -/
theorem Plain.oneLine {fault : Fault} (hPlain : fault.Plain) : OneLine fault.message := by
  have hExpected : OneLine "expected " := by decide
  have hQuote : OneLine "'" := by decide
  cases fault with
  | wrongCount expected given =>
    have hGot : OneLine " arguments, got " := by decide
    exact ((hExpected.append (oneLine_arity expected)).append hGot).append (oneLine_toString given)
  | wrongKind expected given =>
    have hGot : OneLine ", got " := by decide
    exact ((hExpected.append (oneLine_parameter expected)).append hGot).append (oneLine_kind given)
  | notProcedure given => exact (oneLine_kind given).append (by decide)
  | cannotCombine operator left right =>
    have hOperator :=
      (hQuote.append (oneLine_builtin operator).1).append (by decide : OneLine "' cannot combine ")
    have hWith : OneLine " with " := by decide
    exact ((hOperator.append (oneLine_kind left)).append hWith).append (oneLine_kind right)
  | undefinedForText operator =>
    exact (hQuote.append (oneLine_builtin operator).1).append (by decide)
  | overflow operation =>
    exact (by decide : OneLine "integer overflow in ").append (oneLine_builtin operation).2
  | negativeFactorial given =>
    have hNumber : OneLine given.render :=
      oneLine_of_isWord (Token.isWord_integer given : Token.IsWord true given.render)
    exact (by decide : OneLine "factorial of negative number ").append hNumber
  | cannotSum given => exact (by decide : OneLine "fsum cannot add ").append (oneLine_kind given)
  | divisionByZero | moduloByZero | firstOfEmpty | restOfEmpty | namelessDefinition
      | malformedDefinition
  | parametersNotList | bindingsNotList => decide
  | notSymbol | duplicateParameter | duplicateBinding | malformedBinding | reported =>
    exact hPlain.elim

end Fault

/-- What is wrong with the contents of a list is told without showing them. -/
theorem Fault.OfContents.plain {fault : Fault} (hContents : fault.OfContents) : fault.Plain := by
  cases fault <;> trivial

/-- The builtin procedures show nothing of the source. -/
theorem Builtin.operation_plain (procedure : Builtin) (values : List Value) :
    Faults Fault.Plain (procedure.operation.call values) := by
  intro fault hCall
  cases hCount : procedure.operation.arity.accepts values.length with
  | true => exact (procedure.operation_guards values hCount fault hCall).plain
  | false =>
    rw [procedure.operation.call_of_not_accepts hCount] at hCall
    cases hCall
    trivial

open Evaluation (FormError)

/-- What a special form shows of its parts is in one line if they are. -/
theorem Evaluation.FormError.oneLine {keyword : Keyword} {parts : List Expression} {fault : Fault}
    (hError : FormError keyword parts (.rejected fault none))
    (hParts : ∀ e, Expression.Inside parts e → OneLine e.render) : OneLine fault.message := by
  cases hError with
  | notSymbol binder hInside =>
    have hBinder : OneLine (binder.name ++ " requires a symbol, got ") := by cases binder <;> decide
    exact hBinder.append (hParts _ hInside)
  | duplicateParameter hInside =>
    exact (by decide : OneLine "duplicate lambda parameter: ").append (hParts _ hInside)
  | duplicateBinding hInside =>
    exact (by decide : OneLine "duplicate let binding: ").append (hParts _ hInside)
  | malformedBinding hInside =>
    exact (by decide : OneLine "let binding must be (name expr), got ").append (hParts _ hInside)
  | wrongCount | namelessDefinition | malformedDefinition | parametersNotList | bindingsNotList =>
    exact Fault.Plain.oneLine trivial

end EmbeddedLisp
