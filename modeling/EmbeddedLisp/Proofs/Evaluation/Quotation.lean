import EmbeddedLisp.Interpreter
import EmbeddedLisp.Proofs.Evaluation.DerivedForms
import EmbeddedLisp.Proofs.Reader.Faithful
import EmbeddedLisp.Proofs.Scope.Contents

/-! Quoted data. A quotation turns a form into a value and does nothing else, whatever the form is.
The value has the text of the form, so it is read back where the form was; and a value without text
and procedures is what a quotation of its own text makes, up to the sign of what is not a number. -/
namespace EmbeddedLisp

namespace Value

mutual

/-- The texts in a value, those in its elements among them. -/
def texts : Value → List String
  | .text contents => [contents]
  | .list elements => textsEach elements
  | _ => []

def textsEach : List Value → List String
  | [] => []
  | v :: rest => v.texts ++ textsEach rest

end

mutual

/-- A value up to the signs of what is not a number. -/
def identifyNaN : Value → Value
  | .float x => .float x.identifyNaN
  | .list elements => .list (identifyNaNEach elements)
  | v => v

def identifyNaNEach : List Value → List Value
  | [] => []
  | v :: rest => v.identifyNaN :: identifyNaNEach rest

end

mutual

/-- Data is written as its form is, by induction over the form, -/
theorem render_ofExpression : (e : Expression) → (ofExpression e).render = e.render
  | .integer _ | .float _ | .text _ | .boolean _ => rfl
  | .list es => congrArg writeList (renderEach_ofEach es)

theorem renderEach_ofEach :
    (es : List Expression) → renderEach (ofEach es) = Expression.renderEach es
  | [] => rfl
  | e :: es => congrArg₂ List.cons (render_ofExpression e) (renderEach_ofEach es)

end

mutual

/-- and the texts in it are those of the form. -/
theorem texts_ofExpression : (e : Expression) → (ofExpression e).texts = e.texts
  | .integer _ | .float _ | .text _ | .boolean _ => rfl
  | .list es => textsEach_ofEach es

theorem textsEach_ofEach : (es : List Expression) → textsEach (ofEach es) = Expression.textsEach es
  | [] => rfl
  | e :: es => congrArg₂ (· ++ ·) (texts_ofExpression e) (textsEach_ofEach es)

end

mutual

theorem identifyNaN_ofExpression :
    (e : Expression) → (ofExpression e).identifyNaN = ofExpression e.identifyNaN
  | .integer _ | .float _ | .text _ | .boolean _ => rfl
  | .list es => congrArg Value.list (identifyNaNEach_ofEach es)

theorem identifyNaNEach_ofEach : (es : List Expression) →
    identifyNaNEach (ofEach es) = ofEach (Expression.identifyNaNEach es)
  | [] => rfl
  | e :: es => congrArg₂ List.cons (identifyNaN_ofExpression e) (identifyNaNEach_ofEach es)

end

mutual

/-- A value without procedures is the data that some form stands for. -/
theorem exists_ofExpression : (v : Value) → v.procedures = [] → ∃ e, ofExpression e = v
  | .integer n, _ => ⟨.integer n, rfl⟩
  | .float x, _ => ⟨.float x, rfl⟩
  | .text contents, _ => ⟨.text contents, rfl⟩
  | .boolean b, _ => ⟨.boolean b, rfl⟩
  | .list vs, hNone => by
    obtain ⟨es, rfl⟩ := exists_ofEach vs hNone
    exact ⟨.list es, rfl⟩

/-- Elements without procedures are the data of some forms, one by one. -/
theorem exists_ofEach : (vs : List Value) → proceduresEach vs = [] → ∃ es, ofEach es = vs
  | [], _ => ⟨[], rfl⟩
  | v :: vs, hNone => by
    obtain ⟨hFirst, hRest⟩ := List.append_eq_nil_iff.1 hNone
    obtain ⟨e, rfl⟩ := exists_ofExpression v hFirst
    obtain ⟨es, rfl⟩ := exists_ofEach vs hRest
    exact ⟨e :: es, rfl⟩

end

end Value

namespace Evaluation

open Expression (Faithful)

/-- A quotation comes to its data at any limit, since nothing is evaluated inside of it. -/
theorem evaluate_quote (host : Host) (limit : Option Nat) (e : Expression) (frame : FrameId)
    (m : Machine) :
    Interpreter.evaluate host limit (Keyword.quote.form [e]) frame m = .ok (.ofExpression e) m := by
  cases limit with
  | none => exact evalUnlimited_quote host e frame m
  | some limit =>
    have hFinished : Finished (eval host (limit + 1) (Keyword.quote.form [e]) frame m) := by
      simp [eval_quote]
    have hWithin := evalWithin_of_finished hFinished
    rwa [eval_quote] at hWithin

/-- Data without text is read back, up to the signs of what is not a number. -/
theorem parse_render_of_texts {v : Value} (hTexts : v.texts = []) (hProcedures : v.procedures = [])
    (comments : Bool) :
    ∃ e, Reader.parse { comments } v.render = .ok e ∧ Value.ofExpression e = v.identifyNaN := by
  obtain ⟨e, rfl⟩ := v.exists_ofExpression hProcedures
  rw [Value.texts_ofExpression] at hTexts
  refine ⟨e.identifyNaN, ?_, (Value.identifyNaN_ofExpression e).symm⟩
  rw [Value.render_ofExpression]
  apply Reader.parse_render
  · simp [hTexts]
  · intro limit hNone
    cases hNone

/-- Quoted data survives being written and read, and its quotation evaluates nothing: it succeeds
within every limit, changes nothing and makes a value with the text of the form. If the form was
read, alone or among others, then this text is read as the form again, under the same options and
under the plain ones, and so quoted as the same value. And the text of a value without text and
procedures is read as a form whose quotation makes the value, up to the signs of what is not a
number. -/
theorem quoted_data_survives (host : Host) (limit : Option Nat) (frame : FrameId) (m : Machine) :
    (∀ e, ∃ v, Interpreter.evaluate host limit (Keyword.quote.form [e]) frame m = .ok v m ∧
      v.render = e.render ∧
      ∀ options text, Reader.parse options text = .ok e ∨
        .ok e ∈ (Reader.ofText options text).items →
        Reader.parse options v.render = .ok e ∧ Reader.parse {} v.render = .ok e) ∧
    ∀ v : Value, v.texts = [] → v.procedures = [] → ∀ comments,
      ∃ e, Reader.parse { comments } v.render = .ok e ∧
        Interpreter.evaluate host limit (Keyword.quote.form [e]) frame m = .ok v.identifyNaN m := by
  constructor
  · intro e
    refine ⟨.ofExpression e, evaluate_quote host limit e frame m, Value.render_ofExpression e, ?_⟩
    intro options text hRead
    have hFaithful : Faithful options.comments e ∧ Reader.Within options.maxNesting e.height := by
      rcases hRead with hParse | hMem
      · exact ⟨.of_parse hParse, (Reader.of_parse_eq_ok hParse).2.2⟩
      · exact Faithful.of_mem_items hMem
    rw [Value.render_ofExpression]
    refine ⟨hFaithful.1.parse hFaithful.2, hFaithful.1.plain.parse fun limit hNone => ?_⟩
    cases hNone
  · intro v hTexts hProcedures comments
    obtain ⟨e, hParse, hSame⟩ := parse_render_of_texts hTexts hProcedures comments
    exact ⟨e, hParse, hSame ▸ evaluate_quote host limit e frame m⟩

/-- An assignment that is quoted does not assign, and its comment is gone; and data with a negative
zero and what is not a number comes back from its own text. -/
theorem quoted_data_survives_assignment :
    let options : Reader.Options := { comments := true }
    let source := "(set! x ; not now\n  (quote \"a\") -0.0)"
    let e : Expression := .list [.text "set!", .text "x", .list [.text "quote", .text "\"a\""],
      .float (.signed true .zero)]
    let m : Machine := ⟨⟨#[⟨.ofList [("x", .integer 1)], none⟩], 0⟩, []⟩
    let data : Value :=
      .list [.float (.signed true .zero), .list [.boolean false, .float (.nan true)], .integer 1]
    Reader.parse options source = .ok e ∧ data.texts = [] ∧ data.procedures = [] ∧
      (∃ v, Interpreter.evaluate ([] : Host) (some 0) (Keyword.quote.form [e]) 0 m = .ok v m ∧
      v.render = e.render ∧ Reader.parse options v.render = .ok e) ∧
      ∃ e', Reader.parse {} data.render = .ok e' ∧
        Interpreter.evaluate ([] : Host) (some 0) (Keyword.quote.form [e']) 0 m =
        .ok data.identifyNaN m := by
  intro options source e m data
  have hTokens : Token.scan true source = [.opening, .atom "set!", .atom "x", .opening,
      .atom "quote", .atom "\"a\"", .closing, .atom "-0.0", .closing] := by decide
  have hRead : Reader.parse options source = .ok e := by
    rw [Reader.parse_eq_ok_iff_readForm, hTokens]
    rfl
  have hTexts : data.texts = [] := rfl
  have hProcedures : data.procedures = [] := rfl
  obtain ⟨hForms, hData⟩ := quoted_data_survives [] (some 0) 0 m
  obtain ⟨v, hQuoted, hRender, hBack⟩ := hForms e
  exact ⟨hRead, hTexts, hProcedures, ⟨v, hQuoted, hRender, (hBack options source (.inl hRead)).1⟩,
    hData data hTexts hProcedures false⟩

end Evaluation

end EmbeddedLisp
