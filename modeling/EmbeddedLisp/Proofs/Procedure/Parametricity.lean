import EmbeddedLisp.Proofs.Evaluation.Coupling
import EmbeddedLisp.Proofs.Procedure.Alike

/-! Builtin procedures do not tell apart values that differ only in their procedures. Given
arguments that are alike they answer with values that are alike or with the same fault. What they
compute comes from numbers, texts and booleans, and all that is done with other values is to test
their kind and to move them. -/
namespace EmbeddedLisp

variable {α β γ δ : Type} {R : Procedure → Procedure → Prop}

/-- Related results, or the same fault. -/
inductive Answers (R : α → β → Prop) : Except Fault α → Except Fault β → Prop where
  | ok {x : α} {y : β} (hResult : R x y) : Answers R (.ok x) (.ok y)
  | error (fault : Fault) : Answers R (.error fault) (.error fault)

/-- Where one part fails, both whole calls fail with that fault. -/
theorem Answers.bind {R : α → β → Prop} {Q : γ → δ → Prop} {x : Except Fault α} {y : Except Fault β}
    {f : α → Except Fault γ} {g : β → Except Fault δ} (hFirst : Answers R x y)
    (hSecond : ∀ {a b}, R a b → Answers Q (f a) (g b)) : Answers Q (x >>= f) (y >>= g) := by
  cases hFirst with
  | ok hResult => exact hSecond hResult
  | error fault => exact .error fault

theorem Answers.refl {R : α → α → Prop} (hRefl : ∀ x, R x x) (x : Except Fault α) :
    Answers R x x := by
  cases x with
  | ok a => exact .ok (hRefl a)
  | error fault => exact .error fault

/-- Arguments that are handed over for values that are alike. -/
def Parameter.Related (R : Procedure → Procedure → Prop) :
    (parameter : Parameter) → (a b : parameter.Carrier) → Prop
  | .any => Alike R
  | .list => AlikeEach R
  | .integer | .float | .number => Eq

/-- Arguments that are related one by one, each as its parameter has it. -/
def Arguments.Related (R : Procedure → Procedure → Prop) :
    (parameters : List Parameter) → (a b : Arguments parameters) → Prop
  | [], _, _ => True
  | parameter :: rest, a, b => parameter.Related R a.1 b.1 ∧ Arguments.Related R rest a.2 b.2

/-- Whether a value is of the type of a parameter does not depend on the procedures in it. -/
theorem Parameter.convert_answers (parameter : Parameter) {v v' : Value} (hValues : Alike R v v') :
    Answers (parameter.Related R) (parameter.convert v) (parameter.convert v') := by
  cases parameter with
  | any => exact .ok hValues
  | list =>
    cases hValues with
    | list hEach => exact .ok hEach
    | _ => exact .error _
  | integer => cases hValues <;> exact Answers.refl (fun _ => rfl) _
  | float => cases hValues <;> exact Answers.refl (fun _ => rfl) _
  | number => cases hValues <;> exact Answers.refl (fun _ => rfl) _

theorem AlikeEach.length_eq {vs vs' : List Value} (hEach : AlikeEach R vs vs') :
    vs'.length = vs.length := (alikeEach_iff.1 hEach).length_eq.symm

/-- The first argument of a wrong type is the same one on both sides, and it is named in the same
way. -/
theorem Arguments.convert_answers (parameters : List Parameter) {vs vs' : List Value}
    (hEach : AlikeEach R vs vs') (hLength : vs.length = parameters.length)
    (hLength' : vs'.length = parameters.length) :
    Answers (Arguments.Related R parameters) (Arguments.convert parameters vs hLength)
      (Arguments.convert parameters vs' hLength') := by
  induction parameters generalizing vs vs' with
  | nil =>
    cases hEach with
    | nil => exact .ok trivial
    | cons => cases hLength
  | cons parameter rest ih =>
    cases hEach with
    | nil => cases hLength
    | cons hFirst hRest =>
      refine (parameter.convert_answers hFirst).bind fun hFirst => ?_
      refine (ih hRest (Nat.succ.inj hLength) (Nat.succ.inj hLength')).bind fun hRest => ?_
      exact .ok ⟨hFirst, hRest⟩

namespace Operation

/-- An operation that does not tell procedures apart. -/
def Parametric (operation : Operation) : Prop :=
  ∀ (R : Procedure → Procedure → Prop) (vs vs' : List Value), AlikeEach R vs vs' →
    Answers (Alike R) (operation.call vs) (operation.call vs')

/-- For typed parameters it is enough to look at arguments that have been accepted. -/
theorem typed_parametric {parameters : List Parameter}
    {run : Arguments parameters → Except Fault Value}
    (hRun : ∀ R a b, Arguments.Related R parameters a b → Answers (Alike R) (run a) (run b)) :
    Parametric (.typed parameters run) := by
  intro R vs vs' hEach
  simp only [call, hEach.length_eq]
  split
  · rename_i hLength
    have hLength' : vs'.length = parameters.length := hEach.length_eq.trans hLength
    exact (Arguments.convert_answers parameters hEach hLength hLength').bind (hRun R _ _)
  · exact .error _

/-- Where any number of values is taken, it is the values themselves that are looked at. -/
theorem variadic_parametric {arity : Arity} {run : List Value → Except Fault Value}
    (hRun : ∀ {R vs vs'}, AlikeEach R vs vs' → Answers (Alike R) (run vs) (run vs')) :
    Parametric (.variadic arity run) := by
  intro R vs vs' hEach
  simp only [call, hEach.length_eq]
  exact (Answers.refl (R := Eq) (fun _ => rfl) (arity.check vs.length)).bind fun _ => hRun hEach

end Operation

/-- What binary operators are given of values that are alike is the same. -/
theorem Operands.ofValues_bind {operator : Builtin} {v v' u u' : Value}
    {f : Operands → Except Fault Value} (hLeft : Alike R v v') (hRight : Alike R u u')
    (hEach : ∀ operands, Answers (Alike R) (f operands) (f operands)) :
    Answers (Alike R) (ofValues operator v u >>= f) (ofValues operator v' u' >>= f) := by
  have hSame : ofValues operator v' u' = ofValues operator v u := by
    cases hLeft <;> cases hRight <;> rfl
  rw [hSame]
  exact (Answers.refl (R := Eq) (fun _ => rfl) _).bind fun hOperands => hOperands ▸ hEach _

namespace Arithmetic

/-- The answer is an integer or an overflow, and neither has a procedure in it. -/
theorem inRange_answers (operation : Builtin) (n : Option Fixnum) :
    Answers (Alike R) (inRange operation n) (inRange operation n) := by
  cases n with
  | none => exact .error _
  | some n => exact .ok (.integer n)

variable {v v' u u' : Value}

theorem add_answers (hLeft : Alike R v v') (hRight : Alike R u u') :
    Answers (Alike R) (add v u) (add v' u') :=
  Operands.ofValues_bind hLeft hRight fun
    | .integers a b => inRange_answers .add (a.add? b)
    | .floats x y => .ok (.float (x.add y))
    | .texts s t => .ok (.text (s ++ t))

theorem subtract_answers (hLeft : Alike R v v') (hRight : Alike R u u') :
    Answers (Alike R) (subtract v u) (subtract v' u') :=
  Operands.ofValues_bind hLeft hRight fun
    | .integers a b => inRange_answers .subtract (a.sub? b)
    | .floats x y => .ok (.float (x.sub y))
    | .texts _ _ => .error _

theorem multiply_answers (hLeft : Alike R v v') (hRight : Alike R u u') :
    Answers (Alike R) (multiply v u) (multiply v' u') :=
  Operands.ofValues_bind hLeft hRight fun
    | .integers a b => inRange_answers .multiply (a.mul? b)
    | .floats x y => .ok (.float (x.mul y))
    | .texts _ _ => .error _

/-- A zero divisor is one on both sides. -/
theorem divide_answers (hLeft : Alike R v v') (hRight : Alike R u u') :
    Answers (Alike R) (divide v u) (divide v' u') :=
  Operands.ofValues_bind hLeft hRight fun
    | .integers a b => by
      show Answers _ (if b = 0 then _ else _) (if b = 0 then _ else _)
      split
      · exact .error _
      · exact inRange_answers .divide (a.quotient? b)
    | .floats x y => .ok (.float (x.div y))
    | .texts _ _ => .error _

theorem modulo_answers (a b : Fixnum) : Answers (Alike R) (modulo a b) (modulo a b) := by
  unfold modulo
  split
  · exact .error _
  · exact inRange_answers .modulo _

theorem abs_answers (n : Number) : Answers (Alike R) (abs n) (abs n) := by
  cases n with
  | integer n => exact inRange_answers .abs n.abs?
  | float x => exact .ok (.float x.abs)

/-- Nothing is taken from the argument but its number. -/
theorem factorial_answers (n : Fixnum) : Answers (Alike R) (factorial n) (factorial n) := by
  unfold factorial
  split
  · exact .error _
  · exact inRange_answers .factorial _

theorem copySign_answers (m s : Number) : Answers (Alike R) (copySign m s) (copySign m s) := by
  unfold copySign
  split
  · exact inRange_answers .copysign _
  · exact .ok (.float _)

/-- What is no number is rejected by its kind, which is the same on both sides. -/
theorem summand_answers (hValues : Alike R v v') :
    Answers (Alike R) (summand v) (summand v') := by
  cases hValues with
  | integer n => exact .ok (.integer n)
  | float x => exact .ok (.float x)
  | text contents => exact .ok (.text contents)
  | _ => exact .error _

/-- The integers are added up to the first float, by induction on the values. -/
theorem sum_answers {vs vs' : List Value} (hEach : AlikeEach R vs vs') :
    Answers (Alike R) (sum vs) (sum vs') := by
  have hFold {vs vs' : List Value} (hRest : List.Forall₂ (Alike R) vs vs') {total total' : Value}
      (hTotal : Alike R total total') :
      Answers (Alike R) (vs.foldlM (fun total v => do add total (← summand v)) total)
        (vs'.foldlM (fun total v => do add total (← summand v)) total') := by
    induction hRest generalizing total total' with
    | nil => exact .ok hTotal
    | cons hNext _ ih =>
      simp only [List.foldlM_cons]
      refine Answers.bind ?_ ih
      exact (summand_answers hNext).bind fun hSummand => add_answers hTotal hSummand
  cases hEach with
  | nil => exact .ok (.integer 0)
  | cons hFirst hRest => exact (summand_answers hFirst).bind (hFold (alikeEach_iff.1 hRest))

end Arithmetic

namespace Comparison

/-- Of what can be compared, values that are alike are the same. -/
theorem holds_answers (operator : Builtin) (accepted : List Ordering) {v v' u u' : Value}
    (hLeft : Alike R v v') (hRight : Alike R u u') :
    Answers (Alike R) (holds operator accepted v u) (holds operator accepted v' u') :=
  Operands.ofValues_bind hLeft hRight fun operands =>
    .ok (.boolean (operands.compare?.any accepted.contains))

/-- One of the arguments is chosen, and only by how the numbers compare. -/
theorem extremum_answers (wins : Ordering) {vs vs' : List Value} (hEach : AlikeEach R vs vs') :
    Answers (Alike R) (extremum wins vs) (extremum wins vs') := by
  have hNumbers : Answers Eq (vs.mapM Parameter.number.convert)
      (vs'.mapM Parameter.number.convert) := by
    rw [alikeEach_iff] at hEach
    induction hEach with
    | nil => exact .ok rfl
    | cons hFirst _ ih =>
      simp only [List.mapM_cons]
      refine (Parameter.number.convert_answers hFirst).bind fun hNumber => ih.bind fun hRest => ?_
      cases hNumber
      cases hRest
      exact .ok rfl
  apply hNumbers.bind
  rintro numbers _ rfl
  split
  · exact .error _
  · split
    · exact .ok (.float _)
    · split
      · exact .ok (.float _)
      · exact .ok (.integer _)

end Comparison

namespace Operation

/-- A test that values which are alike cannot be told apart by. -/
theorem onTest_parametric (test : Value → Bool)
    (hTest : ∀ {R v v'}, Alike R v v' → test v' = test v) :
    Parametric (.onValue fun v => .boolean (test v)) := by
  apply typed_parametric
  rintro R ⟨v, _⟩ ⟨v', _⟩ ⟨hValues, -⟩
  show Answers (Alike R) (.ok (.boolean (test v))) (.ok (.boolean (test v')))
  rw [hTest hValues]
  exact .ok (.boolean _)

/-- Procedures of two values of any kind. -/
theorem onValues_parametric {f : Value → Value → Except Fault Value}
    (hEach : ∀ {R v v' u u'}, Alike R v v' → Alike R u u' → Answers (Alike R) (f v u) (f v' u')) :
    Parametric (.onValues f) := by
  apply typed_parametric
  rintro R ⟨v, u, _⟩ ⟨v', u', _⟩ ⟨hLeft, hRight, -⟩
  exact hEach hLeft hRight

/-- A float is the same on both sides, so the result need only be alike to itself. -/
theorem onFloat_parametric {f : Binary64 → Value}
    (hEach : ∀ {R : Procedure → Procedure → Prop} x, Alike R (f x) (f x)) :
    Parametric (.onFloat f) := by
  apply typed_parametric
  rintro R ⟨x, _⟩ ⟨x', _⟩ ⟨hFloat, -⟩
  cases hFloat
  exact .ok (hEach x)

/-- Procedures of one list, whose elements are alike. -/
theorem onList_parametric {f : List Value → Except Fault Value}
    (hEach : ∀ {R vs vs'}, AlikeEach R vs vs' → Answers (Alike R) (f vs) (f vs')) :
    Parametric (.onList f) := by
  apply typed_parametric
  rintro R ⟨vs, _⟩ ⟨vs', _⟩ ⟨hList, -⟩
  exact hEach hList

end Operation

theorem AlikeEach.append {vs vs' us us' : List Value} (hLeft : AlikeEach R vs vs')
    (hRight : AlikeEach R us us') : AlikeEach R (vs ++ us) (vs' ++ us') :=
  alikeEach_iff.2 (List.rel_append (alikeEach_iff.1 hLeft) (alikeEach_iff.1 hRight))

open Operation in
/-- No builtin procedure tells procedures apart. -/
theorem Builtin.operation_parametric (procedure : Builtin) : procedure.operation.Parametric := by
  cases procedure with
  | add => exact onValues_parametric Arithmetic.add_answers
  | subtract => exact onValues_parametric Arithmetic.subtract_answers
  | multiply => exact onValues_parametric Arithmetic.multiply_answers
  | divide => exact onValues_parametric Arithmetic.divide_answers
  | modulo =>
    apply typed_parametric
    rintro R ⟨a, b, _⟩ ⟨a', b', _⟩ ⟨hLeft, hRight, -⟩
    cases hLeft
    cases hRight
    exact Arithmetic.modulo_answers a b
  | abs =>
    apply typed_parametric
    rintro R ⟨n, _⟩ ⟨n', _⟩ ⟨hNumber, -⟩
    cases hNumber
    exact Arithmetic.abs_answers n
  | factorial =>
    apply typed_parametric
    rintro R ⟨n, _⟩ ⟨n', _⟩ ⟨hNumber, -⟩
    cases hNumber
    exact Arithmetic.factorial_answers n
  | copysign =>
    apply typed_parametric
    rintro R ⟨m, n, _⟩ ⟨m', n', _⟩ ⟨hMagnitude, hSign, -⟩
    cases hMagnitude
    cases hSign
    exact Arithmetic.copySign_answers m n
  | max | min => exact variadic_parametric (Comparison.extremum_answers _)
  | equal | less | greater | lessOrEqual | greaterOrEqual =>
    exact onValues_parametric (Comparison.holds_answers _ _)
  | not => exact onTest_parametric _ fun hValues => congrArg Bool.not hValues.isTrue_eq
  | isnan =>
    refine onTest_parametric (fun v => !v.isNumeric) fun hValues => ?_
    simp only [Value.isNumeric, hValues.kind_eq]
  | null => exact onTest_parametric _ Alike.isNil_eq
  | ceil | floor | fabs | trunc => exact onFloat_parametric fun _ => .float _
  | isinf => exact onFloat_parametric fun _ => .boolean _
  | frexp => exact onFloat_parametric fun x => .list (.cons (.float _) (.cons (.integer _) .nil))
  | fmod =>
    apply typed_parametric
    rintro R ⟨x, y, _⟩ ⟨x', y', _⟩ ⟨hLeft, hRight, -⟩
    cases hLeft
    cases hRight
    exact .ok (.float _)
  | ldexp =>
    apply typed_parametric
    rintro R ⟨x, n, _⟩ ⟨x', n', _⟩ ⟨hFloat, hExponent, -⟩
    cases hFloat
    cases hExponent
    exact .ok (.float _)
  | fsum => exact onList_parametric Arithmetic.sum_answers
  | car =>
    refine onList_parametric fun hList => ?_
    cases hList with
    | nil => exact .error _
    | cons hFirst _ => exact .ok hFirst
  | cdr =>
    refine onList_parametric fun hList => ?_
    cases hList with
    | nil => exact .error _
    | cons _ hRest => exact .ok (.list hRest)
  | append =>
    apply typed_parametric
    rintro R ⟨vs, us, _⟩ ⟨vs', us', _⟩ ⟨hLeft, hRight, -⟩
    exact .ok (.list (hLeft.append hRight))
  | cons =>
    apply typed_parametric
    rintro R ⟨v, vs, _⟩ ⟨v', vs', _⟩ ⟨hFirst, hRest, -⟩
    exact .ok (.list (.cons hFirst hRest))
  | list => exact variadic_parametric fun hEach => .ok (.list hEach)

/-- So a call of a builtin procedure keeps a coupling in which related values are alike, from
whatever frames it is made. -/
theorem Coupling.together_callBuiltin {c : Coupling} {w : c.World} (hRefl : c.Extends w w)
    (hError : ∀ error, c.Interrupts (.error error) (.error error))
    (hValues : ∀ {v v'}, c.Values w v v' ↔ Alike R v v') (procedure : Builtin)
    {arguments arguments' : List Value}
    (hArguments : List.Forall₂ (c.Values w) arguments arguments') :
    c.Together w c.Values (Action.ofExcept (procedure.operation.call arguments))
      (Action.ofExcept (procedure.operation.call arguments')) := by
  intro m n hMachines
  have hAlike : AlikeEach R arguments arguments' :=
    alikeEach_iff.2 (List.Forall₂.imp (fun _ _ => hValues.1) hArguments)
  have hAnswers := procedure.operation_parametric R _ _ hAlike
  generalize procedure.operation.call arguments = left at hAnswers ⊢
  generalize procedure.operation.call arguments' = right at hAnswers ⊢
  cases hAnswers with
  | ok hResult => exact .done w hRefl hMachines (hValues.2 hResult)
  | error fault => exact .stopped w hRefl hMachines (hError _)

end EmbeddedLisp
