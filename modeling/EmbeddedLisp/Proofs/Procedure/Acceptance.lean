import EmbeddedLisp.Procedure.Registry
import EmbeddedLisp.Proofs.Number.Notation

/-! What procedures accept. The count of the arguments comes first: it is checked against the arity
that the entry of a procedure declares, and only then is anything said about what the arguments are.
A function with typed parameters is handed its arguments converted from left to right, and is not
run at all if one of them is not of the kind that its parameter takes. -/
namespace EmbeddedLisp

variable {α β : Type}

/-- Whether every fault that is answered has a property. -/
def Faults (P : Fault → Prop) (answer : Except Fault α) : Prop :=
  ∀ fault, answer = .error fault → P fault

namespace Faults

variable {P : Fault → Prop}

theorem ok (x : α) : Faults P (.ok x) := by
  intro fault hSame
  cases hSame

theorem error {fault : Fault} (hFault : P fault) : Faults P (.error fault : Except Fault α) := by
  intro fault' hSame
  cases hSame
  exact hFault

/-- A computation in two steps has the faults of its steps. -/
theorem bind {x : Except Fault α} {f : α → Except Fault β} (hFirst : Faults P x)
    (hSecond : ∀ a, Faults P (f a)) : Faults P (x >>= f) := by
  cases x with
  | ok a => exact hSecond a
  | error fault => exact .error (hFirst fault rfl)

/-- A walk over a list stops at a fault of one of its items, by induction on the list. -/
theorem mapM {f : α → Except Fault β} (hEach : ∀ a, Faults P (f a)) (items : List α) :
    Faults P (items.mapM f) := by
  induction items with
  | nil => exact ok []
  | cons a rest ih =>
    rw [List.mapM_cons]
    exact (hEach a).bind fun b => ih.bind fun bs => ok (b :: bs)

/-- A fold stops at a fault of one of its steps, by induction on the list. -/
theorem foldlM {f : β → α → Except Fault β} (hEach : ∀ b a, Faults P (f b a)) (items : List α)
    (b : β) :
    Faults P (items.foldlM f b) := by
  induction items generalizing b with
  | nil => exact ok b
  | cons a rest ih =>
    rw [List.foldlM_cons]
    exact (hEach b a).bind ih

end Faults

/-- The first character of a text. -/
def Begins (text : String) (c : Char) : Prop := text.toList.head? = some c

instance (text : String) (c : Char) : Decidable (Begins text c) :=
  inferInstanceAs (Decidable (text.toList.head? = some c))

namespace Begins

variable {text text' : String} {c c' : Char}

theorem append (hFirst : Begins text c) (rest : String) : Begins (text ++ rest) c := by
  rw [Begins] at hFirst
  rw [Begins, String.toList_append, List.head?_append, hFirst]
  rfl

/-- A text begins with one character. The messages of different faults are told apart by it. -/
theorem unique (hFirst : Begins text c) (hSecond : Begins text c') : c = c' :=
  Option.some.inj (hFirst.symm.trans hSecond)

/-- The numeral of a natural number begins with a digit. -/
theorem exists_toString (n : Nat) : ∃ c, Begins (toString n) c ∧ c.isDigit = true := by
  have hDigits : (toString n).toList = Nat.toDigits 10 n := by simp [Nat.toString_eq_repr, Nat.repr]
  cases hText : Nat.toDigits 10 n with
  | nil => exact absurd hText Nat.toDigits_ne_nil
  | cons c rest =>
    refine ⟨c, ?_, Decimal.isDigit_of_mem_toDigits (hText ▸ List.mem_cons_self)⟩
    rw [Begins, hDigits, hText]
    rfl

/-- An arity is written with a number or with a word in front. -/
theorem exists_arity (arity : Arity) :
    ∃ c, Begins arity.render c ∧ (c = 'a' ∨ c.isDigit = true) := by
  cases arity with
  | exactly n =>
    obtain ⟨c, hFirst, hDigit⟩ := exists_toString n
    exact ⟨c, hFirst, .inr hDigit⟩
  | atLeast least => exact ⟨'a', append (by decide) _, .inl rfl⟩
  | between least greatest =>
    obtain ⟨c, hFirst, hDigit⟩ := exists_toString least
    exact ⟨c, (hFirst.append _).append _, .inr hDigit⟩
  | any => exact ⟨'a', by decide, .inl rfl⟩

/-- No name of a parameter begins with an `a` or with a digit, as what is said of a wrong count of
arguments does. -/
theorem exists_parameter (parameter : Parameter) :
    ∃ c, Begins parameter.name c ∧ c ≠ 'a' ∧ c.isDigit = false := by
  cases parameter with
  | any => exact ⟨'v', by decide⟩
  | integer => exact ⟨'i', by decide⟩
  | float => exact ⟨'f', by decide⟩
  | number => exact ⟨'n', by decide⟩
  | list => exact ⟨'l', by decide⟩

end Begins

namespace Fault

/-- Whether a fault is about what the arguments are, and not about how many there are. -/
def OfContents : Fault → Prop
  | .wrongKind _ _ | .cannotCombine _ _ _ | .undefinedForText _ | .overflow _
  | .divisionByZero | .moduloByZero | .negativeFactorial _
  | .firstOfEmpty | .restOfEmpty | .cannotSum _ => True
  | _ => False

/-- Only a kind is expected in the words in which a count is. -/
theorem OfContents.begins {fault : Fault} (hContents : fault.OfContents) :
    (∃ parameter given, fault = .wrongKind parameter given) ∨ ∃ c, Begins fault.message c ∧
      c ≠ 'e' := by
  have hQuote : Begins "'" '\'' := by decide
  cases fault with
  | wrongKind parameter given => exact .inl ⟨parameter, given, rfl⟩
  | cannotCombine operator left right =>
    exact .inr ⟨_, ((((hQuote.append _).append _).append _).append _).append _, by decide⟩
  | undefinedForText operator => exact .inr ⟨_, (hQuote.append _).append _, by decide⟩
  | overflow operation => exact .inr ⟨'i', .append (by decide) _, by decide⟩
  | negativeFactorial given => exact .inr ⟨'f', .append (by decide) _, by decide⟩
  | cannotSum given => exact .inr ⟨'f', .append (by decide) _, by decide⟩
  | divisionByZero | moduloByZero => exact .inr ⟨'i', by decide, by decide⟩
  | firstOfEmpty | restOfEmpty => exact .inr ⟨'c', by decide, by decide⟩
  | _ => exact hContents.elim

/-- No message about the contents of arguments is one about their count. -/
theorem OfContents.message_ne {fault : Fault} (hContents : fault.OfContents) (expected : Arity)
    (given : Nat) :
    fault.message ≠ (wrongCount expected given).message := by
  intro hSame
  have hAssoc (s t u v : String) : s ++ t ++ u ++ v = s ++ (t ++ (u ++ v)) := by
    simp only [String.append_assoc]
  rcases hContents.begins with ⟨parameter, kind, rfl⟩ | ⟨c, hFirst, hOther⟩
  · obtain ⟨c, hKind, hWord, hDigit⟩ := Begins.exists_parameter parameter
    obtain ⟨c', hCount, hStart⟩ := Begins.exists_arity expected
    have hTexts : parameter.name ++ (", got " ++ kind.name) =
        expected.render ++ (" arguments, got " ++ toString given) := by
      exact (String.append_right_inj _).1
        ((hAssoc _ _ _ _).symm.trans (hSame.trans (hAssoc _ _ _ _)))
    -- Behind the word they share, no kind begins with the letter of an arity or with a digit.
    have hSameStart : c = c' := (hKind.append _).unique (hTexts ▸ hCount.append _)
    rcases hStart with rfl | hStart
    · exact hWord hSameStart
    · rw [hSameStart, hStart] at hDigit
      cases hDigit
  · have hCount : Begins (wrongCount expected given).message 'e' :=
      (((by decide : Begins "expected " 'e').append _).append _).append _
    exact hOther (hFirst.unique (hSame ▸ hCount))

end Fault

open Fault (OfContents)

namespace Parameter

/-- Whether a parameter takes values of a kind. -/
def Takes : Parameter → Kind → Prop
  | .any, _ => True
  | .integer, kind => kind = .integer
  | .float, kind => kind = .float
  | .number, kind => kind = .integer ∨ kind = .float
  | .list, kind => kind = .list

/-- The value that an argument of a function stands for. -/
def embed : (parameter : Parameter) → parameter.Carrier → Value
  | .any, v => v
  | .integer, n => .integer n
  | .float, x => .float x
  | .number, n => n.toValue
  | .list, vs => .list vs

variable {parameter : Parameter} {v : Value}

theorem convert_embed (a : parameter.Carrier) : parameter.convert (parameter.embed a) = .ok a := by
  cases parameter with
  | any => cases a <;> rfl
  | integer => rfl
  | float => rfl
  | number => cases a <;> rfl
  | list => rfl

/-- A value of another kind is refused by the kind. -/
theorem convert_of_not_takes (hKind : ¬ parameter.Takes v.kind) :
    parameter.convert v = .error (.wrongKind parameter v.kind) := by
  cases parameter <;> cases v <;> first | rfl | exact absurd (by simp [Takes, Value.kind]) hKind

/-- A value of a kind that a parameter takes is one of its arguments. -/
theorem exists_embed (hKind : parameter.Takes v.kind) : ∃ a, parameter.embed a = v := by
  cases parameter with
  | any => exact ⟨v, rfl⟩
  | integer => cases v <;> first | exact ⟨_, rfl⟩ | cases hKind
  | float => cases v <;> first | exact ⟨_, rfl⟩ | cases hKind
  | number =>
    cases v with
    | integer n => exact ⟨Number.integer n, rfl⟩
    | float x => exact ⟨Number.float x, rfl⟩
    | _ => simp [Takes, Value.kind] at hKind
  | list => cases v <;> first | exact ⟨_, rfl⟩ | cases hKind

theorem takes_number_iff : number.Takes v.kind ↔ v.isNumeric = true := by
  cases v <;> simp [Takes, Value.kind, Value.isNumeric]

/-- A conversion complains of the value it is handed and of nothing else. -/
theorem convert_contents (parameter : Parameter) (v : Value) :
    Faults OfContents (parameter.convert v) := by
  by_cases hKind : parameter.Takes v.kind
  · obtain ⟨a, rfl⟩ := exists_embed hKind
    rw [convert_embed]
    exact .ok a
  · rw [convert_of_not_takes hKind]
    exact .error trivial

end Parameter

theorem Value.exists_number {v : Value} (hNumeric : v.isNumeric = true) :
    ∃ n : Number, v = n.toValue := by
  obtain ⟨n, hNumber⟩ := Parameter.exists_embed (Parameter.takes_number_iff.2 hNumeric)
  exact ⟨n, hNumber.symm⟩

namespace Arguments

variable {parameters front back : List Parameter} {parameter : Parameter}
  {values : List Value} {v : Value}

/-- The values that the arguments of a function stand for. -/
def embed : (parameters : List Parameter) → Arguments parameters → List Value
  | [], _ => []
  | parameter :: rest, (a, arguments) => parameter.embed a :: embed rest arguments

theorem length_embed (arguments : Arguments parameters) :
    (embed parameters arguments).length = parameters.length := by
  induction parameters with
  | nil => rfl
  | cons parameter rest ih => exact congrArg Nat.succ (ih arguments.2)

/-- Converted arguments come back from the values they are written as. -/
theorem convert_embed (arguments : Arguments parameters)
    (hLength : (embed parameters arguments).length = parameters.length) :
    convert parameters (embed parameters arguments) hLength = .ok arguments := by
  induction parameters with
  | nil => rfl
  | cons parameter rest ih =>
    obtain ⟨a, arguments⟩ := arguments
    show (do
      let a ← parameter.convert (parameter.embed a)
      let arguments ← convert rest (embed rest arguments) (Nat.succ.inj hLength)
      return (a, arguments)) = _
    rw [Parameter.convert_embed, ih]
    rfl

/-- The first value that is not taken decides. -/
theorem convert_of_not_takes (arguments : Arguments front) (hKind : ¬ parameter.Takes v.kind)
    (behind : List Value)
    (hLength : (embed front arguments ++ v :: behind).length =
      (front ++ parameter :: back).length) :
    convert (front ++ parameter :: back) (embed front arguments ++ v :: behind) hLength =
      .error (.wrongKind parameter v.kind) := by
  induction front with
  | nil =>
    show (do
      let a ← parameter.convert v
      let arguments ← convert back behind (Nat.succ.inj hLength)
      return (a, arguments)) = _
    rw [Parameter.convert_of_not_takes hKind]
    rfl
  | cons first rest ih =>
    obtain ⟨a, arguments⟩ := arguments
    show (do
      let a ← first.convert (first.embed a)
      let arguments ←
        convert (rest ++ parameter :: back) (embed rest arguments ++ v :: behind)
          (Nat.succ.inj hLength)
      return (a, arguments)) = _
    rw [Parameter.convert_embed, ih]
    rfl

end Arguments

/-- What a function with typed parameters receives: its arguments, or the reason why it is not run.
The arguments in front of one that is refused are in order, and nothing is said about those behind
it. -/
inductive Received :
    (parameters : List Parameter) → List Value → Except Fault (Arguments parameters) →
    Prop where
  | miscounted {parameters : List Parameter} {values : List Value}
      (hCount : values.length ≠ parameters.length) :
      Received parameters values (.error (.wrongCount (.exactly parameters.length) values.length))
  | accepted {parameters : List Parameter} (arguments : Arguments parameters) :
      Received parameters (Arguments.embed parameters arguments) (.ok arguments)
  | refused {front back : List Parameter} {parameter : Parameter} {v : Value} {behind : List Value}
      (arguments : Arguments front) (hKind : ¬ parameter.Takes v.kind)
      (hCount : behind.length = back.length) :
      Received (front ++ parameter :: back) (Arguments.embed front arguments ++ v :: behind)
        (.error (.wrongKind parameter v.kind))

namespace Operation

/-- Runs a function on what it receives, or rejects it for the reason that it receives instead. Both
may be any computation. -/
def proceed {γ : Type} (reject : Fault → γ) (run : α → γ) : Except Fault α → γ
  | .ok arguments => run arguments
  | .error fault => reject fault

/-- Hands values over to a function with typed parameters. -/
def handOver {γ : Type} (parameters : List Parameter) (reject : Fault → γ)
    (run : Arguments parameters → γ) (values : List Value) : γ :=
  if hLength : values.length = parameters.length then
    proceed reject run (Arguments.convert parameters values hLength)
  else reject (.wrongCount (.exactly parameters.length) values.length)

/-- A typed operation checks the count, converts from the left and runs on what it has. -/
theorem call_typed (parameters : List Parameter) (run : Arguments parameters → Except Fault Value)
    (values : List Value) :
    (typed parameters run).call values = handOver parameters .error run values := by
  by_cases hLength : values.length = parameters.length
  · rw [call, handOver, dif_pos hLength, dif_pos hLength]
    cases Arguments.convert parameters values hLength <;> rfl
  · rw [call, handOver, dif_neg hLength, dif_neg hLength]

/-- A function runs once, on the arguments that it receives, or is rejected for the reason that it
receives. -/
theorem handOver_of_received {parameters : List Parameter} {values : List Value}
    {outcome : Except Fault (Arguments parameters)} (hReceived : Received parameters values outcome)
    {γ : Type} (reject : Fault → γ) (run : Arguments parameters → γ) :
    handOver parameters reject run values = proceed reject run outcome := by
  cases hReceived with
  | miscounted hCount => exact dif_neg hCount
  | accepted arguments =>
    rw [handOver, dif_pos (Arguments.length_embed arguments), Arguments.convert_embed]
  | @refused front back parameter v behind arguments hKind hCount =>
    have hLength : (Arguments.embed front arguments ++ v :: behind).length =
        (front ++ parameter :: back).length := by
      simp [Arguments.length_embed, hCount]
    rw [handOver, dif_pos hLength, Arguments.convert_of_not_takes arguments hKind behind]

end Operation

namespace Received

variable {parameters : List Parameter} {values : List Value}
  {outcome outcome' : Except Fault (Arguments parameters)}

theorem unique (hFirst : Received parameters values outcome)
    (hSecond : Received parameters values outcome') :
    outcome = outcome' := by
  have hSame := (Operation.handOver_of_received hFirst Except.error Except.ok).symm.trans
    (Operation.handOver_of_received hSecond Except.error Except.ok)
  cases outcome <;> cases outcome' <;> exact hSame

/-- One more argument in front is received with the others. -/
theorem exists_cons {parameter : Parameter} (a : parameter.Carrier)
    (hRest : Received parameters values outcome) (hLength : values.length = parameters.length) :
    ∃ outcome, Received (parameter :: parameters) (parameter.embed a :: values) outcome := by
  cases hRest with
  | miscounted hCount => exact absurd hLength hCount
  | accepted arguments =>
    let all : Arguments (parameter :: parameters) := (a, arguments)
    exact ⟨_, .accepted all⟩
  | @refused front back parameter' v behind arguments hKind hCount =>
    let all : Arguments (parameter :: front) := (a, arguments)
    exact ⟨_, .refused all hKind hCount⟩

end Received

/-- Every list of values is received in one way. -/
theorem exists_received (parameters : List Parameter) (values : List Value) :
    ∃ outcome, Received parameters values outcome := by
  by_cases hLength : values.length = parameters.length
  · induction parameters generalizing values with
    | nil =>
      let none : Arguments [] := ()
      rw [List.eq_nil_of_length_eq_zero hLength]
      exact ⟨_, .accepted none⟩
    | cons parameter rest ih =>
      obtain ⟨v, values, rfl⟩ := List.exists_cons_of_length_eq_add_one hLength
      by_cases hKind : parameter.Takes v.kind
      · obtain ⟨a, rfl⟩ := Parameter.exists_embed hKind
        obtain ⟨outcome, hRest⟩ := ih values (Nat.succ.inj hLength)
        exact hRest.exists_cons a (Nat.succ.inj hLength)
      · let none : Arguments [] := ()
        exact ⟨_, .refused none hKind (Nat.succ.inj hLength)⟩
  · exact ⟨_, .miscounted hLength⟩

namespace Operation

/-- An operation whose faults are about its arguments once their count is accepted. -/
def Guards (operation : Operation) : Prop :=
  ∀ values, operation.arity.accepts values.length = true → Faults OfContents (operation.call values)

/-- The count is checked before anything else. -/
theorem call_of_not_accepts (operation : Operation) {values : List Value}
    (hCount : operation.arity.accepts values.length = false) :
    operation.call values = .error (.wrongCount operation.arity values.length) := by
  cases operation with
  | typed parameters run =>
    have hLength : values.length ≠ parameters.length := by simpa [arity, Arity.accepts] using hCount
    exact dif_neg hLength
  | variadic arity run =>
    have hCheck : arity.check values.length = .error (.wrongCount arity values.length) :=
      if_neg (Bool.eq_false_iff.1 hCount)
    rw [call, hCheck]
    rfl

/-- A typed operation guards its arity as soon as its body complains of contents only. -/
theorem typed_guards {parameters : List Parameter} {run : Arguments parameters → Except Fault Value}
    (hRun : ∀ arguments, Faults OfContents (run arguments)) : Guards (.typed parameters run) := by
  intro values hCount
  obtain ⟨outcome, hReceived⟩ := exists_received parameters values
  rw [call_typed, handOver_of_received hReceived]
  cases hReceived with
  | miscounted hMiscount => simp [arity, Arity.accepts, hMiscount] at hCount
  | accepted arguments => exact hRun arguments
  | refused => exact .error trivial

/-- The body of a variadic operation has to behave on an accepted number of values only: it is not
run on any other. -/
theorem variadic_guards {arity : Arity} {run : List Value → Except Fault Value}
    (hRun : ∀ values, arity.accepts values.length = true → Faults OfContents (run values)) :
    Guards (.variadic arity run) := by
  intro values hCount
  have hCheck : arity.check values.length = .ok () := if_pos hCount
  rw [call, hCheck]
  exact hRun values hCount

end Operation

theorem Operands.ofValues_contents (operator : Builtin) (v w : Value) :
    Faults OfContents (ofValues operator v w) := by
  cases v <;> cases w <;> first | exact .ok _ | exact .error trivial

namespace Arithmetic

theorem inRange_contents (operation : Builtin) (n : Option Fixnum) :
    Faults OfContents (inRange operation n) := by
  cases n with
  | none => exact .error trivial
  | some n => exact .ok _

theorem add_contents (v w : Value) : Faults OfContents (add v w) :=
  (Operands.ofValues_contents .add v w).bind fun
    | .integers a b => inRange_contents .add (a.add? b)
    | .floats _ _ | .texts _ _ => .ok _

theorem subtract_contents (v w : Value) : Faults OfContents (subtract v w) :=
  (Operands.ofValues_contents .subtract v w).bind fun
    | .integers a b => inRange_contents .subtract (a.sub? b)
    | .floats _ _ => .ok _
    | .texts _ _ => .error trivial

theorem multiply_contents (v w : Value) : Faults OfContents (multiply v w) :=
  (Operands.ofValues_contents .multiply v w).bind fun
    | .integers a b => inRange_contents .multiply (a.mul? b)
    | .floats _ _ => .ok _
    | .texts _ _ => .error trivial

theorem divide_contents (v w : Value) : Faults OfContents (divide v w) := by
  refine (Operands.ofValues_contents .divide v w).bind fun operands => ?_
  cases operands with
  | integers a b =>
    simp only
    split
    · exact .error trivial
    · exact inRange_contents .divide _
  | floats x y => exact .ok _
  | texts s t => exact .error trivial

theorem modulo_contents (a b : Fixnum) : Faults OfContents (modulo a b) := by
  simp only [modulo]
  split
  · exact .error trivial
  · exact inRange_contents .modulo _

theorem abs_contents (n : Number) : Faults OfContents (abs n) := by
  simp only [abs]
  split
  · exact inRange_contents .abs _
  · exact .ok _

theorem copySign_contents (magnitude sign : Number) :
    Faults OfContents (copySign magnitude sign) := by
  simp only [copySign]
  split
  · exact inRange_contents .copysign _
  · exact .ok _

theorem factorial_contents (n : Fixnum) : Faults OfContents (factorial n) := by
  simp only [factorial]
  split
  · exact .error trivial
  · exact inRange_contents .factorial _

theorem sum_contents (vs : List Value) : Faults OfContents (sum vs) := by
  have hSummand (v : Value) : Faults OfContents (summand v) := by
    cases v <;> first | exact .ok _ | exact .error trivial
  cases vs with
  | nil => exact .ok _
  | cons first rest =>
    refine (hSummand first).bind fun total => ?_
    exact .foldlM (fun total v => (hSummand v).bind fun summand => add_contents total summand)
      rest total

end Arithmetic

namespace Comparison

theorem holds_contents (operator : Builtin) (accepted : List Ordering) (v w : Value) :
    Faults OfContents (holds operator accepted v w) :=
  (Operands.ofValues_contents operator v w).bind fun _ => .ok _

/-- At least one argument is there to choose from, so the count is not complained of again. -/
theorem extremum_contents (wins : Ordering) (values : List Value)
    (hCount : (Arity.atLeast 1).accepts values.length = true) :
    Faults OfContents (extremum wins values) := by
  cases values with
  | nil => cases hCount
  | cons first rest =>
    simp only [extremum, List.mapM_cons, bind_assoc, pure_bind]
    refine (Parameter.number.convert_contents first).bind fun n => ?_
    refine (Faults.mapM Parameter.number.convert_contents rest).bind fun numbers => ?_
    split
    · exact .ok _
    · split <;> exact .ok _

end Comparison

/-- One case for each kind of operation. -/
theorem Builtin.operation_guards (procedure : Builtin) : procedure.operation.Guards := by
  cases procedure with
  | add => exact Operation.typed_guards fun (v, w, ()) => Arithmetic.add_contents v w
  | subtract => exact Operation.typed_guards fun (v, w, ()) => Arithmetic.subtract_contents v w
  | multiply => exact Operation.typed_guards fun (v, w, ()) => Arithmetic.multiply_contents v w
  | divide => exact Operation.typed_guards fun (v, w, ()) => Arithmetic.divide_contents v w
  | modulo => exact Operation.typed_guards fun (a, b, ()) => Arithmetic.modulo_contents a b
  | abs => exact Operation.typed_guards fun (n, ()) => Arithmetic.abs_contents n
  | factorial => exact Operation.typed_guards fun (n, ()) => Arithmetic.factorial_contents n
  | max => exact Operation.variadic_guards (Comparison.extremum_contents .gt)
  | min => exact Operation.variadic_guards (Comparison.extremum_contents .lt)
  | equal | less | greater | lessOrEqual | greaterOrEqual =>
    exact Operation.typed_guards fun (v, w, ()) => Comparison.holds_contents _ _ v w
  | copysign =>
    exact Operation.typed_guards fun (magnitude, sign, ()) =>
      Arithmetic.copySign_contents magnitude sign
  | fsum => exact Operation.typed_guards fun (vs, ()) => Arithmetic.sum_contents vs
  | car | cdr =>
    refine Operation.typed_guards fun (vs, ()) => ?_
    cases vs with
    | nil => exact .error trivial
    | cons => exact .ok _
  | not | ceil | floor | fabs | trunc | fmod | frexp | ldexp | isinf | isnan | append
    | cons | null =>
    exact Operation.typed_guards fun _ => .ok _
  | list => exact Operation.variadic_guards fun _ _ => .ok _

/-- The arity that is declared is the one that the operation has. -/
theorem Builtin.arity_eq (procedure : Builtin) : procedure.arity = procedure.operation.arity := by
  cases procedure <;> rfl

/-- How an operation keeps to an arity. A count that the arity rejects is answered with the very
fault of the rejection, whatever the arguments are, and else there is no fault that reads like one
about a count. -/
structure Enforces (operation : Operation) (arity : Arity) : Prop where
  rejects (values : List Value) (fault : Fault)
    (hCheck : arity.check values.length = .error fault) :
    operation.call values = .error fault
  counts_once (values : List Value) (hCheck : arity.check values.length = .ok ()) (fault : Fault)
    (hCall : operation.call values = .error fault) (expected : Arity) (given : Nat) :
    fault.message ≠ (Fault.wrongCount expected given).message

theorem Operation.Guards.enforces {operation : Operation} (hGuards : operation.Guards) :
    Enforces operation operation.arity where
  rejects values fault hCheck := by
    rw [Arity.check] at hCheck
    split at hCheck
    · cases hCheck
    · rename_i hCount
      cases hCheck
      exact operation.call_of_not_accepts (Bool.eq_false_iff.2 hCount)
  counts_once values hCheck fault hCall := by
    rw [Arity.check] at hCheck
    split at hCheck
    · rename_i hCount
      exact (hGuards values hCount fault hCall).message_ne
    · cases hCheck

/-- The entries of the builtin procedures declare what the procedures enforce. A function with typed
parameters receives its arguments or the reason why it is not run, in exactly one way, and runs just
once and only with what it receives, whatever it does. -/
theorem declared_arity_enforced :
    (∀ procedure, Registry.Entry.function procedure ∈ Registry.entries →
      Enforces procedure.operation (Registry.Entry.function procedure).arity) ∧
    ∀ parameters values, ∃ outcome, Received parameters values outcome ∧
      (∀ outcome', Received parameters values outcome' → outcome' = outcome) ∧
      (∀ (γ : Type) (reject : Fault → γ) (run : Arguments parameters → γ),
        Operation.handOver parameters reject run values = Operation.proceed reject run outcome) ∧
      ∀ run, (Operation.typed parameters run).call values = Operation.handOver parameters .error
        run values := by
  constructor
  · intro procedure _
    have hEnforces := (procedure.operation_guards).enforces
    rw [← procedure.arity_eq] at hEnforces
    exact hEnforces
  · intro parameters values
    obtain ⟨outcome, hReceived⟩ := exists_received parameters values
    refine ⟨outcome, hReceived, fun outcome' hOther => hOther.unique hReceived, ?_, ?_⟩
    · intro γ reject run
      exact Operation.handOver_of_received hReceived reject run
    · intro run
      exact Operation.call_typed parameters run values

end EmbeddedLisp
