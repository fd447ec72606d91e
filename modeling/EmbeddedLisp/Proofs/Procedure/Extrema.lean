import EmbeddedLisp.Proofs.Procedure.Operators

/-! The largest and the smallest of several numbers. Integers are compared exactly and other pairs
as floats, so the comparisons that a choice goes by need not fit together: of three numbers each may
be as large as the next one, and the last one larger than the first. The choice is right all the
same. As integers keep their order as floats, no number is ahead of the chosen one as a float, and
none as an integer if there are only integers. -/
namespace EmbeddedLisp

/-- What it says of exact values that the first one does not win against the second one. -/
structure Direction (wins : Ordering) (Behind : Int → Int → Prop) : Prop where
  behind_iff (i j : Int) : Behind i j ↔ compare i j ≠ wins
  behind_of_wins {i j : Int} (hWins : compare i j = wins) : Behind j i
  refl (i : Int) : Behind i i
  trans {i j k : Int} (hFirst : Behind i j) (hSecond : Behind j k) : Behind i k
  antisymm {i j : Int} (hFirst : Behind i j) (hSecond : Behind j i) : i = j
  asFloats {i j : Int} (hBehind : Behind i j) :
    Behind (Binary64.ofInt i).units (Binary64.ofInt j).units

theorem upward : Direction .gt (· ≤ ·) where
  behind_iff i j := by rw [Ne, compare_gt_iff_gt, not_lt]
  behind_of_wins hWins := Int.le_of_lt (compare_gt_iff_gt.1 hWins)
  refl := Int.le_refl
  trans := Int.le_trans
  antisymm := Int.le_antisymm
  asFloats := Binary64.units_ofInt_mono

theorem downward : Direction .lt (· ≥ ·) where
  behind_iff i j := by rw [Ne, compare_lt_iff_lt, not_lt]
  behind_of_wins hWins := Int.le_of_lt (compare_lt_iff_lt.1 hWins)
  refl := Int.le_refl
  trans hFirst hSecond := Int.le_trans hSecond hFirst
  antisymm hFirst hSecond := Int.le_antisymm hSecond hFirst
  asFloats := Binary64.units_ofInt_mono

/-- The integer, for numbers that are integers. -/
def Number.toInt : Number → Int
  | .integer a => a.toInt
  | .float _ => 0

namespace Comparison

variable {wins : Ordering} {Behind : Int → Int → Prop} {first : Number} {rest numbers : List Number}

/-- A key that a choice goes by. It is for the numbers that count, and one of them stays in the lead
once the first one counts. -/
structure Guides (wins : Ordering) (Behind : Int → Int → Prop) (numbers : List Number)
    (Counts : Number → Prop) (key : Number → Int) : Prop where
  replaced {m n : Number} (hMem : m ∈ numbers) (hCounts : Counts n)
    (hWins : m.compare? n = some wins) :
    Counts m ∧ Behind (key n) (key m)
  kept {m n : Number} (hFirst : Counts m) (hSecond : Counts n) (hStays : m.compare? n ≠ some wins) :
    Behind (key m) (key n)

/-- No number that counts is ahead of the one that is chosen. -/
theorem best_of_guides (h : Direction wins Behind) {Counts : Number → Prop} {key : Number → Int}
    (hGuides : Guides wins Behind rest Counts key) (hFirst : Counts first) :
    best wins first rest ∈ first :: rest ∧ Counts (best wins first rest) ∧
      ∀ n ∈ first :: rest, Counts n → Behind (key n) (key (best wins first rest)) := by
  induction rest generalizing first with
  | nil =>
    refine ⟨List.mem_singleton_self first, hFirst, fun n hMem _ => ?_⟩
    obtain rfl := List.mem_singleton.1 hMem
    exact h.refl _
  | cons next rest ih =>
    have hRest : Guides wins Behind rest Counts key :=
      ⟨fun hMem => hGuides.replaced (List.mem_cons_of_mem next hMem), hGuides.kept⟩
    rw [best, List.foldl_cons]
    by_cases hWins : next.compare? first = some wins
    · obtain ⟨hNext, hBehind⟩ := hGuides.replaced List.mem_cons_self hFirst hWins
      obtain ⟨hChosen, hCounts, hEach⟩ := ih hRest hNext
      rw [if_pos hWins]
      refine ⟨List.mem_cons_of_mem first hChosen, hCounts, fun n hMem hCount => ?_⟩
      rcases List.mem_cons.1 hMem with rfl | hLater
      · exact h.trans hBehind (hEach next List.mem_cons_self hNext)
      · exact hEach n hLater hCount
    · obtain ⟨hChosen, hCounts, hEach⟩ := ih hRest hFirst
      have hLead := hEach first List.mem_cons_self hFirst
      rw [if_neg hWins]
      refine ⟨?_, hCounts, fun n hMem hCount => ?_⟩
      · rcases List.mem_cons.1 hChosen with hSame | hLater
        · exact List.mem_cons.2 (.inl hSame)
        · exact List.mem_cons_of_mem first (List.mem_cons_of_mem next hLater)
      · rcases List.mem_cons.1 hMem with rfl | hLater
        · exact hLead
        · rcases List.mem_cons.1 hLater with rfl | hLater
          · exact h.trans (hGuides.kept hCount hFirst hWins) hLead
          · exact hEach n (List.mem_cons_of_mem first hLater) hCount

/-- The numbers are compared by their exact values as floats, or exactly, and then these keep the
order. -/
theorem guides_floats (h : Direction wins Behind) (numbers : List Number) :
    Guides wins Behind numbers (fun n => n.toBinary64.isNaN = false)
      (fun n => n.toBinary64.units) where
  replaced {m n} _ hCounts hWins := by
    by_cases hFloat : m.isFloat = true ∨ n.isFloat = true
    · rw [Number.compare?_of_isFloat hFloat] at hWins
      cases hNaN : m.toBinary64.isNaN with
      | true =>
        rw [Binary64.compare?_of_isNaN_left hNaN] at hWins
        cases hWins
      | false =>
        rw [Binary64.compare?_eq hNaN hCounts] at hWins
        exact ⟨rfl, h.behind_of_wins (Option.some.inj hWins)⟩
    · simp only [not_or, Bool.not_eq_true] at hFloat
      obtain ⟨a, rfl⟩ := Number.exists_integer hFloat.1
      obtain ⟨b, rfl⟩ := Number.exists_integer hFloat.2
      exact ⟨Number.isNaN_integer a, h.asFloats (h.behind_of_wins (Option.some.inj hWins))⟩
  kept {m n} hFirst hSecond hStays := by
    by_cases hFloat : m.isFloat = true ∨ n.isFloat = true
    · rw [Number.compare?_of_isFloat hFloat, Binary64.compare?_eq hFirst hSecond] at hStays
      exact (h.behind_iff _ _).2 fun hWins => hStays (congrArg some hWins)
    · simp only [not_or, Bool.not_eq_true] at hFloat
      obtain ⟨a, rfl⟩ := Number.exists_integer hFloat.1
      obtain ⟨b, rfl⟩ := Number.exists_integer hFloat.2
      exact h.asFloats ((h.behind_iff _ _).2 fun hWins => hStays (congrArg some hWins))

theorem guides_integers (h : Direction wins Behind) (hIntegers : ∀ n ∈ numbers, n.isFloat = false) :
    Guides wins Behind numbers (fun n => n.isFloat = false) Number.toInt where
  replaced {m n} hMem hCounts hWins := by
    obtain ⟨a, rfl⟩ := Number.exists_integer (hIntegers m hMem)
    obtain ⟨b, rfl⟩ := Number.exists_integer hCounts
    exact ⟨rfl, h.behind_of_wins (Option.some.inj hWins)⟩
  kept {m n} hFirst hSecond hStays := by
    obtain ⟨a, rfl⟩ := Number.exists_integer hFirst
    obtain ⟨b, rfl⟩ := Number.exists_integer hSecond
    exact (h.behind_iff _ _).2 fun hWins => hStays (congrArg some hWins)

/-- Nothing replaces what is not a number. -/
theorem best_of_isNaN {x : Binary64} (hNaN : x.isNaN = true) (rest : List Number) :
    best wins (.float x) rest = .float x := by
  induction rest with
  | nil => rfl
  | cons next rest ih =>
    have hNone : next.compare? (.float x) = none := by
      rw [Number.compare?_of_isFloat (.inr rfl)]
      exact Binary64.compare?_of_isNaN_right _ hNaN
    rw [best, List.foldl_cons, hNone]
    exact ih

theorem convert_toValue (n : Number) : Parameter.number.convert n.toValue = .ok n := by
  cases n <;> rfl

theorem convert_of_not_numeric {v : Value} (hOther : v.isNumeric = false) :
    Parameter.number.convert v = .error (.wrongKind .number v.kind) := by
  apply Parameter.convert_of_not_takes
  rw [Parameter.takes_number_iff, hOther]
  exact Bool.false_ne_true

theorem mapM_convert (numbers : List Number) :
    (numbers.map Number.toValue).mapM Parameter.number.convert = .ok numbers := by
  induction numbers with
  | nil => rfl
  | cons n rest ih =>
    rw [List.map_cons, List.mapM_cons, convert_toValue, ih]
    rfl

/-- The first value that is no number is complained of, whatever stands behind it. -/
theorem extremum_of_not_numeric (front : List Number) {v : Value} (hOther : v.isNumeric = false)
    (rest : List Value) :
    extremum wins (front.map Number.toValue ++ v :: rest) = .error (.wrongKind .number v.kind) := by
  have hConvert : (front.map Number.toValue ++ v :: rest).mapM Parameter.number.convert =
      .error (.wrongKind .number v.kind) := by
    induction front with
    | nil =>
      rw [List.map_nil, List.nil_append, List.mapM_cons, convert_of_not_numeric hOther]
      rfl
    | cons n front ih =>
      rw [List.map_cons, List.cons_append, List.mapM_cons, convert_toValue, ih]
      rfl
  rw [extremum, hConvert]
  rfl

/-- A list of arguments is one of numbers, or there is a first argument that is no number. -/
theorem numbers_or_other (values : List Value) :
    (∃ numbers : List Number, values = numbers.map Number.toValue) ∨
      ∃ (front : List Number) (v : Value) (rest : List Value),
        v.isNumeric = false ∧ values = front.map Number.toValue ++ v :: rest := by
  induction values with
  | nil => exact .inl ⟨[], rfl⟩
  | cons v values ih =>
    cases hNumeric : v.isNumeric with
    | false => exact .inr ⟨[], v, values, hNumeric, rfl⟩
    | true =>
      obtain ⟨n, rfl⟩ := Value.exists_number hNumeric
      rcases ih with ⟨numbers, rfl⟩ | ⟨front, v, rest, hOther, rfl⟩
      · exact .inl ⟨n :: numbers, rfl⟩
      · exact .inr ⟨n :: front, v, rest, hOther, rfl⟩

/-- The value of a number among others: a float if any of them is one. -/
def valueAmong (numbers : List Number) : Number → Value
  | .float x => .float x
  | .integer a => if numbers.any Number.isFloat then .float (.ofInt a.toInt) else .integer a

theorem extremum_numbers (first : Number) (rest : List Number) :
    extremum wins ((first :: rest).map Number.toValue) =
      .ok (valueAmong (first :: rest) (best wins first rest)) := by
  rw [extremum, mapM_convert]
  show (match best wins first rest with
    | .float x => Except.ok (Value.float x)
    | .integer a =>
      if (first :: rest).any Number.isFloat then .ok (.float (.ofInt a.toInt))
        else .ok (.integer a)) = _
  cases best wins first rest with
  | float x => rfl
  | integer a => exact (apply_ite Except.ok _ _ _).symm

/-- The value that is chosen among numbers. If any of them is a float, it is one of them as a float,
and no other is ahead of it as a float. If there are only integers, it is one of them, and no other
is ahead of it. -/
inductive Chosen (Behind : Int → Int → Prop) (numbers : List Number) : Value → Prop where
  | float {n : Number} (hFloat : numbers.any Number.isFloat = true) (hMem : n ∈ numbers)
      (hNumber : n.toBinary64.isNaN = false)
      (hEach : ∀ other ∈ numbers, other.toBinary64.isNaN = false →
        Behind other.toBinary64.units n.toBinary64.units) :
        Chosen Behind numbers (.float n.toBinary64)
  | integer {a : Fixnum} (hIntegers : numbers.any Number.isFloat = false)
      (hMem : .integer a ∈ numbers)
      (hEach : ∀ b, .integer b ∈ numbers → Behind b.toInt a.toInt) :
      Chosen Behind numbers (.integer a)

theorem chosen_best (h : Direction wins Behind) (hFirst : first.toBinary64.isNaN = false) :
    Chosen Behind (first :: rest) (valueAmong (first :: rest) (best wins first rest)) := by
  cases hFloat : (first :: rest).any Number.isFloat with
  | true =>
    obtain ⟨hMem, hNumber, hEach⟩ := best_of_guides h (guides_floats h rest) hFirst
    have hValue : valueAmong (first :: rest) (best wins first rest) =
        .float (best wins first rest).toBinary64 := by
      cases best wins first rest with
      | float x => rfl
      | integer a => exact if_pos hFloat
    rw [hValue]
    exact .float hFloat hMem hNumber hEach
  | false =>
    have hIntegers (n : Number) (hMem : n ∈ first :: rest) : n.isFloat = false := by
      simpa using List.any_eq_false.1 hFloat n hMem
    have hRest (n : Number) (hMem : n ∈ rest) : n.isFloat = false :=
      hIntegers n (List.mem_cons_of_mem first hMem)
    obtain ⟨hMem, hInteger, hEach⟩ :=
      best_of_guides h (guides_integers h hRest) (hIntegers first List.mem_cons_self)
    obtain ⟨a, hBest⟩ := Number.exists_integer hInteger
    have hValue : valueAmong (first :: rest) (.integer a) = .integer a :=
      if_neg (Bool.eq_false_iff.1 hFloat)
    rw [hBest] at hMem hEach ⊢
    rw [hValue]
    exact .integer hFloat hMem fun b hOther => hEach (.integer b) hOther rfl

/-- Values that differ at most in the sign of zero. -/
def SameUpToZero (v w : Value) : Prop :=
  v = w ∨ ∃ x y : Binary64, v = .float x ∧ w = .float y ∧ x.isZero = true ∧ y.isZero = true

/-- What is chosen does not depend on the order of the numbers. -/
theorem Chosen.sameUpToZero (h : Direction wins Behind) {numbers' : List Number} {v v' : Value}
    (hPerm : numbers.Perm numbers') (hFirst : Chosen Behind numbers v)
    (hSecond : Chosen Behind numbers' v') :
    SameUpToZero v v' := by
  have hAny : numbers.any Number.isFloat = numbers'.any Number.isFloat := hPerm.any_eq
  cases hFirst with
  | @float n hFloat hMem hNumber hEach =>
    cases hSecond with
    | integer hIntegers => simp [hAny, hIntegers] at hFloat
    | @float n' hFloat' hMem' hNumber' hEach' =>
      have hUnits : n.toBinary64.units = n'.toBinary64.units :=
        h.antisymm (hEach' n (hPerm.mem_iff.1 hMem) hNumber)
          (hEach n' (hPerm.mem_iff.2 hMem') hNumber')
      rcases Binary64.eq_or_isZero hNumber hNumber' hUnits with hSame | hZeros
      · exact .inl (congrArg Value.float hSame)
      · exact .inr ⟨_, _, rfl, rfl, hZeros⟩
  | @integer a hIntegers hMem hEach =>
    cases hSecond with
    | float hFloat => simp [← hAny, hIntegers] at hFloat
    | @integer a' hIntegers' hMem' hEach' =>
      have hSame : a.toInt = a'.toInt :=
        h.antisymm (hEach' a (hPerm.mem_iff.1 hMem)) (hEach a' (hPerm.mem_iff.2 hMem'))
      exact .inl (congrArg Value.integer (Fixnum.eq_of_toInt_eq hSame))

/-- By the comparison of two values, no number wins against the one that is chosen. -/
theorem Chosen.call_rival (h : Direction wins Behind) {v : Value}
    (hChosen : Chosen Behind numbers v) {rival : Builtin} (hRival : rival ∈ Builtin.comparisons)
    (hAccepted : rival.accepted = [wins]) {n : Number} (hMem : n ∈ numbers)
    (hNumber : n.toBinary64.isNaN = false) :
    rival.operation.call [n.toValue, v] = .ok (.boolean false) := by
  have hLoses {i j : Int} (hBehind : Behind i j) :
      (some (compare i j)).any rival.accepted.contains = false := by
    rw [hAccepted]
    simpa using (h.behind_iff i j).1 hBehind
  cases hChosen with
  | @float n' hFloat hMem' hNumber' hEach =>
    have hCall := Builtin.call_of_inOrder hRival (Operands.inOrder_numbers n (.float n'.toBinary64))
    rw [Number.compare?_of_isFloat (.inr rfl)] at hCall
    have hOrder : n.toBinary64.compare? n'.toBinary64 = _ := Binary64.compare?_eq hNumber hNumber'
    exact hCall.trans (by rw [Number.toBinary64, hOrder, hLoses (hEach n hMem hNumber)])
  | @integer a hIntegers hMem' hEach =>
    obtain ⟨b, rfl⟩ : ∃ b, n = .integer b :=
      Number.exists_integer (by simpa using List.any_eq_false.1 hIntegers n hMem)
    have hCall :=
      Builtin.call_of_inOrder hRival (Operands.inOrder_numbers (.integer b) (.integer a))
    exact hCall.trans (by rw [Number.compare?, hLoses (hEach b hMem)])

end Comparison

open Comparison (Chosen SameUpToZero)

/-- How a procedure chooses among its arguments. The rival is the comparison that holds where a
number wins against another one, and `Behind` says of exact values that it does not. -/
structure Chooses (procedure rival : Builtin) (Behind : Int → Int → Prop) : Prop where
  /-- The kind that is named is that of the first argument that is no number. -/
  rejects (front : List Number) (v : Value) (rest : List Value) (hOther : v.isNumeric = false) :
    ∃ fault, procedure.operation.call (front.map Number.toValue ++ v :: rest) = .error fault ∧
      fault = .wrongKind .number v.kind ∧ fault.message = "expected number, got " ++ v.kind.name
  /-- If the first argument is not a number as a float, then so is the result. -/
  undefined (x : Binary64) (rest : List Number) (hNaN : x.isNaN = true) :
    procedure.operation.call (.float x :: rest.map Number.toValue) = .ok (.float x)
  chosen (first : Number) (rest : List Number) (hFirst : first.toBinary64.isNaN = false) :
    ∃ v, procedure.operation.call ((first :: rest).map Number.toValue) = .ok v ∧
    Chosen Behind (first :: rest) v
  permuted (numbers numbers' : List Number) (hSome : numbers ≠ []) (hPerm : numbers.Perm numbers')
    (hNumbers : ∀ n ∈ numbers, n.toBinary64.isNaN = false) :
    ∃ v v', procedure.operation.call (numbers.map Number.toValue) = .ok v ∧
      procedure.operation.call (numbers'.map Number.toValue) = .ok v' ∧ SameUpToZero v v'
  unsurpassed (numbers : List Number) (hSome : numbers ≠ [])
    (hNumbers : ∀ n ∈ numbers, n.toBinary64.isNaN = false) :
    ∃ v, procedure.operation.call (numbers.map Number.toValue) = .ok v ∧
      ∀ n ∈ numbers, rival.operation.call [n.toValue, v] = .ok (.boolean false)

namespace Builtin

section

variable {procedure rival : Builtin} {wins : Ordering} {Behind : Int → Int → Prop}
  (hProcedure : procedure.operation = .variadic (.atLeast 1) (Comparison.extremum wins))

include hProcedure

theorem call_extremum (v : Value) (rest : List Value) :
    procedure.operation.call (v :: rest) = Comparison.extremum wins (v :: rest) := by
  have hAccepts : (Arity.atLeast 1).check (v :: rest).length = .ok () := by
    simp [Arity.check, Arity.accepts]
  rw [hProcedure, Operation.call, hAccepts]
  rfl

/-- A first number that is no NaN leads to a choice: a later NaN is passed over. -/
theorem exists_chosen (h : Direction wins Behind) (first : Number) (rest : List Number)
    (hFirst : first.toBinary64.isNaN = false) :
    ∃ v, procedure.operation.call ((first :: rest).map Number.toValue) = .ok v ∧
      Chosen Behind (first :: rest) v := by
  refine ⟨_, ?_, Comparison.chosen_best h hFirst⟩
  exact (call_extremum hProcedure _ _).trans (Comparison.extremum_numbers first rest)

theorem exists_chosen_of_ne_nil (h : Direction wins Behind) {numbers : List Number}
    (hSome : numbers ≠ []) (hNumbers : ∀ n ∈ numbers, n.toBinary64.isNaN = false) :
    ∃ v, procedure.operation.call (numbers.map Number.toValue) = .ok v ∧
      Chosen Behind numbers v := by
  obtain ⟨first, rest, rfl⟩ := List.exists_cons_of_ne_nil hSome
  exact exists_chosen hProcedure h first rest (hNumbers first List.mem_cons_self)

theorem chooses (h : Direction wins Behind) (hRival : rival ∈ comparisons)
    (hAccepted : rival.accepted = [wins]) : Chooses procedure rival Behind where
  rejects front v rest hOther := by
    refine ⟨_, ?_, rfl, rfl⟩
    have hFault : Comparison.extremum wins (front.map Number.toValue ++ v :: rest) =
        .error (.wrongKind .number v.kind) := Comparison.extremum_of_not_numeric front hOther rest
    cases front with
    | nil => exact (call_extremum hProcedure _ _).trans hFault
    | cons n front => exact (call_extremum hProcedure _ _).trans hFault
  undefined x rest hNaN := by
    have hNumbers : Comparison.extremum wins (.float x :: rest.map Number.toValue) = _ :=
      Comparison.extremum_numbers (.float x) rest
    rw [Comparison.best_of_isNaN hNaN] at hNumbers
    exact (call_extremum hProcedure _ _).trans hNumbers
  chosen := exists_chosen hProcedure h
  permuted numbers numbers' hSome hPerm hNumbers := by
    obtain ⟨v, hCall, hChosen⟩ := exists_chosen_of_ne_nil hProcedure h hSome hNumbers
    have hSome' : numbers' ≠ [] := fun hNone => hSome (List.Perm.eq_nil (hNone ▸ hPerm))
    obtain ⟨v', hCall', hChosen'⟩ :=
      exists_chosen_of_ne_nil hProcedure h hSome' fun n hMem => hNumbers n (hPerm.mem_iff.2 hMem)
    exact ⟨v, v', hCall, hCall', hChosen.sameUpToZero h hPerm hChosen'⟩
  unsurpassed numbers hSome hNumbers := by
    obtain ⟨v, hCall, hChosen⟩ := exists_chosen_of_ne_nil hProcedure h hSome hNumbers
    refine ⟨v, hCall, fun n hMem => ?_⟩
    exact hChosen.call_rival h hRival hAccepted hMem (hNumbers n hMem)

end

/-- The largest and the smallest of several numbers, of any kinds and in any order. The lists of
arguments that are told of are all that there are. -/
theorem extrema :
    (∀ values : List Value, (∃ numbers : List Number, values = numbers.map Number.toValue) ∨
      ∃ (front : List Number) (v : Value) (rest : List Value),
        v.isNumeric = false ∧ values = front.map Number.toValue ++ v :: rest) ∧
    Chooses .max .greater (· ≤ ·) ∧ Chooses .min .less (· ≥ ·) :=
  ⟨Comparison.numbers_or_other, chooses rfl upward (by decide) rfl, chooses rfl downward
    (by decide) rfl⟩

end Builtin

end EmbeddedLisp
