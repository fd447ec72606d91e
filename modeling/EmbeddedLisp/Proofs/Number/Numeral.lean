import EmbeddedLisp.Proofs.Number.Nearest
import EmbeddedLisp.Proofs.Number.Notation
import Mathlib.Computability.RegularExpressions
import Mathlib.Data.List.TakeWhile

/-! The grammar of numbers, as regular expressions, and what a number of the grammar stands for. The
readers of integers and floats take the words of the grammar and no other text, and give the value.

The value is told from the text alone: its digits in order, the place of the point, and what comes
after the mark of the exponent. -/
namespace EmbeddedLisp

namespace Numeral

open Decimal (splitSign)
open RegularExpression (char star)

def oneOf (chars : List Char) : RegularExpression Char := (chars.map char).sum

def digitChars : List Char := ['0', '1', '2', '3', '4', '5', '6', '7', '8', '9']

def digit : RegularExpression Char := oneOf digitChars

/-- One digit or more. -/
def digits : RegularExpression Char := digit * star digit

/-- A sign, which may be absent. -/
def sign : RegularExpression Char := 1 + oneOf ['+', '-']

/-- Digits with or without a sign. -/
def wholeNumber : RegularExpression Char := sign * digits

/-- Digits with at most one point before, among or after them. -/
def mantissa : RegularExpression Char := digits * (1 + char '.' * star digit) + char '.' * digits

/-- An exponent after its mark, which may be absent. -/
def scale : RegularExpression Char := 1 + oneOf ['e', 'E'] * wholeNumber

/-- A number without its sign: a mantissa, and a scale if there is one. -/
def unsignedNumber : RegularExpression Char := mantissa * scale

/-- A decimal number with or without a sign. -/
def decimalNumber : RegularExpression Char := sign * unsignedNumber

def isNegative (text : List Char) : Bool := text.head? == some '-'

/-- The number that the digits make, negated after a minus sign. -/
def wholeValue (text : List Char) : Int :=
  let magnitude := Decimal.ofDigits (text.filter Char.isDigit)
  if isNegative text then -magnitude else magnitude

def isMark (c : Char) : Bool := c == 'e' || c == 'E'

/-- What stands before the mark of the exponent, or all of the text if there is none. -/
def beforeMark (text : List Char) : List Char := text.takeWhile fun c => !isMark c

/-- What stands behind the mark of the exponent. -/
def afterMark (text : List Char) : List Char := (text.dropWhile fun c => !isMark c).drop 1

/-- The number of characters after the point. -/
def places (text : List Char) : Nat := ((text.dropWhile (· != '.')).drop 1).length

/-- The number without its sign. Each digit after the point takes one from the exponent. -/
def magnitude (text : List Char) : Decimal where
  significand := Decimal.ofDigits ((beforeMark text).filter Char.isDigit)
  exponent := wholeValue (afterMark text) - places (beforeMark text)

/-- The characters that a regular expression speaks of. -/
def letters : RegularExpression Char → List Char
  | .zero => []
  | .epsilon => []
  | .char c => [c]
  | .plus r s => letters r ++ letters s
  | .comp r s => letters r ++ letters s
  | .star r => letters r

section

variable {r : RegularExpression Char} {text : List Char} {c : Char}

/-- The characters of a text that matches are among the letters of the expression, by induction on
the expression. -/
theorem mem_letters (hText : text ∈ r.matches') : ∀ c ∈ text, c ∈ letters r := by
  induction r generalizing text with
  | zero => cases hText
  | epsilon =>
    cases hText
    exact fun _ hMem => nomatch hMem
  | char a =>
    cases hText
    exact fun _ hMem => hMem
  | plus r s ihR ihS =>
    intro c hMem
    rcases hText with hText | hText
    · exact List.mem_append_left _ (ihR hText c hMem)
    · exact List.mem_append_right _ (ihS hText c hMem)
  | comp r s ihR ihS =>
    obtain ⟨front, hFront, back, hBack, rfl⟩ := Language.mem_mul.1 hText
    intro c hMem
    rcases List.mem_append.1 hMem with hMem | hMem
    · exact List.mem_append_left _ (ihR hFront c hMem)
    · exact List.mem_append_right _ (ihS hBack c hMem)
  | star r ih =>
    obtain ⟨words, rfl, hWords⟩ := Language.mem_kstar.1 hText
    intro c hMem
    obtain ⟨word, hWord, hMem⟩ := List.mem_flatten.1 hMem
    exact ih (hWords word hWord) c hMem

/-- What holds of the letters of an expression holds of the characters of a text that matches. -/
theorem all_of_letters {p : Char → Bool} (hLetters : (letters r).all p)
    (hText : text ∈ r.matches') :
    ∀ c ∈ text, p c :=
  fun c hMem => List.all_eq_true.1 hLetters c (mem_letters hText c hMem)

theorem mem_oneOf {chars : List Char} :
    text ∈ (oneOf chars).matches' ↔ ∃ c ∈ chars, text = [c] := by
  induction chars with
  | nil =>
    constructor
    · intro hText
      cases hText
    · rintro ⟨c, hMem, -⟩
      cases hMem
  | cons a chars ih =>
    show text ∈ (char a).matches' + (oneOf chars).matches' ↔ _
    rw [Language.mem_add, ih, List.exists_mem_cons_iff]
    rfl

theorem isDigit_iff_mem : c.isDigit ↔ c ∈ digitChars := by
  constructor
  · intro hDigit
    have hTen : ∀ k < 10, Char.ofNat (48 + k) ∈ digitChars := by decide
    have hRange : 48 ≤ c.toNat ∧ c.toNat ≤ 57 := by
      rw [Char.isDigit, Bool.and_eq_true, decide_eq_true_iff, decide_eq_true_iff] at hDigit
      exact hDigit
    have hPlace : 48 + (c.toNat - 48) = c.toNat := by omega
    have hMem := hTen (c.toNat - 48) (by omega)
    rwa [hPlace, Char.ofNat_toNat] at hMem
  · have hAll : digitChars.all Char.isDigit := by decide
    exact List.all_eq_true.1 hAll c

theorem mem_digit : text ∈ digit.matches' ↔ ∃ c, c.isDigit ∧ text = [c] := by
  rw [digit, mem_oneOf]
  exact exists_congr fun c => and_congr_left' isDigit_iff_mem.symm

theorem mem_star_digit : text ∈ (star digit).matches' ↔ ∀ c ∈ text, c.isDigit := by
  rw [RegularExpression.matches'_star, Language.mem_kstar]
  constructor
  · rintro ⟨words, rfl, hWords⟩ c hMem
    obtain ⟨word, hWord, hMem⟩ := List.mem_flatten.1 hMem
    obtain ⟨a, hDigit, rfl⟩ := mem_digit.1 (hWords word hWord)
    rw [List.mem_singleton.1 hMem]
    exact hDigit
  · intro hDigits
    refine ⟨text.map fun c => [c], by rw [← List.flatMap_def, List.flatMap_singleton'], ?_⟩
    intro word hWord
    obtain ⟨c, hMem, rfl⟩ := List.mem_map.1 hWord
    exact mem_digit.2 ⟨c, hDigits c hMem, rfl⟩

/-- One digit or more. -/
theorem mem_digits : text ∈ digits.matches' ↔ text ≠ [] ∧ ∀ c ∈ text, c.isDigit := by
  rw [digits, RegularExpression.matches'_mul, Language.mem_mul]
  constructor
  · rintro ⟨first, hFirst, rest, hRest, rfl⟩
    obtain ⟨c, hDigit, rfl⟩ := mem_digit.1 hFirst
    refine ⟨List.cons_ne_nil _ _, ?_⟩
    rintro a (_ | ⟨_, hMem⟩)
    · exact hDigit
    · exact mem_star_digit.1 hRest a hMem
  · rintro ⟨hSome, hDigits⟩
    obtain ⟨c, rest, rfl⟩ := List.exists_cons_of_ne_nil hSome
    exact ⟨[c], mem_digit.2 ⟨c, hDigits c List.mem_cons_self, rfl⟩, rest,
      mem_star_digit.2 fun a hMem => hDigits a (List.mem_cons_of_mem _ hMem), rfl⟩

/-- Digits with or without a point among them, at least one of them on either side of it. -/
theorem mem_mantissa : text ∈ mantissa.matches' ↔
    ∃ whole fraction, (text = whole ∧ fraction = [] ∨ text = whole ++ '.' :: fraction) ∧
      (∀ c ∈ whole ++ fraction, c.isDigit) ∧ ¬(whole = [] ∧ fraction = []) := by
  constructor
  · rintro (hText | hText)
    · obtain ⟨whole, hWhole, tail, hTail, rfl⟩ := Language.mem_mul.1 hText
      obtain ⟨hSome, hDigits⟩ := mem_digits.1 hWhole
      rcases hTail with hTail | hTail
      · cases hTail
        exact ⟨whole, [], .inl ⟨List.append_nil _, rfl⟩, by simpa using hDigits, fun hNone =>
          hSome hNone.1⟩
      · obtain ⟨point, hPoint, fraction, hFraction, rfl⟩ := Language.mem_mul.1 hTail
        cases hPoint
        refine ⟨whole, fraction, .inr rfl, ?_, fun hNone => hSome hNone.1⟩
        exact List.forall_mem_append.2 ⟨hDigits, mem_star_digit.1 hFraction⟩
    · obtain ⟨point, hPoint, fraction, hFraction, rfl⟩ := Language.mem_mul.1 hText
      cases hPoint
      obtain ⟨hSome, hDigits⟩ := mem_digits.1 hFraction
      exact ⟨[], fraction, .inr rfl, hDigits, fun hNone => hSome hNone.2⟩
  · rintro ⟨whole, fraction, hText, hDigits, hSome⟩
    obtain ⟨hWhole, hFraction⟩ := List.forall_mem_append.1 hDigits
    by_cases hBefore : whole = []
    · subst hBefore
      have hAfter : fraction ≠ [] := fun hNone => hSome ⟨rfl, hNone⟩
      rcases hText with ⟨-, hNone⟩ | rfl
      · exact absurd hNone hAfter
      · exact .inr (Language.mem_mul.2
          ⟨['.'], rfl, fraction, mem_digits.2 ⟨hAfter, hFraction⟩, rfl⟩)
    · have hDigits : whole ∈ digits.matches' := mem_digits.2 ⟨hBefore, hWhole⟩
      rcases hText with ⟨rfl, -⟩ | rfl
      · exact .inl (Language.mem_mul.2 ⟨text, hDigits, [], .inl rfl, List.append_nil _⟩)
      · refine .inl (Language.mem_mul.2 ⟨whole, hDigits, '.' :: fraction, .inr ?_, rfl⟩)
        exact Language.mem_mul.2 ⟨['.'], rfl, fraction, mem_star_digit.2 hFraction, rfl⟩

/-- A number is negative by its first character. -/
theorem splitSign_fst (text : List Char) : (splitSign text).1 = isNegative text := by
  unfold splitSign
  split
  · rfl
  · rfl
  · rename_i hMinus _
    cases text with
    | nil => rfl
    | cons c rest =>
      symm
      exact beq_eq_false_iff_ne.2 fun hSame =>
        hMinus rest (congrArg (· :: rest) (Option.some.inj hSame))

theorem splitSign_of_unsigned (hPlus : text.head? ≠ some '+') (hMinus : text.head? ≠ some '-') :
    splitSign text = (false, text) := by
  unfold splitSign
  split
  · exact absurd rfl hMinus
  · exact absurd rfl hPlus
  · rfl

/-- A sign may stand in front of what does not begin with one. -/
theorem mem_sign_mul
    (hUnsigned : ∀ text ∈ r.matches', text.head? ≠ some '+' ∧ text.head? ≠ some '-') :
    text ∈ (sign * r).matches' ↔ (splitSign text).2 ∈ r.matches' := by
  constructor
  · intro hText
    obtain ⟨front, hFront, rest, hRest, rfl⟩ := Language.mem_mul.1 hText
    rcases hFront with hFront | hFront
    · cases hFront
      rw [List.nil_append, splitSign_of_unsigned (hUnsigned rest hRest).1 (hUnsigned rest hRest).2]
      exact hRest
    · obtain ⟨c, hSign, rfl⟩ := mem_oneOf.1 hFront
      simp only [List.mem_cons, List.not_mem_nil, or_false] at hSign
      rcases hSign with rfl | rfl
      · exact hRest
      · exact hRest
  · intro hRest
    refine Language.mem_mul.2 ?_
    unfold splitSign at hRest
    split at hRest
    · exact ⟨['-'], .inr (mem_oneOf.2 ⟨'-', by decide, rfl⟩), _, hRest, rfl⟩
    · exact ⟨['+'], .inr (mem_oneOf.2 ⟨'+', by decide, rfl⟩), _, hRest, rfl⟩
    · exact ⟨[], .inl rfl, _, hRest, rfl⟩

theorem head?_ne_of_letters (hLetters : c ∉ letters r) (hText : text ∈ r.matches') :
    text.head? ≠ some c :=
  fun hHead => hLetters (mem_letters hText c (List.mem_of_head? hHead))

/-- Whether a text is a whole number is seen behind its sign. -/
theorem mem_wholeNumber : text ∈ wholeNumber.matches' ↔ (splitSign text).2 ∈ digits.matches' :=
  mem_sign_mul fun _ hText =>
    ⟨head?_ne_of_letters (by decide) hText, head?_ne_of_letters (by decide) hText⟩

/-- Whether a text is a decimal number is seen behind its sign. -/
theorem mem_decimalNumber :
    text ∈ decimalNumber.matches' ↔ (splitSign text).2 ∈ unsignedNumber.matches' := by
  refine mem_sign_mul fun text hText => ?_
  obtain ⟨front, hFront, back, -, rfl⟩ := Language.mem_mul.1 hText
  have hSome : front ≠ [] := by
    rintro rfl
    obtain ⟨whole, fraction, hText | hText, -, hSome⟩ := mem_mantissa.1 hFront
    · exact hSome ⟨hText.1.symm, hText.2⟩
    · exact absurd hText (by simp)
  rw [List.head?_append_of_ne_nil _ hSome]
  exact ⟨head?_ne_of_letters (by decide) hFront, head?_ne_of_letters (by decide) hFront⟩

end

theorem splitSign_eq (text : List Char) : splitSign text = (isNegative text, (splitSign text).2) :=
  Prod.ext (splitSign_fst text) rfl

section

variable {text : List Char}

theorem filter_splitSign (text : List Char) :
    (splitSign text).2.filter Char.isDigit = text.filter Char.isDigit := by
  unfold splitSign
  split <;> rfl

/-- Digits are read as the number they stand for, and nothing else is. -/
theorem natural?_eq_some_iff {n : Nat} :
    Decimal.natural? text = some n ↔
      text ∈ digits.matches' ∧ Decimal.ofDigits (text.filter Char.isDigit) = n := by
  rw [mem_digits, Decimal.natural?]
  simp only [List.all_eq_true]
  split
  · rename_i hDigits
    rw [List.filter_eq_self.2 hDigits.2, Option.some_inj]
    exact (and_iff_right hDigits).symm
  · rename_i hOther
    exact iff_of_false (Option.some_ne_none n).symm fun hNumber => hOther hNumber.1

/-- A text is read as an integer if it is a whole number, and as its value. -/
theorem integer?_eq_some_iff {n : Int} :
    Decimal.integer? text = some n ↔ text ∈ wholeNumber.matches' ∧ wholeValue text = n := by
  rw [Decimal.integer?_of_splitSign (splitSign_eq text), Option.map_eq_some_iff, mem_wholeNumber]
  simp only [natural?_eq_some_iff, filter_splitSign]
  constructor
  · rintro ⟨_, ⟨hDigits, rfl⟩, hValue⟩
    exact ⟨hDigits, hValue⟩
  · rintro ⟨hDigits, hValue⟩
    exact ⟨_, ⟨hDigits, rfl⟩, hValue⟩

/-- A scale is empty, or a mark and a whole number. -/
theorem mem_scale : text ∈ scale.matches' ↔
    text = [] ∨ ∃ mark rest, text = mark :: rest ∧ isMark mark ∧ rest ∈ wholeNumber.matches' := by
  have hMark (c : Char) : c ∈ ['e', 'E'] ↔ isMark c := by simp [isMark]
  refine or_congr Iff.rfl ?_
  constructor
  · intro hText
    obtain ⟨front, hFront, rest, hRest, rfl⟩ := Language.mem_mul.1 hText
    obtain ⟨mark, hMem, rfl⟩ := mem_oneOf.1 hFront
    exact ⟨mark, rest, rfl, (hMark mark).1 hMem, hRest⟩
  · rintro ⟨mark, rest, rfl, hMem, hRest⟩
    exact Language.mem_mul.2 ⟨[mark], mem_oneOf.2 ⟨mark, (hMark mark).2 hMem, rfl⟩,
      rest, hRest, rfl⟩

/-- The exponent is read exactly from a scale. -/
theorem exponent?_eq_some_iff {e : Int} :
    Decimal.exponent? text = some e ↔ text ∈ scale.matches' ∧ wholeValue (text.drop 1) = e := by
  rw [mem_scale]
  cases text with
  | nil =>
    show some 0 = some e ↔ _ ∧ (0 : Int) = e
    simp
  | cons mark rest =>
    have hMark : (mark = 'e' ∨ mark = 'E') ↔ isMark mark := by simp [isMark]
    rw [Decimal.exponent?, List.drop_one, List.tail_cons]
    simp only [hMark]
    split
    · rename_i hIsMark
      rw [integer?_eq_some_iff]
      simp [hIsMark]
    · rename_i hNoMark
      simp [hNoMark]

variable {front back : List Char}

/-- A mantissa has no mark in it, so that the first mark is where the scale begins. -/
theorem beforeMark_append (hFront : front ∈ mantissa.matches') (hBack : back ∈ scale.matches') :
    beforeMark (front ++ back) = front ∧ afterMark (front ++ back) = back.drop 1 := by
  have hNoMark : ∀ c ∈ front, !isMark c := all_of_letters (by decide) hFront
  rw [beforeMark, afterMark, List.takeWhile_append_of_pos hNoMark,
    List.dropWhile_append_of_pos hNoMark]
  obtain rfl | ⟨mark, rest, rfl, hMark, -⟩ := mem_scale.1 hBack
  · simp
  · simp [hMark]

/-- The digits behind the point are counted by the places. -/
theorem places_parts {whole fraction : List Char}
    (hText : text = whole ∧ fraction = [] ∨ text = whole ++ '.' :: fraction)
    (hDigits : ∀ c ∈ whole ++ fraction, c.isDigit) :
    places text = fraction.length ∧ text.filter Char.isDigit = whole ++ fraction := by
  obtain ⟨hWhole, hFraction⟩ := List.forall_mem_append.1 hDigits
  have hNoPoint : ∀ c ∈ whole, (c != '.') = true := by
    intro c hMem
    refine bne_iff_ne.2 ?_
    rintro rfl
    cases hWhole _ hMem
  obtain ⟨rfl, rfl⟩ | rfl := hText
  · constructor
    · rw [places, List.dropWhile_eq_nil_iff.2 hNoPoint]
      rfl
    · rw [List.append_nil, List.filter_eq_self.2 hWhole]
  · constructor
    · rw [places, List.dropWhile_append_of_pos hNoPoint]
      rfl
    · rw [List.filter_append, List.filter_eq_self.2 hWhole]
      exact congrArg (whole ++ ·) (List.filter_eq_self.2 hFraction)

/-- Reading an unsigned number part by part. -/
theorem unsigned?_of_parts {whole rest fraction : List Char}
    (hWhole : text.span Char.isDigit = (whole, rest))
    (hFraction : Decimal.splitFraction rest = (fraction, back)) :
    Decimal.unsigned? text =
      if whole = [] ∧ fraction = [] then none
      else (Decimal.exponent? back).map fun e =>
        ⟨Decimal.ofDigits (whole ++ fraction), e - fraction.length⟩ := by
  simp only [Decimal.unsigned?, hWhole, hFraction]
  split
  · rfl
  · cases Decimal.exponent? back <;> rfl

theorem unsigned?_append (hFront : front ∈ mantissa.matches') (hBack : back ∈ scale.matches') :
    Decimal.unsigned? (front ++ back) = some (magnitude (front ++ back)) := by
  obtain ⟨hBefore, hAfter⟩ := beforeMark_append hFront hBack
  have hExponent : Decimal.exponent? back = some (wholeValue (back.drop 1)) :=
    exponent?_eq_some_iff.2 ⟨hBack, rfl⟩
  have hEnd : back.takeWhile Char.isDigit = [] ∧ Decimal.splitFraction back = ([], back) := by
    obtain rfl | ⟨mark, rest, rfl, hMark, -⟩ := mem_scale.1 hBack
    · exact ⟨rfl, rfl⟩
    · have hCases : mark = 'e' ∨ mark = 'E' := by simpa [isMark] using hMark
      obtain rfl | rfl := hCases <;> exact ⟨rfl, rfl⟩
  obtain ⟨whole, fraction, hText, hDigits, hSome⟩ := mem_mantissa.1 hFront
  obtain ⟨hPlaces, hFilter⟩ := places_parts hText hDigits
  obtain ⟨hWhole, hFraction⟩ := List.forall_mem_append.1 hDigits
  have hParts : ∃ rest, (front ++ back).span Char.isDigit = (whole, rest) ∧
      Decimal.splitFraction rest = (fraction, back) := by
    obtain ⟨rfl, rfl⟩ | rfl := hText
    · exact ⟨back, Decimal.span_isDigit hWhole hEnd.1, hEnd.2⟩
    · refine ⟨'.' :: (fraction ++ back), ?_, Decimal.span_isDigit hFraction hEnd.1⟩
      rw [List.append_assoc]
      exact Decimal.span_isDigit hWhole rfl
  obtain ⟨rest, hSpan, hSplit⟩ := hParts
  rw [unsigned?_of_parts hSpan hSplit, if_neg hSome, hExponent, magnitude, hBefore, hAfter,
    hPlaces, hFilter]
  rfl

theorem splitFraction_cases {rest fraction : List Char}
    (hSplit : Decimal.splitFraction rest = (fraction, back)) :
    (∀ c ∈ fraction, c.isDigit) ∧
      (fraction = [] ∧ rest = back ∨ rest = '.' :: (fraction ++ back)) := by
  unfold Decimal.splitFraction at hSplit
  split at hSplit
  · rename_i after
    rw [List.span_eq_takeWhile_dropWhile] at hSplit
    cases hSplit
    rw [List.takeWhile_append_dropWhile]
    exact ⟨fun c hMem => List.mem_takeWhile_imp hMem, .inr rfl⟩
  · cases hSplit
    exact ⟨fun _ hMem => absurd hMem List.not_mem_nil, .inl ⟨rfl, rfl⟩⟩

/-- A text that is read as a decimal has the form of one. -/
theorem mem_unsignedNumber_of_unsigned? {d : Decimal} (hRead : Decimal.unsigned? text = some d) :
    text ∈ unsignedNumber.matches' := by
  obtain ⟨fraction, back, hSplit⟩ :
      ∃ fraction back, Decimal.splitFraction (text.dropWhile Char.isDigit) = (fraction, back) :=
      ⟨_, _, rfl⟩
  rw [unsigned?_of_parts (List.span_eq_takeWhile_dropWhile ..) hSplit] at hRead
  split at hRead
  · cases hRead
  · rename_i hSome
    obtain ⟨e, hExponent, -⟩ := Option.map_eq_some_iff.1 hRead
    have hBack : back ∈ scale.matches' := (exponent?_eq_some_iff.1 hExponent).1
    obtain ⟨hFraction, hRest⟩ := splitFraction_cases hSplit
    have hDigits : ∀ c ∈ text.takeWhile Char.isDigit ++ fraction, c.isDigit :=
      List.forall_mem_append.2 ⟨fun c hMem => List.mem_takeWhile_imp hMem, hFraction⟩
    rw [← List.takeWhile_append_dropWhile (p := Char.isDigit) (l := text)]
    rcases hRest with ⟨rfl, hRest⟩ | hRest
    · rw [hRest]
      exact Language.mem_mul.2 ⟨_, mem_mantissa.2 ⟨_, _, .inl ⟨rfl, rfl⟩, hDigits, hSome⟩,
        back, hBack, rfl⟩
    · rw [hRest, ← List.cons_append, ← List.append_assoc]
      exact Language.mem_mul.2 ⟨_, mem_mantissa.2 ⟨_, _, .inr rfl, hDigits, hSome⟩,
        back, hBack, rfl⟩

/-- A text is read as an unsigned number if it is one of the grammar, and as its value. -/
theorem unsigned?_eq_some_iff {d : Decimal} :
    Decimal.unsigned? text = some d ↔ text ∈ unsignedNumber.matches' ∧ magnitude text = d := by
  have hRead (hText : text ∈ unsignedNumber.matches') : Decimal.unsigned? text =
      some (magnitude text) := by
    obtain ⟨front, hFront, back, hBack, rfl⟩ := Language.mem_mul.1 hText
    exact unsigned?_append hFront hBack
  constructor
  · intro hSome
    have hText := mem_unsignedNumber_of_unsigned? hSome
    rw [hRead hText] at hSome
    exact ⟨hText, Option.some.inj hSome⟩
  · rintro ⟨hText, rfl⟩
    exact hRead hText

theorem magnitude_splitSign (text : List Char) : magnitude (splitSign text).2 = magnitude text := by
  unfold splitSign
  split <;> rfl

/-- A whole number is a decimal number without point and exponent. -/
theorem decimalNumber_of_wholeNumber (hText : text ∈ wholeNumber.matches') :
    text ∈ decimalNumber.matches' := by
  obtain ⟨hSome, hDigits⟩ := mem_digits.1 (mem_wholeNumber.1 hText)
  have hFront : (splitSign text).2 ∈ mantissa.matches' :=
    mem_mantissa.2 ⟨_, [], .inl ⟨rfl, rfl⟩, by simpa using hDigits, fun hNone => hSome hNone.1⟩
  exact mem_decimalNumber.2 (Language.mem_mul.2 ⟨_, hFront, [], .inl rfl, List.append_nil _⟩)

/-- Without a point and an exponent, a number is as large as the whole number. -/
theorem value_wholeNumber (hText : text ∈ wholeNumber.matches') :
    (magnitude text).value = (wholeValue text).natAbs := by
  have hNoMark : ∀ c ∈ text, !isMark c := all_of_letters (by decide) hText
  have hNoPoint : ∀ c ∈ text, c != '.' := all_of_letters (by decide) hText
  have hBefore : beforeMark text = text := List.takeWhile_eq_self_iff.2 hNoMark
  have hAfter : afterMark text = [] := by
    rw [afterMark, List.dropWhile_eq_nil_iff.2 hNoMark, List.drop_nil]
  have hPlaces : places text = 0 := by rw [places, List.dropWhile_eq_nil_iff.2 hNoPoint]; rfl
  have hSize : (wholeValue text).natAbs = Decimal.ofDigits (text.filter Char.isDigit) := by
    unfold wholeValue
    dsimp only
    split <;> omega
  have hExponent : wholeValue [] - (0 : Nat) = 0 := rfl
  rw [Decimal.value, magnitude, hBefore, hAfter, hPlaces, hSize, hExponent, zpow_zero, mul_one]

end

end Numeral

namespace Binary64

open Numeral

/-- A text is read as a float if it is a decimal number, and as the float nearest to its value. -/
theorem ofText?_eq_some_iff {text : List Char} {x : Binary64} :
    ofText? text = some x ↔ text ∈ decimalNumber.matches' ∧
      ∃ m : Magnitude, m.Nearest (magnitude text).value ∧
        x = .signed (Numeral.isNegative text) m := by
  rw [mem_decimalNumber, ofText?, splitSign_eq]
  simp only [Option.map_eq_some_iff, unsigned?_eq_some_iff, magnitude_splitSign]
  constructor
  · rintro ⟨_, ⟨hText, rfl⟩, rfl⟩
    exact ⟨hText, _, (magnitude text).nearest_toMagnitude, rfl⟩
  · rintro ⟨hText, m, hNearest, rfl⟩
    refine ⟨_, ⟨hText, rfl⟩, ?_⟩
    rw [(magnitude text).nearest_toMagnitude.unique hNearest]

end Binary64

end EmbeddedLisp
