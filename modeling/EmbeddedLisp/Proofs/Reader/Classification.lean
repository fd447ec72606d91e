import EmbeddedLisp.Proofs.Number.Numeral
import EmbeddedLisp.Reader.Atom

/-! The class of an atom, told from the grammar of numbers alone. Every text is in one class: whole
numbers in range, other numbers and three words for what has no digits, truth values, and text.

What a text is as a float has a grammar of its own. There a word for infinity, or for what is not a
number, may have a sign and letters of either case, and atoms have but three of these words. -/
namespace EmbeddedLisp

namespace Numeral

/-- A word in letters of either case. -/
def spelled (word : String) : Language Char := {text | text.map Char.toLower = word.toList}

/-- The words for infinity, in any case. -/
def infinityWord : Language Char := sign.matches' * (spelled "inf" + spelled "infinity")

/-- The words for what is not a number, in any case. -/
def nanWord : Language Char := sign.matches' * spelled "nan"

/-- What a text is as a float. -/
inductive Reads (text : List Char) : Binary64 → Prop
  | infinity (hWord : text ∈ infinityWord) : Reads text (.signed (isNegative text) .infinity)
  | nan (hWord : text ∈ nanWord) : Reads text (.nan (isNegative text))
  | number {m : Magnitude} (hNumber : text ∈ decimalNumber.matches')
      (hNearest : m.Nearest (magnitude text).value) :
      Reads text (.signed (isNegative text) m)

section

variable {text : List Char} {x y : Binary64}

/-- Behind the sign of a word stands the word itself, up to the case of its letters. -/
theorem lower_of_sign_mul {words : Language Char} (hText : text ∈ sign.matches' * words) :
    ∃ front ∈ [[], ['+'], ['-']], ∃ word ∈ words, text.map Char.toLower =
      front ++ word.map Char.toLower := by
  obtain ⟨front, hSign, word, hWord, rfl⟩ := Language.mem_mul.1 hText
  rcases hSign with hNone | hSome
  · cases hNone
    exact ⟨[], by simp, word, hWord, rfl⟩
  · obtain ⟨c, hMem, rfl⟩ := mem_oneOf.1 hSome
    simp only [List.mem_cons, List.not_mem_nil, or_false] at hMem
    rcases hMem with rfl | rfl
    · exact ⟨['+'], by simp, word, hWord, rfl⟩
    · exact ⟨['-'], by simp, word, hWord, rfl⟩

/-- The words for infinity have an `n` and no `a`. -/
theorem letters_infinityWord (hText : text ∈ infinityWord) :
    'n' ∈ text.map Char.toLower ∧ 'a' ∉ text.map Char.toLower := by
  obtain ⟨front, hSign, word, hWord, hLower⟩ := lower_of_sign_mul hText
  have hWords : word.map Char.toLower ∈ ["inf".toList, "infinity".toList] := by
    rcases hWord with hWord | hWord
    · exact List.mem_cons.2 (.inl hWord)
    · exact List.mem_cons_of_mem _ (List.mem_singleton.2 hWord)
  have hLetters : ∀ front ∈ [[], ['+'], ['-']], ∀ word ∈ ["inf".toList, "infinity".toList],
      'n' ∈ front ++ word ∧ 'a' ∉ front ++ word := by decide
  rw [hLower]
  exact hLetters front hSign _ hWords

/-- The words for NaN have both an `n` and an `a`. -/
theorem letters_nanWord (hText : text ∈ nanWord) :
    'n' ∈ text.map Char.toLower ∧ 'a' ∈ text.map Char.toLower := by
  obtain ⟨front, hSign, word, hWord, hLower⟩ := lower_of_sign_mul hText
  have hLetters : ∀ front ∈ [[], ['+'], ['-']], 'n' ∈ front ++ "nan".toList ∧
      'a' ∈ front ++ "nan".toList := by
    decide
  rw [hLower, hWord]
  exact hLetters front hSign

/-- A decimal number has no `n`, which tells the three kinds of texts apart. -/
theorem letters_decimalNumber (hNumber : text ∈ decimalNumber.matches') :
    'n' ∉ text.map Char.toLower := by
  have hOther : ∀ c ∈ text, c.toLower != 'n' := all_of_letters (by decide) hNumber
  intro hMem
  obtain ⟨c, hMem, hLower⟩ := List.mem_map.1 hMem
  exact bne_iff_ne.1 (hOther c hMem) hLower

/-- A text is read as one float at most. -/
theorem Reads.unique (hX : Reads text x) (hY : Reads text y) : x = y := by
  cases hX with
  | infinity hWord =>
    cases hY with
    | infinity hWord' => rfl
    | nan hWord' => exact absurd (letters_nanWord hWord').2 (letters_infinityWord hWord).2
    | number hNumber' =>
      exact absurd (letters_infinityWord hWord).1 (letters_decimalNumber hNumber')
  | nan hWord =>
    cases hY with
    | infinity hWord' => exact absurd (letters_nanWord hWord).2 (letters_infinityWord hWord').2
    | nan hWord' => rfl
    | number hNumber' => exact absurd (letters_nanWord hWord).1 (letters_decimalNumber hNumber')
  | number hNumber hNearest =>
    cases hY with
    | infinity hWord' =>
      exact absurd (letters_infinityWord hWord').1 (letters_decimalNumber hNumber)
    | nan hWord' => exact absurd (letters_nanWord hWord').1 (letters_decimalNumber hNumber)
    | number hNumber' hNearest' => rw [hNearest.unique hNearest']

end

end Numeral

namespace Expression

open Numeral

/-- A whole number in the range of the integers. -/
def IsInteger (token : String) : Prop :=
  token.toList ∈ wholeNumber.matches' ∧ -2 ^ 63 ≤ wholeValue token.toList ∧
    wholeValue token.toList < 2 ^ 63

/-- Any other number, and the words for what has no digits. -/
def IsFloat (token : String) : Prop :=
  ¬IsInteger token ∧
    ((token = "inf" ∨ token = "-inf" ∨ token = "NaN") ∨ token.toList ∈ decimalNumber.matches')

/-- The expression of a token, by its class. -/
inductive Classified (token : String) : Expression → Prop
  | integer {n : Fixnum} (hNumber : token.toList ∈ wholeNumber.matches')
      (hValue : wholeValue token.toList = n.toInt) : Classified token (.integer n)
  | float {x : Binary64} (hFloat : IsFloat token) (hRead : Reads token.toList x) :
      Classified token (.float x)
  | boolean (truth : Bool) (hWord : token = if truth then "#t" else "#f") :
      Classified token (.boolean truth)
  | text (hInteger : ¬IsInteger token) (hFloat : ¬IsFloat token) (hTrue : token ≠ "#t")
      (hFalse : token ≠ "#f") :
      Classified token (.text token)

section

variable {token : String} {e : Expression}

/-- An integer is read from a whole number in range, as its value. -/
theorem integer?_inRange_iff {n : Fixnum} :
    (Decimal.integer? token.toList).bind Fixnum.ofInt? = some n ↔
      token.toList ∈ wholeNumber.matches' ∧ wholeValue token.toList = n.toInt := by
  rw [Option.bind_eq_some_iff]
  simp only [integer?_eq_some_iff, Fixnum.ofInt?_eq_some_iff]
  constructor
  · rintro ⟨_, ⟨hNumber, rfl⟩, hValue⟩
    exact ⟨hNumber, hValue.symm⟩
  · rintro ⟨hNumber, hValue⟩
    exact ⟨_, ⟨hNumber, rfl⟩, hValue.symm⟩

theorem isInteger_iff :
    IsInteger token ↔ ∃ n, (Decimal.integer? token.toList).bind Fixnum.ofInt? = some n := by
  simp only [integer?_inRange_iff]
  constructor
  · rintro ⟨hNumber, hRange⟩
    exact ⟨⟨wholeValue token.toList, by omega⟩, hNumber, rfl⟩
  · rintro ⟨n, hNumber, hValue⟩
    have hRange := n.inRange
    exact ⟨hNumber, by omega⟩

theorem not_isInteger_iff :
    ¬IsInteger token ↔ (Decimal.integer? token.toList).bind Fixnum.ofInt? = none := by
  rw [isInteger_iff, not_exists, Option.eq_none_iff_forall_ne_some]

/-- What is read as a float, the words apart, is a decimal number. -/
theorem mem_decimalNumber_iff :
    token.toList ∈ decimalNumber.matches' ↔ ∃ x, Binary64.ofText? token.toList = some x := by
  constructor
  · intro hNumber
    exact ⟨_, Binary64.ofText?_eq_some_iff.2
      ⟨hNumber, _, (magnitude token.toList).nearest_toMagnitude, rfl⟩⟩
  · rintro ⟨x, hText⟩
    exact (Binary64.ofText?_eq_some_iff.1 hText).1

/-- The words that atoms have for what has no digits. -/
theorem ofAtom_word (hWord : token = "inf" ∨ token = "-inf" ∨ token = "NaN") :
    ∃ x, ofAtom token = .float x ∧ Reads token.toList x := by
  rcases hWord with rfl | rfl | rfl
  · refine ⟨.infinity, rfl, .infinity ?_⟩
    exact Language.mem_mul.2 ⟨[], .inl rfl, ['i', 'n', 'f'], .inl rfl, rfl⟩
  · refine ⟨.signed true .infinity, rfl, .infinity ?_⟩
    exact Language.mem_mul.2 ⟨['-'], .inr (mem_oneOf.2 ⟨'-', by decide, rfl⟩), ['i', 'n', 'f'],
      .inl rfl, rfl⟩
  · refine ⟨.nan false, rfl, .nan ?_⟩
    exact Language.mem_mul.2 ⟨[], .inl rfl, ['N', 'a', 'N'], rfl, rfl⟩

theorem ofAtom_number {x : Binary64} (hNotInteger : ¬IsInteger token)
    (hText : Binary64.ofText? token.toList = some x) : ofAtom token = .float x := by
  rw [ofAtom, not_isInteger_iff.1 hNotInteger, hText]

theorem ofAtom_other (hNotInteger : ¬IsInteger token)
    (hNotNumber : token.toList ∉ decimalNumber.matches') :
    ofAtom token = (reserved? token).getD (.text token) := by
  have hNoText : Binary64.ofText? token.toList = none :=
    Option.eq_none_iff_forall_ne_some.2 fun x hSome =>
      hNotNumber (mem_decimalNumber_iff.2 ⟨x, hSome⟩)
  rw [ofAtom, not_isInteger_iff.1 hNotInteger, hNoText]

/-- A token is taken for what it is classified as. -/
theorem ofAtom_of_classified (h : Classified token e) : ofAtom token = e := by
  cases h with
  | integer hNumber hValue =>
    rw [ofAtom, integer?_inRange_iff.2 ⟨hNumber, hValue⟩]
  | float hFloat hRead =>
    obtain ⟨hNotInteger, hWord | hNumber⟩ := hFloat
    · obtain ⟨y, hAtom, hReadY⟩ := ofAtom_word hWord
      rw [hAtom, hRead.unique hReadY]
    · obtain ⟨y, hText⟩ := mem_decimalNumber_iff.1 hNumber
      obtain ⟨-, m, hNearest, rfl⟩ := Binary64.ofText?_eq_some_iff.1 hText
      rw [ofAtom_number hNotInteger hText, hRead.unique (.number hNumber hNearest)]
  | boolean truth hWord =>
    rw [hWord]
    cases truth with
    | false => rfl
    | true => rfl
  | text hNotInteger hNotFloat hTrue hFalse =>
    have hOther : ¬((token = "inf" ∨ token = "-inf" ∨ token = "NaN") ∨
        token.toList ∈ decimalNumber.matches') :=
      fun hSome => hNotFloat ⟨hNotInteger, hSome⟩
    obtain ⟨hNotWord, hNotNumber⟩ := not_or.1 hOther
    obtain ⟨hNotInf, hNotNegInf, hNotNaN⟩ := by simpa only [not_or] using hNotWord
    rw [ofAtom_other hNotInteger hNotNumber, reserved?, if_neg hNotInf, if_neg hNotNegInf,
      if_neg hNotNaN, if_neg hTrue, if_neg hFalse]
    rfl

/-- What has the form of a float is read as one. -/
theorem exists_reads (hFloat : IsFloat token) : ∃ x, Reads token.toList x := by
  rcases hFloat.2 with hWord | hNumber
  · obtain ⟨x, -, hRead⟩ := ofAtom_word hWord
    exact ⟨x, hRead⟩
  · exact ⟨_, .number hNumber (magnitude token.toList).nearest_toMagnitude⟩

/-- Every token is classified: the cases leave nothing out. -/
theorem exists_classified (token : String) : ∃ e, Classified token e := by
  by_cases hInteger : IsInteger token
  · obtain ⟨n, hRead⟩ := isInteger_iff.1 hInteger
    obtain ⟨hNumber, hValue⟩ := integer?_inRange_iff.1 hRead
    exact ⟨_, .integer hNumber hValue⟩
  by_cases hFloat : IsFloat token
  · obtain ⟨x, hRead⟩ := exists_reads hFloat
    exact ⟨_, .float hFloat hRead⟩
  by_cases hTrue : token = "#t"
  · exact ⟨_, .boolean true hTrue⟩
  by_cases hFalse : token = "#f"
  · exact ⟨_, .boolean false hFalse⟩
  exact ⟨_, .text hInteger hFloat hTrue hFalse⟩

/-- An atom stands for the expression of its class, and each token has one class. -/
theorem ofAtom_eq_iff : ofAtom token = e ↔ Classified token e := by
  constructor
  · obtain ⟨e', hClass⟩ := exists_classified token
    rw [ofAtom_of_classified hClass]
    rintro rfl
    exact hClass
  · exact ofAtom_of_classified

theorem ofAtom_eq_integer_iff {n : Fixnum} :
    ofAtom token = .integer n ↔ token.toList ∈ wholeNumber.matches' ∧
      wholeValue token.toList = n.toInt := by
  rw [ofAtom_eq_iff]
  constructor
  · rintro ⟨hNumber, hValue⟩
    exact ⟨hNumber, hValue⟩
  · exact fun h => .integer h.1 h.2

theorem ofAtom_eq_float_iff {x : Binary64} :
    ofAtom token = .float x ↔ IsFloat token ∧ Reads token.toList x := by
  rw [ofAtom_eq_iff]
  constructor
  · rintro (_ | ⟨hFloat, hRead⟩)
    exact ⟨hFloat, hRead⟩
  · exact fun h => .float h.1 h.2

theorem ofAtom_eq_boolean_iff {truth : Bool} :
    ofAtom token = .boolean truth ↔ token = if truth then "#t" else "#f" := by
  rw [ofAtom_eq_iff]
  constructor
  · intro h
    cases h with
    | boolean _ hWord => exact hWord
  · exact .boolean truth

/-- A token is taken for a symbol when it is nothing else. -/
theorem ofAtom_eq_text_iff {t : String} :
    ofAtom token = .text t ↔
      t = token ∧ ¬IsInteger token ∧ ¬IsFloat token ∧ token ≠ "#t" ∧ token ≠ "#f" := by
  rw [ofAtom_eq_iff]
  constructor
  · rintro (_ | _ | _ | ⟨hInteger, hFloat, hTrue, hFalse⟩)
    exact ⟨rfl, hInteger, hFloat, hTrue, hFalse⟩
  · rintro ⟨rfl, hInteger, hFloat, hTrue, hFalse⟩
    exact .text hInteger hFloat hTrue hFalse

theorem exists_integer_iff : (∃ n, ofAtom token = .integer n) ↔ IsInteger token := by
  simp only [ofAtom_eq_integer_iff, isInteger_iff, integer?_inRange_iff]

theorem exists_float_iff : (∃ x, ofAtom token = .float x) ↔ IsFloat token := by
  simp only [ofAtom_eq_float_iff]
  constructor
  · rintro ⟨x, hFloat, -⟩
    exact hFloat
  · intro hFloat
    obtain ⟨x, hRead⟩ := exists_reads hFloat
    exact ⟨x, hFloat, hRead⟩

/-- A whole number beyond the range of integers is read as the float nearest to it. -/
theorem ofAtom_beyond_range (hNumber : token.toList ∈ wholeNumber.matches')
    (hNotInteger : ¬IsInteger token) :
    ∃ m : Magnitude, m.Nearest (wholeValue token.toList).natAbs ∧
      ofAtom token = .float (.signed (isNegative token.toList) m) := by
  have hDecimal := decimalNumber_of_wholeNumber hNumber
  have hNearest := (magnitude token.toList).nearest_toMagnitude
  refine ⟨_, value_wholeNumber hNumber ▸ hNearest, ?_⟩
  exact ofAtom_eq_float_iff.2 ⟨⟨hNotInteger, .inr hDecimal⟩, .number hDecimal hNearest⟩

/-- The class of every token by the grammar: the integers, the floats with the number that each is
read as, the truth values, and all else. A whole number that is too large for an integer is the
float nearest to it. -/
theorem atoms_classify (token : String) :
    (∀ n, ofAtom token = .integer n ↔
      token.toList ∈ wholeNumber.matches' ∧ wholeValue token.toList = n.toInt) ∧
    ((∃ n, ofAtom token = .integer n) ↔ IsInteger token) ∧
    (∀ x, ofAtom token = .float x ↔ IsFloat token ∧ Reads token.toList x) ∧
    ((∃ x, ofAtom token = .float x) ↔ IsFloat token) ∧
    (token.toList ∈ wholeNumber.matches' → ¬IsInteger token →
      ∃ m : Magnitude, m.Nearest (wholeValue token.toList).natAbs ∧
        ofAtom token = .float (.signed (isNegative token.toList) m)) ∧
    (∀ truth, ofAtom token = .boolean truth ↔ token = if truth then "#t" else "#f") ∧
    (∀ t, ofAtom token = .text t ↔
      t = token ∧ ¬IsInteger token ∧ ¬IsFloat token ∧ token ≠ "#t" ∧ token ≠ "#f") ∧
    ∀ word ∈ ["nan", "infinity", "+inf", "-NaN", "-", ".", "1+", "1e", "e5"], ofAtom word =
      .text word := by
  refine ⟨fun _ => ofAtom_eq_integer_iff, exists_integer_iff, fun _ => ofAtom_eq_float_iff,
    exists_float_iff,
    ofAtom_beyond_range, fun _ => ofAtom_eq_boolean_iff, fun _ => ofAtom_eq_text_iff, ?_⟩
  intro word hWord
  simp only [List.mem_cons, List.not_mem_nil, or_false] at hWord
  rcases hWord with rfl | rfl | rfl | rfl | rfl | rfl | rfl | rfl | rfl <;> rfl

end

end Expression

end EmbeddedLisp
