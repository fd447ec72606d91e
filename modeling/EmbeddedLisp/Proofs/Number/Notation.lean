import EmbeddedLisp.Number.Decimal.Notation
import EmbeddedLisp.Number.Fixnum
import EmbeddedLisp.Proofs.Number.Rounding
import Mathlib.Data.List.TakeDrop

/-! What is written of a number is read back as the number: decimal digits, with a sign and with a
point for a float. A text with a point is no whole number, so a float is not read as an integer. -/
namespace EmbeddedLisp

namespace Decimal

theorem isDigit_of_mem_toDigits {n : Nat} {c : Char} (hMem : c ∈ Nat.toDigits 10 n) : c.isDigit :=
  Nat.isDigit_of_mem_toDigits (by decide) (by decide) hMem

/-- The sign in front of a digit is taken off, and only that. -/
theorem splitSign_signed (negative : Bool) {c : Char} (hDigit : c.isDigit) (rest : List Char) :
    splitSign ((if negative then ['-'] else []) ++ c :: rest) = (negative, c :: rest) := by
  cases negative with
  | true => rfl
  | false =>
    show splitSign (c :: rest) = (false, c :: rest)
    unfold splitSign
    split
    · rename_i hText
      cases hText
      cases hDigit
    · rename_i hText
      cases hText
      cases hDigit
    · rfl

/-- The digits of a natural number are read as that number. -/
theorem natural?_toDigits (n : Nat) : natural? (Nat.toDigits 10 n) = some n := by
  have hDigits : (Nat.toDigits 10 n).all Char.isDigit :=
    List.all_eq_true.2 fun _ hMem => isDigit_of_mem_toDigits hMem
  rw [natural?, if_pos ⟨Nat.toDigits_ne_nil, hDigits⟩, ofDigits, Nat.ofDigitChars_ten_toDigits]

theorem natural?_eq_none {text : List Char} {c : Char} (hMem : c ∈ text)
    (hDigit : c.isDigit = false) :
    natural? text = none := by
  refine if_neg fun hNatural => ?_
  rw [List.all_eq_true.1 hNatural.2 c hMem] at hDigit
  cases hDigit

theorem span_isDigit {digits rest : List Char} (hDigits : ∀ c ∈ digits, c.isDigit)
    (hRest : rest.takeWhile Char.isDigit = []) :
    (digits ++ rest).span Char.isDigit = (digits, rest) := by
  have hKept : rest.dropWhile Char.isDigit = rest := by
    simpa [hRest] using List.takeWhile_append_dropWhile (p := Char.isDigit) (l := rest)
  rw [List.span_eq_takeWhile_dropWhile, List.takeWhile_append_of_pos hDigits,
    List.dropWhile_append_of_pos hDigits, hRest, List.append_nil, hKept]

/-- A whole number is read from what stands behind its sign. -/
theorem integer?_of_splitSign {text rest : List Char} {negative : Bool}
    (hSplit : splitSign text = (negative, rest)) :
    integer? text = (natural? rest).map fun n : Nat => (if negative then -n else n : Int) := by
  rw [integer?, hSplit]
  dsimp only
  cases natural? rest <;> rfl

/-- The digits before and after a point are those of the significand. -/
theorem unsigned?_point {whole fraction : List Char} (hWhole : whole ≠ [])
    (hDigits : ∀ c ∈ whole ++ fraction, c.isDigit) :
    unsigned? (whole ++ '.' :: fraction) =
      some ⟨ofDigits (whole ++ fraction), -(fraction.length : Int)⟩ := by
  have hBefore : (whole ++ '.' :: fraction).span Char.isDigit = (whole, '.' :: fraction) :=
    span_isDigit (fun c hMem => hDigits c (List.mem_append_left _ hMem)) rfl
  have hAfter : (fraction ++ []).span Char.isDigit = (fraction, []) :=
    span_isDigit (fun c hMem => hDigits c (List.mem_append_right whole hMem)) rfl
  rw [List.append_nil] at hAfter
  have hFraction : splitFraction ('.' :: fraction) = (fraction, []) := hAfter
  have hSome : ¬(whole = [] ∧ fraction = []) := fun hNone => hWhole hNone.1
  simp only [unsigned?, hBefore, hFraction, if_neg hSome]
  simp [exponent?]

theorem ofDigits_append_zeros (n zeros : Nat) :
    ofDigits (Nat.toDigits 10 n ++ List.replicate zeros '0') = n * 10 ^ zeros := by
  rw [ofDigits, Nat.ofDigitChars_append, Nat.ofDigitChars_replicate_zero,
    Nat.ofDigitChars_ten_toDigits, Nat.mul_comm]

theorem ofDigits_zeros_append (n zeros : Nat) :
    ofDigits (List.replicate zeros '0' ++ Nat.toDigits 10 n) = n := by
  rw [ofDigits, Nat.ofDigitChars_append, Nat.ofDigitChars_replicate_zero, Nat.mul_zero,
    Nat.ofDigitChars_ten_toDigits]

/-- The positional text of a number has a digit before a point, and the value of the number. -/
theorem exists_positional (d : Decimal) :
    ∃ whole fraction, d.positional = whole ++ '.' :: fraction ∧ whole ≠ [] ∧
      (∀ c ∈ whole ++ fraction, c.isDigit) ∧
      toMagnitude ⟨ofDigits (whole ++ fraction), -(fraction.length : Int)⟩ = d.toMagnitude := by
  have hZeros {n zeros : Nat} {c : Char} (hMem : c ∈ List.replicate zeros '0' ∨
    c ∈ Nat.toDigits 10 n) :
      c.isDigit := by
    rcases hMem with hMem | hMem
    · rw [(List.mem_replicate.1 hMem).2]
      rfl
    · exact isDigit_of_mem_toDigits hMem
  have hDigits : 0 < (Nat.toDigits 10 d.significand).length := Nat.length_toDigits_pos
  unfold positional
  split
  · rename_i hExponent
    refine ⟨Nat.toDigits 10 d.significand ++ List.replicate d.exponent.toNat '0', ['0'],
      rfl, ?_, ?_, ?_⟩
    · exact List.append_ne_nil_of_left_ne_nil Nat.toDigits_ne_nil _
    · intro c hMem
      rw [List.append_assoc, ← List.replicate_succ', List.mem_append] at hMem
      exact hZeros hMem.symm
    · rw [List.append_assoc, ← List.replicate_succ', ofDigits_append_zeros,
        ← toMagnitude_shift d.significand (d.exponent.toNat + 1) d.exponent]
      congr 2
      simp only [List.length_singleton]
      omega
  · rename_i hExponent
    let padded :=
      List.replicate (d.exponent.natAbs + 1 - (Nat.toDigits 10 d.significand).length) '0' ++
      Nat.toDigits 10 d.significand
    have hLength : d.exponent.natAbs < padded.length := by
      simp only [padded, List.length_append, List.length_replicate]
      omega
    refine ⟨padded.take (padded.length - d.exponent.natAbs),
      padded.drop (padded.length - d.exponent.natAbs), rfl, ?_, ?_, ?_⟩
    · apply List.ne_nil_of_length_pos
      rw [List.length_take]
      omega
    · rw [List.take_append_drop]
      intro c hMem
      exact hZeros (List.mem_append.1 hMem)
    · rw [List.take_append_drop, ofDigits_zeros_append, List.length_drop]
      congr 2
      omega

end Decimal

namespace Fixnum

/-- An integer is written as its sign, if it is negative, and its digits. -/
theorem toList_render (a : Fixnum) :
    a.render.toList =
      (if decide (a.toInt < 0) then ['-'] else []) ++ Nat.toDigits 10 a.toInt.natAbs := by
  rw [render, String.toList_ofList]
  by_cases hNegative : a.toInt < 0 <;> simp [hNegative]

/-- An integer is read back as the same integer. -/
theorem integer?_render (a : Fixnum) : Decimal.integer? a.render.toList = some a.toInt := by
  obtain ⟨c, rest, hDigits⟩ := List.exists_cons_of_ne_nil (@Nat.toDigits_ne_nil a.toInt.natAbs 10)
  have hDigit : c.isDigit := Decimal.isDigit_of_mem_toDigits (hDigits ▸ List.mem_cons_self)
  have hSplit : Decimal.splitSign a.render.toList =
      (decide (a.toInt < 0), Nat.toDigits 10 a.toInt.natAbs) := by
    rw [toList_render, hDigits, Decimal.splitSign_signed _ hDigit]
  rw [Decimal.integer?_of_splitSign hSplit, Decimal.natural?_toDigits, Option.map_some]
  simp only [decide_eq_true_eq]
  split <;> congr 1 <;> omega

end Fixnum

namespace Binary64

/-- A finite float is written as its sign and the notation of the shortest decimal it is nearest
to. -/
theorem toList_render_signed (negative : Bool) {m : Magnitude} (hFinite : m.isInfinite = false) :
    (render (.signed negative m)).toList =
      (if negative then ['-'] else []) ++ (Decimal.shortest m).positional := by
  simp [render, writeWith, hFinite]

/-- A finite float is read back as the same float, with its sign, and is not read as an integer. -/
theorem ofText?_render (negative : Bool) {m : Magnitude} (hFinite : m.isInfinite = false) :
    Decimal.integer? (render (.signed negative m)).toList = none ∧
      ofText? (render (.signed negative m)).toList = some (.signed negative m) := by
  obtain ⟨whole, fraction, hText, hWhole, hDigits, hValue⟩ := (Decimal.shortest m).exists_positional
  obtain ⟨c, rest, hFirst⟩ := List.exists_cons_of_ne_nil hWhole
  have hDigit : c.isDigit := hDigits c (by simp [hFirst])
  have hSplit : Decimal.splitSign (render (.signed negative m)).toList =
      (negative, whole ++ '.' :: fraction) := by
    rw [toList_render_signed negative hFinite, hText, hFirst]
    exact Decimal.splitSign_signed negative hDigit _
  constructor
  · have hPoint : '.' ∈ whole ++ '.' :: fraction := by simp
    rw [Decimal.integer?_of_splitSign hSplit, Decimal.natural?_eq_none hPoint rfl, Option.map_none]
  · rw [ofText?, hSplit]
    simp only [Decimal.unsigned?_point hWhole hDigits, Option.map_some, hValue,
      Decimal.toMagnitude_shortest]

end Binary64

end EmbeddedLisp
