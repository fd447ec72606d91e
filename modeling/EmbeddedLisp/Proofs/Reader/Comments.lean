import EmbeddedLisp.Proofs.Reader.Tokenization
import EmbeddedLisp.Reader

/-! Comments can be taken out of a text beforehand. What is left has the same tokens, as the end of
the line that a comment goes up to stays where it is and keeps apart what stood around the comment.
So a text with comments is read as the text without them, and faults are reported in the same
words. -/
namespace EmbeddedLisp

open Combinators (isLineEnd)
open Token (roleOf scanFrom finish Breaks)

/-- Characters without comments. A comment is a semicolon and all that follows it, up to the end of
its line. -/
def stripComments : List Char → List Char
  | [] => []
  | a :: rest =>
    if a = ';' then stripComments (rest.dropWhile fun b => !isLineEnd b)
      else a :: stripComments rest
termination_by cs => cs.length
decreasing_by
  · exact Nat.lt_succ_of_le (List.dropWhile_suffix _).length_le
  · exact Nat.lt_succ_self _

def withoutComments (text : String) : String := String.ofList (stripComments text.toList)

theorem roleOf_of_ne_semicolon {a : Char} (hOther : a ≠ ';') : roleOf true a = roleOf false a := by
  simp [roleOf, hOther]

/-- The rest of a line that a comment was taken from ends the atom before it. -/
theorem breaks_stripComments (cs : List Char) :
    Breaks false (stripComments (cs.dropWhile fun b => !isLineEnd b)) := by
  have hStops := List.head?_dropWhile_not (fun b => !isLineEnd b) cs
  generalize (cs.dropWhile fun b => !isLineEnd b) = left at hStops ⊢
  cases left with
  | nil => simp [stripComments, Breaks]
  | cons b rest =>
    have hEnd : b = '\n' ∨ b = '\r' :=
      Decidable.or_iff_not_imp_left.2 (by simpa [isLineEnd] using hStops)
    have hOther : b ≠ ';' := by rcases hEnd with rfl | rfl <;> decide
    rw [stripComments, if_neg hOther]
    intro a hHead
    cases hHead
    rcases hEnd with rfl | rfl <;> decide

theorem scanFrom_stripComments (reversed cs : List Char) :
    scanFrom true (.word reversed) cs = scanFrom false (.word reversed) (stripComments cs) := by
  fun_induction stripComments cs generalizing reversed with
  | case1 => rfl
  | case2 rest ih =>
    calc scanFrom true (.word reversed) (';' :: rest)
      _ = finish reversed (scanFrom true .comment rest) := rfl
      _ = finish reversed (scanFrom true (.word []) (rest.dropWhile fun b => !isLineEnd b)) := by
        rw [Combinators.scanFrom_dropComment]
      _ = finish reversed
            (scanFrom false (.word []) (stripComments (rest.dropWhile fun b => !isLineEnd b))) := by
        rw [ih]
      _ = _ := (Token.scanFrom_of_breaks (breaks_stripComments rest) reversed).symm
  | case3 a rest hOther ih =>
    rw [scanFrom, scanFrom, roleOf_of_ne_semicolon hOther]
    cases hRole : roleOf false a with
    | blank | opening | closing | ordinary => simp only [ih]
    | comment => exact absurd (Token.roleOf_comment_iff.1 hRole).1 (by decide)

theorem scan_withoutComments (text : String) :
    Token.scan true text = Token.scan false (withoutComments text) := by
  rw [Token.scan, Token.scan, withoutComments, String.toList_ofList]
  exact scanFrom_stripComments [] text.toList

/-- A reader of a text with comments stands before the same tokens as one of the text without
them. -/
theorem ofText_withoutComments (maxNesting : Option Nat) (text : String) :
    Reader.ofText ⟨true, maxNesting⟩ text = Reader.ofText ⟨false, maxNesting⟩
      (withoutComments text) := by
  simp only [Reader.ofText, scan_withoutComments]

/-- A text with comments is taken apart into the same tokens as the text that is left when they are
taken out of it, and it is read in the same way, as one form and as a program, with the same forms
or the same error. -/
theorem comments_are_stripped {c : Combinators} (h : c.Documented) (text : String) :
    c.tokenize true text = c.tokenize false (withoutComments text) ∧
    Token.scan true text = Token.scan false (withoutComments text) ∧
    ∀ maxNesting,
      Reader.parse ⟨true, maxNesting⟩ text =
        Reader.parse ⟨false, maxNesting⟩ (withoutComments text) ∧
      Reader.parseProgram ⟨true, maxNesting⟩ text =
        Reader.parseProgram ⟨false, maxNesting⟩ (withoutComments text) := by
  refine ⟨?_, scan_withoutComments text, fun maxNesting => ⟨?_, ?_⟩⟩
  · rw [h.tokenize_eq_scan, h.tokenize_eq_scan, scan_withoutComments]
  · rw [Reader.parse, Reader.parse, ofText_withoutComments]
  · rw [Reader.parseProgram, Reader.parseProgram, ofText_withoutComments]

/-- A comment ends the atom that it stands behind, also where it ends with a carriage return, and
one at the end of the text may swallow the parenthesis that is missing. -/
theorem comments_are_stripped_glued :
    Combinators.plain.Documented ∧ withoutComments "(a;b ;c)\rd ;)" = "(a\rd " ∧
      Combinators.plain.tokenize true "(a;b ;c)\rd ;)" = Combinators.plain.tokenize false "(a\rd " ∧
      Reader.parse ⟨true, some 1⟩ "(a;b ;c)\rd ;)" = Reader.parse ⟨false, some 1⟩ "(a\rd " := by
  obtain ⟨hTokens, -, hRead⟩ :=
    comments_are_stripped Combinators.plain_documented "(a;b ;c)\rd ;)"
  have hText : withoutComments "(a;b ;c)\rd ;)" = "(a\rd " := by
    simp [withoutComments, stripComments, isLineEnd]
  rw [hText] at hTokens hRead
  exact ⟨Combinators.plain_documented, hText, hTokens, (hRead (some 1)).1⟩

end EmbeddedLisp
