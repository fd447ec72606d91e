import EmbeddedLisp.Proofs.Reader.Calls
import EmbeddedLisp.Text.Occurrence

/-! The context that a syntax error gives. It shows the tokens around the place of the error, cut
off after a number of characters, and then marks are put around it. So the marks come on top of that
number, and the token that was found is only there if the tokens before it leave room. -/
namespace EmbeddedLisp

theorem occursIn_of_infix {part before after : List Char} :
    occursIn part (before ++ part ++ after) := by
  induction before with
  | nil =>
    match part, after with
    | [], [] => rfl
    | [], _ :: _ => rfl
    | c :: part, after =>
      have hHere : List.isPrefixOf (c :: part) (c :: (part ++ after)) := by simp
      simp only [List.nil_append, List.cons_append, occursIn, hHere, Bool.true_or]
  | cons c before ih => simp only [List.cons_append, occursIn, ih, Bool.or_true]

namespace SyntaxError

/-- The mark for tokens that are left out in front. -/
def openingMark (before : List String) : String := if reach < before.length then "[...] " else ""

/-- The mark for tokens that are left out at the end. -/
def closingMark (after : List String) : String := if reach < after.length then " [...]" else ""

/-- The text of the tokens that are near a place. -/
def near (before after : List String) : String :=
  " ".intercalate (before.drop (before.length - reach) ++ after.take reach)

/-- As much of it as is shown. -/
def excerpt (before after : List String) : String :=
  String.ofList ((near before after).toList.take snippetLength)

/-- What is shown of the place between some tokens. -/
def around (before after : List String) : String :=
  openingMark before ++ excerpt before after ++ closingMark after

/-- The text of the near tokens before a place, up to a token behind it. -/
def lead (before : List String) : List Char :=
  (before.drop (before.length - reach)).flatMap fun t => t.toList ++ [' ']

variable {before after : List String} {t : String}

/-- The context of a place is what stands around it. -/
theorem snippet_append (before after : List String) :
    snippet (before ++ after) before.length = around before after := by
  have hStart : 0 < before.length - reach ↔ reach < before.length := Nat.sub_pos_iff_lt
  have hStop : min (before.length + reach) (before ++ after).length =
      before.length + min reach after.length := by
    rw [List.length_append]
    omega
  have hEnd : before.length + min reach after.length < (before ++ after).length ↔
      reach < after.length := by
    rw [List.length_append]
    omega
  have hShown : ((before ++ after).take (before.length + min reach after.length)).drop
    (before.length - reach) =
      before.drop (before.length - reach) ++ after.take reach := by
    rw [List.take_length_add_append, ← List.take_take, List.take_length,
      List.drop_append_of_le_length (Nat.sub_le _ _)]
  simp only [snippet, hStop, hShown, hStart, hEnd]
  rfl

/-- Tokens in front of others, each with a blank behind it. -/
theorem toList_intercalate_append (ts : List String) (t : String) (rest : List String) :
    (" ".intercalate (ts ++ t :: rest)).toList =
      (ts.flatMap fun t => t.toList ++ [' ']) ++ (" ".intercalate (t :: rest)).toList := by
  induction ts with
  | nil => rfl
  | cons first ts ih =>
    rw [List.cons_append, String.intercalate_cons_of_ne_nil (by simp), String.toList_append,
      String.toList_append, ih, List.flatMap_cons]
    simp only [List.append_assoc]
    rfl

theorem exists_near_cons (before after : List String) (t : String) :
    ∃ behind, (near before (t :: after)).toList = lead before ++ (t.toList ++ behind) := by
  have hSplit : (near before (t :: after)).toList =
      lead before ++ (" ".intercalate (t :: after.take 4)).toList :=
    toList_intercalate_append _ t _
  cases hRest : after.take 4 with
  | nil => exact ⟨[], by rw [hSplit, hRest, String.intercalate_singleton, List.append_nil]⟩
  | cons next rest =>
    refine ⟨(" " ++ " ".intercalate (next :: rest)).toList, ?_⟩
    rw [hSplit, hRest, String.intercalate_cons_cons, String.append_assoc, String.toList_append]

/-- The text up to the end of a token is shown if it is not too long for what is shown at all. -/
theorem prefix_excerpt_iff (before after : List String) (t : String) :
    lead before ++ t.toList <+: (excerpt before (t :: after)).toList ↔
      (lead before).length + t.length ≤ snippetLength := by
  obtain ⟨behind, hNear⟩ := exists_near_cons before after t
  rw [excerpt, String.toList_ofList, hNear, ← List.append_assoc, List.prefix_take_iff,
    List.length_append, String.length_toList]
  exact and_iff_right (List.prefix_append _ _)

theorem occursIn_around {after : List String}
    (hRoom : (lead before).length + t.length ≤ snippetLength) :
    occursIn t.toList (around before (t :: after)).toList := by
  obtain ⟨behind, hShown⟩ := (prefix_excerpt_iff before after t).2 hRoom
  have hText : (around before (t :: after)).toList =
      ((openingMark before).toList ++ lead before) ++ t.toList ++
      (behind ++ (closingMark (t :: after)).toList) := by
    rw [around, String.toList_append, String.toList_append, ← hShown]
    simp only [List.append_assoc]
  rw [hText]
  exact occursIn_of_infix

theorem length_openingMark (before : List String) :
    (openingMark before).length = if reach < before.length then 6 else 0 := by
  rw [openingMark]
  split <;> rfl

theorem length_closingMark (after : List String) :
    (closingMark after).length = if reach < after.length then 6 else 0 := by
  rw [closingMark]
  split <;> rfl

theorem length_around (before after : List String) :
    (around before after).length = (openingMark before).length + min snippetLength
      (near before after).length + (closingMark after).length := by
  rw [around, String.length_append, String.length_append, excerpt, String.length_ofList,
    List.length_take, String.length_toList]

/-- The marks may take a context beyond the limit, by twelve characters at most. -/
theorem length_around_le (before after : List String) :
    (around before after).length ≤ snippetLength + 12 := by
  rw [length_around, length_openingMark, length_closingMark]
  split <;> split <;> omega

theorem length_around_le_iff (before after : List String) :
    (around before after).length ≤ snippetLength ↔
      before.length ≤ reach ∧ after.length ≤ reach ∨
        (openingMark before).length + (near before after).length + (closingMark after).length ≤
          snippetLength := by
  rw [length_around, length_openingMark, length_closingMark]
  split <;> split <;> omega

end SyntaxError

namespace Reader

open EmbeddedLisp.Derivation SyntaxError

variable {options : Options} {text : String} {p : SyntaxError}

theorem report_eq (options : Options) (failure : Failure) {before after : List Token}
    (hTokens : Token.scan options.comments text = before ++ after) :
    report options text failure after = ⟨failure.kind, failure.message,
      some (around (before.map Token.text) (after.map Token.text)),
        (after.map Token.text).head?⟩ := by
  have hPosition : (before ++ after).length - after.length = (before.map Token.text).length := by
    rw [List.length_append, List.length_map, Nat.add_sub_cancel]
  rw [report, errorAt, position, placed, hTokens, hPosition, List.map_append, snippet_append,
    List.head?_eq_getElem?, List.getElem?_append_right (Nat.le_refl _), Nat.sub_self]

/-- Every error of a text is a report of the place where its tokens could not be read on. -/
theorem exists_report
    (hFails : parse options text = .error p ∨ parseProgram options text = .error p) :
    ∃ failure rest, rest <:+ Token.scan options.comments text ∧
      p = report options text failure rest := by
  rcases hFails with hForm | hProgram
  · cases hRead : readForm options.maxNesting [] (Token.scan options.comments text) with
    | error failed =>
      rw [parse_of_error hRead] at hForm
      cases hForm
      exact ⟨failed.1, failed.2, readForm_error_suffix hRead, rfl⟩
    | ok result =>
      obtain ⟨e, rest⟩ := result
      cases rest with
      | nil =>
        rw [parse_eq_ok_iff_readForm.2 hRead] at hForm
        cases hForm
      | cons t rest =>
        rw [parse_of_trailing hRead] at hForm
        cases hForm
        obtain ⟨d, hTokens, -⟩ := readForm_eq_ok_iff.1 hRead
        exact ⟨.trailing, t :: rest, ⟨d.tokens, hTokens.symm⟩, rfl⟩
  · let start := ofText options text
    obtain ⟨ds, rest, hTokens, hWithin, hHalts⟩ := exists_derivations start.maxNesting start.rest
    rw [parseProgram, items_of_derivations ds hTokens hWithin] at hProgram
    rcases hHalts with rfl | ⟨failure, stopped, hSome, hRead⟩
    · rw [items_of_none (next?_of_nil rfl)] at hProgram
      cases (mapM_itemsOf (formEach ds) none).symm.trans hProgram
    · rw [items_of_error hSome hRead] at hProgram
      cases (mapM_itemsOf (formEach ds) (some _)).symm.trans hProgram
      exact ⟨failure, stopped, (readForm_error_suffix hRead).trans ⟨_, hTokens.symm⟩, rfl⟩

/-- The context of a syntax error shows the tokens around the one that was found. It is within the
length that is shown of the tokens exactly if no mark is put around it, or if the tokens leave room
for the marks. With marks it may be longer, by what they take. The token that was found is shown,
behind the tokens before it, exactly if they leave room for it: of a token that begins within that
length but does not end within it the rest is cut off, and all of one that begins behind it. -/
theorem context_shows_place
    (hFails : parse options text = .error p ∨ parseProgram options text = .error p) :
    ∃ before after,
      (Token.scan options.comments text).map Token.text = before ++ after ∧
      p.found = after.head? ∧
      p.context = some (around before after) ∧
      (around before after).length ≤ snippetLength + 12 ∧
      ((around before after).length ≤ snippetLength ↔
        before.length ≤ reach ∧ after.length ≤ reach ∨
          (openingMark before).length + (near before after).length + (closingMark after).length ≤
            snippetLength) ∧
      ∀ t, p.found = some t →
        (lead before ++ t.toList <+: (excerpt before after).toList ↔
          (lead before).length + t.length ≤ snippetLength) ∧
        ((lead before).length + t.length ≤ snippetLength →
          occursIn t.toList (around before after).toList) := by
  obtain ⟨failure, rest, ⟨before, hTokens⟩, rfl⟩ := exists_report hFails
  have hReport := report_eq options failure hTokens.symm
  refine ⟨before.map Token.text, rest.map Token.text, by rw [← hTokens, List.map_append], ?_, ?_,
    length_around_le _ _, length_around_le_iff _ _, fun t hFound => ?_⟩
  · rw [hReport]
  · rw [hReport]
  · rw [hReport] at hFound
    obtain ⟨after, hAfter⟩ := List.head?_eq_some_iff.1 hFound
    rw [hAfter]
    exact ⟨prefix_excerpt_iff _ _ _, occursIn_around⟩

/-- A mark in front, and room for the token. -/
theorem context_shows_place_closing :
    ∃ p, parse {} "(+ 1 (f x)) ) )" = .error p ∧ p.found = some ")" ∧
      p.context = some "[...] ( f x ) ) ) )" ∧
      ∃ before after,
        (Token.scan false "(+ 1 (f x)) ) )").map Token.text = before ++ after ∧
          p.found = after.head? ∧
        p.context = some (around before after) ∧
          (around before after).length ≤ snippetLength + 12 := by
  obtain ⟨p, hParse, hFound, hContext⟩ : ∃ p, parse {} "(+ 1 (f x)) ) )" = .error p ∧
    p.found = some ")" ∧
      p.context = some "[...] ( f x ) ) ) )" := ⟨_, by rfl, rfl, rfl⟩
  obtain ⟨before, after, hTokens, hPlace, hAround, hLength, -⟩ := context_shows_place (.inl hParse)
  exact ⟨p, hParse, hFound, hContext, before, after, hTokens, hPlace, hAround, hLength⟩

/-- A long token in front of the one that was found. The context is longer than what is shown of the
tokens, and the token that was found is cut off. -/
theorem context_cut_off :
    let word : Nat → String := fun n => String.ofList (List.replicate n 'd')
    let text := "(a b c " ++ word 100 ++ ") )"
    let context := "[...] a b c " ++ word 94
    parse {} text =
        .error ⟨.trailingContent, "Unexpected remaining input after expression",
        some context, some ")"⟩ ∧
      context.length = 106 ∧ occursIn ")".toList context.toList = false := by
  intro word text context
  have hTokens : Token.scan ({} : Options).comments text =
      [.opening, .atom "a", .atom "b", .atom "c", .atom (word 100), .closing] ++ [.closing] := by
      decide +kernel
  have hParse : parse {} text = .error (report {} text .trailing [.closing]) :=
    parse_of_trailing (e := .list [.ofAtom "a", .ofAtom "b", .ofAtom "c", .ofAtom (word 100)])
      (by rw [hTokens]; rfl)
  have hAround : around ["(", "a", "b", "c", word 100, ")"] [")"] = context := by decide +kernel
  have hReport : report {} text .trailing [.closing] =
      ⟨.trailingContent, "Unexpected remaining input after expression", some context,
      some ")"⟩ := by
    rw [report_eq {} .trailing hTokens, ← hAround]
    rfl
  exact ⟨hReport ▸ hParse, by decide +kernel, by decide +kernel⟩

end Reader

end EmbeddedLisp
