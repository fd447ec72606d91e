import EmbeddedLisp.Proofs.Reader.Layout
import EmbeddedLisp.Reader.Combinators

/-! A library of scanners that does what its documentation says takes every text apart, into the
tokens of a scan. What is skipped before the end of the text is skipped once more, since the last
attempt at a token gives it back, and a repetition never meets a scanner that takes nothing, on
which it would fail. -/
namespace EmbeddedLisp

variable {α β : Type}

namespace Scanner

/-- Whether a scanner has nothing to take, so that another one may be tried. -/
def Refuses (s : Scanner α) (cs : List Char) : Prop := ∃ rest, s cs = .error (.error rest)

end Scanner

namespace Combinators

/-- What the documentation of a library says. -/
structure Documented (c : Combinators) : Prop where
  tag_append : ∀ text rest, c.tag text (text.toList ++ rest) = .ok (text, rest)
  tag_refuses : ∀ {text cs}, ¬text.toList <+: cs → (c.tag text).Refuses cs
  char_cons : ∀ a rest, c.char a (a :: rest) = .ok (a, rest)
  char_refuses : ∀ {a cs}, cs.head? ≠ some a → (c.char a).Refuses cs
  /-- The longest front that matches, which may be empty. -/
  takeWhile : ∀ p cs, c.takeWhile p cs = .ok (String.ofList (cs.takeWhile p), cs.dropWhile p)
  /-- The longest front that matches, which may not be empty. -/
  takeWhile1 : ∀ {p cs}, cs.takeWhile p ≠ [] →
    c.takeWhile1 p cs = .ok (String.ofList (cs.takeWhile p), cs.dropWhile p)
  takeWhile1_refuses : ∀ {p cs}, cs.takeWhile p = [] → (c.takeWhile1 p).Refuses cs
  takeTill : ∀ p cs, c.takeTill p cs =
    .ok (String.ofList (cs.takeWhile fun a => !p a), cs.dropWhile fun a => !p a)
  /-- The scanners are tried one by one until one of them takes something. -/
  alt : ∀ {α : Type} {before after : List (Scanner α)} {s : Scanner α} {cs x rest},
    (∀ earlier ∈ before, earlier.Refuses cs) → s cs = .ok (x, rest) →
    c.alt (before ++ s :: after) cs = .ok (x, rest)
  alt_refuses : ∀ {α : Type} {choices : List (Scanner α)} {cs},
    (∀ s ∈ choices, s.Refuses cs) → Scanner.Refuses (c.alt choices) cs
  preceded : ∀ {α β : Type} {first : Scanner α} {second : Scanner β} {cs x behind},
    first cs = .ok (x, behind) → c.preceded first second cs = second behind
  preceded_error : ∀ {α β : Type} {first : Scanner α} {second : Scanner β} {cs halt},
    first cs = .error halt → c.preceded first second cs = .error halt
  terminated : ∀ {α β : Type} {first : Scanner α} {second : Scanner β} {cs x behind y rest},
    first cs = .ok (x, behind) → second behind = .ok (y, rest) →
    c.terminated first second cs = .ok (x, rest)
  terminated_error : ∀ {α β : Type} {first : Scanner α} {second : Scanner β} {cs halt},
    (first cs = .error halt ∨
      ∃ x behind, first cs = .ok (x, behind) ∧ second behind = .error halt) →
    c.terminated first second cs = .error halt
  value : ∀ {α β : Type} {s : Scanner α} {y : β} {cs x rest},
    s cs = .ok (x, rest) → c.value y s cs = .ok (y, rest)
  many0_stop : ∀ {α : Type} {s : Scanner α} {cs}, s.Refuses cs → c.many0 s cs = .ok ([], cs)
  many0_more : ∀ {α : Type} {s : Scanner α} {cs x behind xs rest}, s cs = .ok (x, behind) →
    behind.length < cs.length → c.many0 s behind = .ok (xs, rest) →
    c.many0 s cs = .ok (x :: xs, rest)
  /-- A scanner that takes nothing and does not refuse would be repeated for ever. -/
  many0_refuses : ∀ {α : Type} {s : Scanner α} {cs x}, s cs = .ok (x, cs) →
    Scanner.Refuses (c.many0 s) cs
  allConsuming : ∀ {α : Type} {s : Scanner α} {cs x}, s cs = .ok (x, []) →
    c.allConsuming s cs = .ok (x, [])
  allConsuming_refuses : ∀ {α : Type} {s : Scanner α} {cs x a rest}, s cs = .ok (x, a :: rest) →
    Scanner.Refuses (c.allConsuming s) cs

/-- Repeats a scanner as long as it takes something. -/
def repeatPlain (s : Scanner α) (cs : List Char) : Except Halt (List α × List Char) :=
  match s cs with
  | .error (.error _) => .ok ([], cs)
  | .error halt => .error halt
  | .ok (x, rest) =>
    if rest.length < cs.length then
      match repeatPlain s rest with
      | .ok (xs, behind) => .ok (x :: xs, behind)
      | .error halt => .error halt
    else .error (.error cs)
termination_by cs.length

/-- The first alternative that does not refuse decides. -/
def altPlain : List (Scanner α) → Scanner α
  | [], cs => .error (.error cs)
  | s :: later, cs =>
    match s cs with
    | .error (.error _) => altPlain later cs
    | outcome => outcome

/-- Combinators as plain recursions on the text. -/
def plain : Combinators where
  tag text cs :=
    if text.toList.isPrefixOf cs then .ok (text, cs.drop text.toList.length) else .error (.error cs)
  char a
    | [] => .error (.error [])
    | b :: rest => if b = a then .ok (a, rest) else .error (.error (b :: rest))
  takeWhile p cs := .ok (String.ofList (cs.takeWhile p), cs.dropWhile p)
  takeWhile1 p cs :=
    if cs.takeWhile p = [] then .error (.error cs)
    else .ok (String.ofList (cs.takeWhile p), cs.dropWhile p)
  takeTill p cs := .ok (String.ofList (cs.takeWhile fun a => !p a), cs.dropWhile fun a => !p a)
  alt := altPlain
  preceded first second cs :=
    match first cs with
    | .ok (_, behind) => second behind
    | .error halt => .error halt
  terminated first second cs :=
    match first cs with
    | .ok (x, behind) =>
      match second behind with
      | .ok (_, rest) => .ok (x, rest)
      | .error halt => .error halt
    | .error halt => .error halt
  value y s cs :=
    match s cs with
    | .ok (_, rest) => .ok (y, rest)
    | .error halt => .error halt
  many0 := repeatPlain
  allConsuming s cs :=
    match s cs with
    | .ok (x, []) => .ok (x, [])
    | .ok (_, rest) => .error (.error rest)
    | .error halt => .error halt

theorem altPlain_append {before : List (Scanner α)} {cs : List Char}
    (hRefuse : ∀ earlier ∈ before, earlier.Refuses cs) (after : List (Scanner α)) :
    altPlain (before ++ after) cs = altPlain after cs := by
  induction before with
  | nil => rfl
  | cons s before ih =>
    obtain ⟨⟨rest, hFirst⟩, hLater⟩ := List.forall_mem_cons.1 hRefuse
    rw [List.cons_append, altPlain, hFirst]
    exact ih hLater

/-- The plain combinators do what is documented. -/
theorem plain_documented : plain.Documented where
  tag_append text rest := by simp [plain]
  tag_refuses hNot := ⟨_, if_neg (mt List.isPrefixOf_iff_prefix.1 hNot)⟩
  char_cons a rest := if_pos rfl
  char_refuses := by
    intro a cs hOther
    cases cs with
    | nil => exact ⟨_, rfl⟩
    | cons b rest => exact ⟨_, if_neg fun hSame => hOther (congrArg some hSame)⟩
  takeWhile _ _ := rfl
  takeWhile1 hSome := if_neg hSome
  takeWhile1_refuses hNone := ⟨_, if_pos hNone⟩
  takeTill _ _ := rfl
  alt := by
    intro α before after s cs x rest hRefuse hTakes
    show altPlain (before ++ s :: after) cs = _
    rw [altPlain_append hRefuse, altPlain, hTakes]
  alt_refuses := by
    intro α choices cs hRefuse
    refine ⟨cs, ?_⟩
    show altPlain choices cs = _
    rw [← List.append_nil choices, altPlain_append hRefuse, altPlain]
  preceded hFirst := by simp only [plain, hFirst]
  preceded_error hFirst := by simp only [plain, hFirst]
  terminated hFirst hSecond := by simp only [plain, hFirst, hSecond]
  terminated_error := by
    rintro α β first second cs halt (hFirst | ⟨x, behind, hFirst, hSecond⟩)
    · simp only [plain, hFirst]
    · simp only [plain, hFirst, hSecond]
  value hTakes := by simp only [plain, hTakes]
  many0_stop := by
    rintro α s cs ⟨rest, hRefuses⟩
    show repeatPlain s cs = _
    rw [repeatPlain, hRefuses]
  many0_more := by
    intro α s cs x behind xs rest hTakes hShorter hLater
    have hBehind : repeatPlain s behind = .ok (xs, rest) := hLater
    show repeatPlain s cs = _
    rw [repeatPlain, hTakes]
    simp only [hShorter, if_true, hBehind]
  many0_refuses := by
    intro α s cs x hTakes
    refine ⟨cs, ?_⟩
    show repeatPlain s cs = _
    rw [repeatPlain, hTakes]
    exact if_neg (Nat.lt_irrefl _)
  allConsuming hTakes := by simp only [plain, hTakes]
  allConsuming_refuses := by
    intro α s cs x a rest hTakes
    exact ⟨a :: rest, by simp only [plain, hTakes]⟩

open Token (scanFrom roleOf Front Layout)

/-- What is left behind blanks and comments. It has the same tokens, and begins with one unless it
is empty. -/
structure Skipped (comments : Bool) (cs rest : List Char) : Prop where
  length_le : rest.length ≤ cs.length
  scan : scanFrom comments (.word []) cs = scanFrom comments (.word []) rest
  start : ∀ a ∈ rest.head?, roleOf comments a ≠ .blank ∧ roleOf comments a ≠ .comment

/-- Blanks and comments that are dropped at the front have been skipped along with the rest. -/
theorem Skipped.behind {comments : Bool} {cs behind rest : List Char}
    (hShorter : behind.length < cs.length)
    (hScan : scanFrom comments (.word []) cs = scanFrom comments (.word []) behind)
    (hSkipped : Skipped comments behind rest) : Skipped comments cs rest where
  length_le := Nat.le_trans hSkipped.length_le (Nat.le_of_lt hShorter)
  scan := hScan.trans hSkipped.scan
  start := hSkipped.start

/-- Blanks at the front leave no token. -/
theorem scanFrom_dropBlanks (comments : Bool) (cs : List Char) :
    scanFrom comments (.word []) cs = scanFrom comments (.word []) (cs.dropWhile isBlank) := by
  obtain ⟨gap, hSplit, hGap, -⟩ := Token.exists_gap cs
  exact (congrArg _ hSplit).trans (Token.scanFrom_blanks hGap _)

/-- A comment leaves no token. -/
theorem scanFrom_dropComment (cs : List Char) :
    scanFrom true .comment cs = scanFrom true (.word []) (cs.dropWhile fun a => !isLineEnd a) := by
  induction cs with
  | nil => rfl
  | cons a cs ih =>
    rw [scanFrom, List.dropWhile_cons]
    by_cases hEnd : a = '\n' ∨ a = '\r'
    · have hBlank : isBlank a := by rcases hEnd with rfl | rfl <;> decide
      have hStops : isLineEnd a := by simpa [isLineEnd] using hEnd
      rw [if_pos hEnd, hStops]
      exact (Token.scanFrom_blanks (fun b hMem => List.mem_singleton.1 hMem ▸ hBlank) cs).symm
    · have hGoesOn : isLineEnd a = false := by simpa [isLineEnd] using hEnd
      rw [if_neg hEnd, hGoesOn, ih]
      rfl

theorem isAtomCharacter_iff {comments : Bool} {a : Char} :
    isAtomCharacter comments a ↔ roleOf comments a = .ordinary := by
  rw [Token.roleOf_ordinary_iff]
  simp [isAtomCharacter, and_assoc]

theorem split_rest {comments : Bool} {rest : List Char} (hBreaks : Token.Breaks comments rest) :
    rest.takeWhile (isAtomCharacter comments) = [] ∧
      rest.dropWhile (isAtomCharacter comments) = rest := by
  cases rest with
  | nil => exact ⟨rfl, rfl⟩
  | cons a rest =>
    have hStops : ¬isAtomCharacter comments a := mt isAtomCharacter_iff.1 (hBreaks a rfl)
    exact ⟨List.takeWhile_cons_of_neg hStops, List.dropWhile_cons_of_neg hStops⟩

namespace Documented

variable {c : Combinators} (h : c.Documented)

include h

theorem alt_first {s : Scanner α} {later : List (Scanner α)} {cs rest : List Char} {x : α}
    (hTakes : s cs = .ok (x, rest)) : c.alt (s :: later) cs = .ok (x, rest) := by
  have hNone : ∀ earlier ∈ ([] : List (Scanner α)), earlier.Refuses cs := nofun
  exact h.alt hNone hTakes

theorem comment_semicolon (cs : List Char) :
    ∃ x, c.comment (';' :: cs) = .ok (x, cs.dropWhile fun a => !isLineEnd a) :=
  ⟨_, (h.preceded (h.char_cons ';' cs)).trans (h.takeTill isLineEnd cs)⟩

/-- A comment begins with a semicolon. -/
theorem comment_refuses {cs : List Char} (hOther : cs.head? ≠ some ';') : c.comment.Refuses cs := by
  obtain ⟨rest, hRefuses⟩ := h.char_refuses hOther
  exact ⟨rest, h.preceded_error hRefuses⟩

theorem separator_refuses {cs : List Char} (hNoBlank : cs.takeWhile isBlank = [])
    (hOther : cs.head? ≠ some ';') : (c.alt [c.takeWhile1 isBlank, c.comment]).Refuses cs := by
  refine h.alt_refuses fun choice hMem => ?_
  rcases List.mem_cons.1 hMem with rfl | hMem
  · exact h.takeWhile1_refuses hNoBlank
  · exact List.mem_singleton.1 hMem ▸ h.comment_refuses hOther

/-- A comment or some blanks are skipped at a time. -/
theorem separator (cs : List Char) :
    let s := c.alt [c.takeWhile1 isBlank, c.comment]
    s.Refuses cs ∧ Skipped true cs cs ∨
      ∃ x behind, s cs = .ok (x, behind) ∧ behind.length < cs.length ∧
        ∀ rest, Skipped true behind rest → Skipped true cs rest := by
  intro s
  cases cs with
  | nil => exact .inl ⟨h.separator_refuses rfl nofun, Nat.le_refl _, rfl, nofun⟩
  | cons a cs =>
    by_cases hBlank : isBlank a
    · have hSome : (a :: cs).takeWhile isBlank ≠ [] := by
        rw [List.takeWhile_cons_of_pos hBlank]
        exact List.cons_ne_nil _ _
      have hShorter : ((a :: cs).dropWhile isBlank).length < (a :: cs).length := by
        rw [List.dropWhile_cons_of_pos hBlank]
        exact Nat.lt_succ_of_le (List.dropWhile_suffix _).length_le
      exact .inr ⟨_, _, h.alt_first (h.takeWhile1 hSome), hShorter,
        fun _ => .behind hShorter (scanFrom_dropBlanks true _)⟩
    have hNoBlank : (a :: cs).takeWhile isBlank = [] := List.takeWhile_cons_of_neg hBlank
    by_cases hComment : a = ';'
    · subst hComment
      obtain ⟨x, hTakes⟩ := h.comment_semicolon cs
      have hFirst : ∀ earlier ∈ [c.takeWhile1 isBlank], earlier.Refuses (';' :: cs) :=
        fun earlier hMem => List.mem_singleton.1 hMem ▸ h.takeWhile1_refuses hNoBlank
      have hShorter :=
        Nat.lt_succ_of_le ((List.dropWhile_suffix (l := cs) fun a => !isLineEnd a).length_le)
      exact .inr ⟨x, _, h.alt hFirst hTakes, hShorter, fun _ =>
        .behind hShorter (scanFrom_dropComment cs)⟩
    · refine .inl ⟨h.separator_refuses hNoBlank fun hHead => hComment (Option.some.inj hHead),
        Nat.le_refl _, rfl, ?_⟩
      rintro b ⟨⟩
      exact ⟨mt Token.roleOf_blank_iff.1 hBlank, mt Token.roleOf_comment_iff.1 fun hBoth =>
        hComment hBoth.2⟩

/-- The results of a scanner that is repeated and takes something each time. -/
theorem exists_many0 {s : Scanner α}
    (Result : (cs : List Char) → List α → (rest : List Char) → Prop)
    (hStep : ∀ cs, s.Refuses cs ∧ Result cs [] cs ∨ ∃ x behind, s cs = .ok (x, behind) ∧
      behind.length < cs.length ∧ ∀ xs rest, Result behind xs rest → Result cs (x :: xs) rest)
    (cs : List Char) : ∃ xs rest, c.many0 s cs = .ok (xs, rest) ∧ Result cs xs rest := by
  induction hLength : cs.length using Nat.strongRecOn generalizing cs with
  | _ length ih =>
    subst hLength
    rcases hStep cs with ⟨hRefuses, hNothing⟩ | ⟨x, behind, hTakes, hShorter, hMore⟩
    · exact ⟨[], cs, h.many0_stop hRefuses, hNothing⟩
    · obtain ⟨xs, rest, hRepeats, hResult⟩ := ih behind.length hShorter behind rfl
      exact ⟨x :: xs, rest, h.many0_more hTakes hShorter hRepeats, hMore xs rest hResult⟩

/-- Skipping never fails, and stops where a token begins or at the end. -/
theorem exists_skip (comments : Bool) (cs : List Char) :
    ∃ rest, c.skip comments cs = .ok ((), rest) ∧ Skipped comments cs rest := by
  cases comments with
  | false =>
    obtain ⟨-, -, -, hEnd⟩ := Token.exists_gap cs
    refine ⟨_, h.value (h.takeWhile isBlank cs), (List.dropWhile_suffix _).length_le,
      scanFrom_dropBlanks _ _, ?_⟩
    exact fun a hHead =>
      ⟨mt Token.roleOf_blank_iff.1 (hEnd a hHead), mt Token.roleOf_comment_iff.1 nofun⟩
  | true =>
    obtain ⟨xs, rest, hRepeats, hSkipped⟩ :=
      h.exists_many0 (fun cs _ rest => Skipped true cs rest) (fun cs => (h.separator cs).imp_right
        fun ⟨x, behind, hTakes, hShorter, hMore⟩ => ⟨x, behind, hTakes, hShorter, fun _ => hMore⟩)
        cs
    exact ⟨rest, h.value hRepeats, hSkipped⟩

theorem token_nil (comments : Bool) : (c.token comments).Refuses [] := by
  refine h.alt_refuses fun choice hMem => ?_
  rcases List.mem_cons.1 hMem with rfl | hMem
  · exact h.tag_refuses (by decide)
  rcases List.mem_cons.1 hMem with rfl | hMem
  · exact h.tag_refuses (by decide)
  · exact List.mem_singleton.1 hMem ▸ h.takeWhile1_refuses rfl

theorem tags_refuse {a : Char} (hOther : a ≠ '(' ∧ a ≠ ')') (cs : List Char) :
    ∀ earlier ∈ [c.tag "(", c.tag ")"], earlier.Refuses (a :: cs) := by
  intro earlier hMem
  rcases List.mem_cons.1 hMem with rfl | hMem
  · exact h.tag_refuses fun hPrefix => hOther.1 (List.cons_prefix_cons.1 hPrefix).1.symm
  · rw [List.mem_singleton.1 hMem]
    exact h.tag_refuses fun hPrefix => hOther.2 (List.cons_prefix_cons.1 hPrefix).1.symm

/-- A token is taken where the scanner finds it at the front. -/
theorem token_front {comments : Bool} {t : Token} {cs rest : List Char}
    (hFront : Front comments t cs rest) :
    c.token comments cs = .ok (t.text, rest) := by
  cases hFront with
  | opening => exact h.alt_first (h.tag_append "(" rest)
  | closing =>
    have hOpening : ∀ earlier ∈ [c.tag "("], earlier.Refuses (')' :: rest) := by
      intro earlier hMem
      rw [List.mem_singleton.1 hMem]
      exact h.tag_refuses fun hPrefix => absurd (List.cons_prefix_cons.1 hPrefix).1 (by decide)
    exact h.alt hOpening (h.tag_append ")" rest)
  | @atom text _ hWord hBreaks =>
    have hEach : ∀ a ∈ text.toList, isAtomCharacter comments a :=
      fun a hMem => isAtomCharacter_iff.2 (hWord.2 a hMem)
    obtain ⟨hTake, hDrop⟩ := split_rest hBreaks
    have hTaken : (text.toList ++ rest).takeWhile (isAtomCharacter comments) = text.toList := by
      rw [List.takeWhile_append_of_pos hEach, hTake, List.append_nil]
    have hTakes := h.takeWhile1 (hTaken ▸ hWord.toList_ne_nil)
    rw [hTaken, List.dropWhile_append_of_pos hEach, hDrop, String.ofList_toList] at hTakes
    obtain ⟨a, word, hText⟩ := List.exists_cons_of_ne_nil hWord.toList_ne_nil
    obtain ⟨-, hOpening, hClosing, -⟩ :=
      Token.roleOf_ordinary_iff.1 (hWord.2 a (hText ▸ List.mem_cons_self))
    have hTags := h.tags_refuse ⟨hOpening, hClosing⟩ (word ++ rest)
    rw [← List.cons_append, ← hText] at hTags
    exact h.alt hTags hTakes

/-- The tokens of a text, taken one at a time together with what is skipped before them. Behind them
there is nothing that would not be skipped. -/
theorem exists_pieces (comments : Bool) (cs : List Char) :
    ∃ texts rest, c.many0 (c.preceded (c.skip comments) (c.token comments)) cs = .ok (texts, rest) ∧
      texts = (scanFrom comments (.word []) cs).map Token.text ∧
        c.skip comments rest = .ok ((), []) := by
  refine h.exists_many0
    (fun cs texts rest => texts = (scanFrom comments (.word []) cs).map Token.text ∧
    c.skip comments rest = .ok ((), [])) (fun cs => ?_) cs
  obtain ⟨behind, hSkip, hSkipped⟩ := h.exists_skip comments cs
  have hPiece : c.preceded (c.skip comments) (c.token comments) cs = c.token comments behind :=
    h.preceded hSkip
  rcases Token.exists_front hSkipped.start with rfl | ⟨t, rest, hFront⟩
  · obtain ⟨stopped, hRefuses⟩ := h.token_nil comments
    refine .inl ⟨⟨stopped, hPiece.trans hRefuses⟩, ?_, hSkip⟩
    rw [hSkipped.scan]
    rfl
  · have hShorter : rest.length < cs.length := Nat.lt_of_lt_of_le hFront.shorter hSkipped.length_le
    refine .inr ⟨t.text, rest, hPiece.trans (h.token_front hFront), hShorter, fun _ _ hResult =>
      ⟨?_, hResult.2⟩⟩
    rw [hSkipped.scan, hFront.scan, List.map_cons, hResult.1]

/-- The tokenizer finds the tokens that the scanner does. -/
theorem tokenize_eq_scan (comments : Bool) (text : String) :
    c.tokenize comments text = .ok ((Token.scan comments text).map Token.text) := by
  obtain ⟨texts, rest, hPieces, rfl, hSkip⟩ := h.exists_pieces comments text.toList
  rw [tokenize, tokens, h.allConsuming (h.terminated hPieces hSkip)]
  rfl

end Documented

/-- Every text is taken apart, with comments or without them, so there is no text that is not
recognized. A text without comments is taken apart into tokens that lie in it one behind the other
with nothing but blanks around them. There are no other tokens of which this is true. Joined to each
other they are the text without its blanks, and joined by single spaces they are a text with the
same tokens. -/
theorem tokenizes_losslessly {c : Combinators} (h : c.Documented) (text : String) :
    (∃ tokens, c.tokenize false text = .ok tokens ∧ tokens =
      (Token.scan false text).map Token.text ∧ (∀ ts, Layout ts text.toList ↔ ts = tokens) ∧
      tokens.flatMap String.toList = text.toList.filter (!isBlank ·) ∧
      c.tokenize false (" ".intercalate tokens) = .ok tokens) ∧
    c.tokenize true text = .ok ((Token.scan true text).map Token.text) := by
  have hLayout : Layout ((Token.scan false text).map Token.text) text.toList :=
    Token.layout_scan text.toList
  refine ⟨⟨_, h.tokenize_eq_scan false text, rfl, fun ts => Token.layout_iff,
    hLayout.flatMap_toList, ?_⟩, h.tokenize_eq_scan true text⟩
  rw [h.tokenize_eq_scan]
  exact congrArg Except.ok (Token.layout_intercalate hLayout.isPiece).eq_scan.symm

/-- The blanks around a run need not be those of ASCII, and a semicolon is part of a run where there
are no comments. -/
theorem tokenizes_losslessly_plain :
    plain.Documented ∧
      plain.tokenize false "(car x)\u3000y;z" = .ok ["(", "car", "x", ")", "y;z"] ∧
      plain.tokenize true "(car x)\u3000y;z" = .ok ["(", "car", "x", ")", "y"] := by
  obtain ⟨⟨tokens, hTokens, hScan, -⟩, hComments⟩ :=
    tokenizes_losslessly plain_documented "(car x)\u3000y;z"
  refine ⟨plain_documented, ?_, ?_⟩
  · rw [hTokens, hScan]
    rfl
  · rw [hComments]
    rfl

end Combinators

end EmbeddedLisp
