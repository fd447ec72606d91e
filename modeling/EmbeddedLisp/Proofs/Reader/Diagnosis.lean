import EmbeddedLisp.Proofs.Reader.Derivation
import EmbeddedLisp.Proofs.Reader.Prolongation

/-! What a syntax error says of the text. The kinds of errors tell apart texts that can be
completed, texts that begin with a closing parenthesis, texts with more than one form, and texts
that open one list too many inside of their first form. Each text without a form is of exactly one
of these kinds, and the token that is reported is the one that decides it.

Only the first kind depends on what could follow. The others are decided by a token and by what
stands before it, so they stay as they are however the text goes on. -/
namespace EmbeddedLisp.Reader

open EmbeddedLisp.Derivation

/-- Tokens that stay inside of one form, in which `depth` lists are open: each part that they begin
with leaves a list open. -/
def Inside (depth : Nat) (tokens : List Token) : Prop :=
  ∀ part, part <+: tokens → part ≠ [] → part.count .closing < depth + part.count .opening

/-- The number of lists that tokens leave open. -/
def opened (tokens : List Token) : Nat := tokens.count .opening - tokens.count .closing

/-- The token for which a text is rejected, by what stands before it. -/
def Culprit (maxNesting : Option Nat) : SyntaxError.Kind → (before : List Token) → Token → Prop
  | .unexpectedClose, before, t => before = [] ∧ t = .closing
  | .trailingContent, before, _ =>
    ∃ d : Derivation, before = d.tokens ∧ ∀ limit ∈ maxNesting, d.form.height ≤ limit
  | .tooDeeplyNested, before, t => t = .opening ∧ Inside 0 before ∧ opened before ∈ maxNesting
  | .incomplete, _, _ | .unrecognizedInput, _, _ => False

/-- Why a text is no form. It can be completed, or there is a token for which it cannot. -/
def Cause (options : Options) (text : String) (kind : SyntaxError.Kind) : Prop :=
  if kind = .incomplete then ∃ more e, parse options (text ++ more) = .ok e
  else ∃ before t after, Token.scan options.comments text = before ++ t :: after ∧
    Culprit options.maxNesting kind before t

theorem count_cons_eq (u t : Token) (tokens : List Token) :
    (t :: tokens).count u = [t].count u + tokens.count u := by
  rw [← List.count_append, List.singleton_append]

theorem inside_nil (depth : Nat) : Inside depth [] :=
  fun _ hPrefix hSome => absurd (List.prefix_nil.1 hPrefix) hSome

/-- Whether reading stays inside lists is decided token by token. -/
theorem inside_cons {depth : Nat} {t : Token} {tokens : List Token} :
    Inside depth (t :: tokens) ↔ [t].count .closing < depth + [t].count .opening ∧
      Inside (depth + [t].count .opening - [t].count .closing) tokens := by
  constructor
  · intro hInside
    have hFirst := hInside [t] (List.prefix_cons_iff.2 (.inr ⟨[], rfl, List.nil_prefix⟩)) (by simp)
    refine ⟨hFirst, fun part hPart _ => ?_⟩
    have hLonger := hInside (t :: part) (List.prefix_cons_iff.2 (.inr ⟨part, rfl, hPart⟩)) (by simp)
    rw [count_cons_eq .closing t part, count_cons_eq .opening t part] at hLonger
    omega
  · rintro ⟨hFirst, hRest⟩ longer hLonger hSome
    obtain rfl | ⟨part, rfl, hPart⟩ := List.prefix_cons_iff.1 hLonger
    · exact absurd rfl hSome
    · rw [count_cons_eq .closing t part, count_cons_eq .opening t part]
      by_cases hNone : part = []
      · subst hNone
        simpa using hFirst
      · have hLess := hRest part hPart hNone
        omega

section

variable {maxNesting : Option Nat} {unfinished inner : List (List Expression)} {t : Token}

/-- The limit that a list exceeds is the one that has been set. -/
theorem exceeded?_eq_some_iff {depth limit : Nat} :
    exceeded? maxNesting depth = some limit ↔ limit ∈ maxNesting ∧ limit ≤ depth := by
  simp [exceeded?, Option.filter_eq_some_iff]

/-- Inside of a form, reading goes on behind a token with the lists that are open then. -/
structure Passes (maxNesting : Option Nat) (unfinished : List (List Expression)) (t : Token)
    (inner : List (List Expression)) : Prop where
  read : ∀ rest, readForm maxNesting unfinished (t :: rest) = readForm maxNesting inner rest
  some : inner ≠ []
  length : inner.length + [t].count .closing = unfinished.length + [t].count .opening

theorem passes_opening (hNone : exceeded? maxNesting unfinished.length = none) :
    Passes maxNesting unfinished .opening ([] :: unfinished) where
  read rest := by rw [readForm_opening, hNone]
  some := List.cons_ne_nil _ _
  length := rfl

theorem passes_closing (maxNesting : Option Nat) (elements outer : List Expression)
    (unfinished : List (List Expression)) :
    Passes maxNesting (elements :: outer :: unfinished) .closing
      ((.list elements.reverse :: outer) :: unfinished) where
  read _ := rfl
  some := List.cons_ne_nil _ _
  length := rfl

theorem passes_atom (maxNesting : Option Nat) (elements : List Expression)
    (unfinished : List (List Expression)) (text : String) :
    Passes maxNesting (elements :: unfinished) (.atom text)
      ((.ofAtom text :: elements) :: unfinished) where
  read _ := rfl
  some := List.cons_ne_nil _ _
  length := rfl

/-- Inside of a form, every token is passed but one that opens a list too many. -/
theorem exists_passes {tokens : List Token} (hInside : Inside unfinished.length (t :: tokens)) :
    (∃ inner, Passes maxNesting unfinished t inner) ∨
      t = .opening ∧ ∃ limit, exceeded? maxNesting unfinished.length = some limit := by
  have hFirst := (inside_cons.1 hInside).1
  cases t with
  | opening =>
    cases hExceeded : exceeded? maxNesting unfinished.length with
    | none => exact .inl ⟨_, passes_opening hExceeded⟩
    | some limit => exact .inr ⟨rfl, limit, rfl⟩
  | closing =>
    match unfinished with
    | [] => simp at hFirst
    | [_] => simp at hFirst
    | elements :: outer :: unfinished =>
      exact .inl ⟨_, passes_closing maxNesting elements outer unfinished⟩
  | atom text =>
    match unfinished with
    | [] => simp at hFirst
    | elements :: unfinished => exact .inl ⟨_, passes_atom maxNesting elements unfinished text⟩

theorem Passes.inside_iff (hPasses : Passes maxNesting unfinished t inner) {tokens : List Token} :
    Inside unfinished.length (t :: tokens) ↔ Inside inner.length tokens := by
  have hLength := hPasses.length
  have hSome := List.length_pos_iff.2 hPasses.some
  have hInner : unfinished.length + [t].count .opening - [t].count .closing = inner.length := by
    omega
  rw [inside_cons, hInner, and_iff_right (by omega)]

/-- Where a list is opened that the limit does not allow, nothing is read, whatever follows. -/
theorem readForm_tooDeep (unfinished : List (List Expression)) {before : List Token} {limit : Nat}
    (hLimit : limit ∈ maxNesting)
    (hInside : Inside unfinished.length before)
    (hOpen : unfinished.length + before.count .opening = limit + before.count .closing)
    (after : List Token) :
    ∃ rest, readForm maxNesting unfinished (before ++ .opening :: after) =
      .error (.tooDeep limit, rest) := by
  have hExceeded (unfinished : List (List Expression)) (rest : List Token) {exceeded : Nat}
      (hSome : exceeded? maxNesting unfinished.length = some exceeded) :
      readForm maxNesting unfinished (.opening :: rest) =
      .error (.tooDeep limit, .opening :: rest) := by
    have hSame : exceeded = limit := Option.mem_unique (exceeded?_eq_some_iff.1 hSome).1 hLimit
    rw [readForm_opening, hSome, hSame]
  induction before generalizing unfinished with
  | nil =>
    have hFull : limit = unfinished.length := by simpa using hOpen.symm
    exact ⟨_, hExceeded unfinished after (exceeded?_eq_some_iff.2 ⟨hLimit, Nat.le_of_eq hFull⟩)⟩
  | cons t before ih =>
    rcases exists_passes hInside with ⟨inner, hPasses⟩ | ⟨rfl, exceeded, hSome⟩
    · rw [List.cons_append, hPasses.read]
      apply ih inner (hPasses.inside_iff.1 hInside)
      have hLength := hPasses.length
      rw [count_cons_eq .opening t before, count_cons_eq .closing t before] at hOpen
      omega
    · exact ⟨_, hExceeded unfinished _ hSome⟩

/-- How reading comes to a stop: where, and what is to be said of the tokens before. -/
inductive Stopped (maxNesting : Option Nat) (unfinished : List (List Expression)) :
    List Token → Failure → List Token → Prop where
  | endOfInput (hNone : unfinished = []) : Stopped maxNesting unfinished [] .endOfInput []
  | unclosedList {tokens : List Token} (count : Nat) (e : Expression)
      (hClosed : readForm maxNesting unfinished (tokens ++ List.replicate count .closing) =
      .ok (e, [])) :
      Stopped maxNesting unfinished tokens .unclosedList []
  | unexpectedClose (hNone : unfinished = []) (after : List Token) :
      Stopped maxNesting unfinished (.closing :: after) .unexpectedClose (.closing :: after)
  | tooDeep {limit : Nat} (before : List Token) (hLimit : limit ∈ maxNesting)
      (hInside : Inside unfinished.length before)
      (hOpen : unfinished.length + before.count .opening = limit + before.count .closing)
      (after : List Token) :
      Stopped maxNesting unfinished (before ++ .opening :: after) (.tooDeep limit)
      (.opening :: after)

/-- Where reading stops after a token it passes, it stops with that token before. -/
theorem Passes.stopped (hPasses : Passes maxNesting unfinished t inner) {tokens rest : List Token}
    {failure : Failure} (hStopped : Stopped maxNesting inner tokens failure rest) :
    Stopped maxNesting unfinished (t :: tokens) failure rest := by
  cases hStopped with
  | endOfInput hNone | unexpectedClose hNone => exact absurd hNone hPasses.some
  | unclosedList count e hClosed =>
    exact .unclosedList count e (by rw [List.cons_append, hPasses.read, hClosed])
  | tooDeep before hLimit hInside hOpen after =>
    rw [← List.cons_append]
    refine .tooDeep _ hLimit (hPasses.inside_iff.2 hInside) ?_ after
    have hLength := hPasses.length
    rw [count_cons_eq .opening t before, count_cons_eq .closing t before]
    omega

/-- Enough closing parentheses complete a form. -/
theorem readForm_closings (maxNesting : Option Nat) (elements : List Expression)
    (outer : List (List Expression)) :
    ∃ e, readForm maxNesting (elements :: outer) (List.replicate (outer.length + 1) .closing) =
      .ok (e, []) := by
  induction outer generalizing elements with
  | nil => exact ⟨_, rfl⟩
  | cons next outer ih =>
    rw [List.length_cons, List.replicate_succ, (passes_closing maxNesting elements next outer).read]
    exact ih _

theorem readForm_stopped {tokens rest : List Token} {failure : Failure}
    (hWithin : Within maxNesting unfinished.length)
    (hRead : readForm maxNesting unfinished tokens = .error (failure, rest)) :
    Stopped maxNesting unfinished tokens failure rest := by
  fun_induction readForm maxNesting unfinished tokens with
  | case1 =>
    cases hRead
    exact .endOfInput rfl
  | case2 elements outer =>
    cases hRead
    obtain ⟨e, hClosed⟩ := readForm_closings maxNesting elements outer
    exact .unclosedList (outer.length + 1) e hClosed
  | case3 unfinished after limit hExceeded =>
    cases hRead
    obtain ⟨hLimit, hLess⟩ := exceeded?_eq_some_iff.1 hExceeded
    have hFull : unfinished.length = limit := Nat.le_antisymm (hWithin limit hLimit) hLess
    exact .tooDeep [] hLimit (inside_nil _) (by simpa using hFull) after
  | case4 unfinished after hNone ih =>
    exact (passes_opening hNone).stopped (ih (exceeded?_eq_none_iff.1 hNone) hRead)
  | case5 after =>
    cases hRead
    exact .unexpectedClose rfl after
  | case6 | case8 => cases hRead
  | case7 elements outer unfinished after ih =>
    exact (passes_closing maxNesting _ _ _).stopped (ih (hWithin.mono (Nat.le_succ _)) hRead)
  | case9 elements unfinished text after ih =>
    exact (passes_atom maxNesting _ _ _).stopped (ih hWithin hRead)

end

section

variable {options : Options} {text : String}

/-- The report of a failure before some last tokens of a text. -/
def report (options : Options) (text : String) (failure : Failure) (rest : List Token) :
    SyntaxError :=
  errorAt ⟨options.maxNesting, Token.scan options.comments text, rest⟩ failure

theorem kind_report (failure : Failure) (rest : List Token) :
    (report options text failure rest).kind = failure.kind := rfl

theorem found_report (failure : Failure) (before : List Token) {rest : List Token}
    (hTokens : Token.scan options.comments text = before ++ rest) :
    (report options text failure rest).found = rest.head?.map Token.text := by
  simp [report, errorAt, position, SyntaxError.placed, hTokens, List.getElem?_append_right,
    List.head?_eq_getElem?]

theorem parse_of_error {failure : Failure} {rest : List Token}
    (hRead : readForm options.maxNesting [] (Token.scan options.comments text) =
      .error (failure, rest)) : parse options text = .error (report options text failure rest) := by
  simp only [parse, read, ofText, hRead, report]

theorem parse_of_trailing {e : Expression} {t : Token} {rest : List Token}
    (hRead : readForm options.maxNesting [] (Token.scan options.comments text) =
      .ok (e, t :: rest)) :
    parse options text = .error (report options text .trailing (t :: rest)) := by
  simp only [parse, read, ofText, hRead, report, isExhausted, List.isEmpty_cons, Bool.false_eq_true,
    if_false]

/-- A token that cannot stand where it stands is reported. -/
theorem exists_parse_error {kind : SyntaxError.Kind} {before after : List Token} {t : Token}
    (hTokens : Token.scan options.comments text = before ++ t :: after)
    (hCulprit : Culprit options.maxNesting kind before t) :
    ∃ p, parse options text = .error p ∧ p.kind = kind := by
  cases kind with
  | incomplete | unrecognizedInput => exact hCulprit.elim
  | unexpectedClose =>
    obtain ⟨rfl, rfl⟩ := hCulprit
    exact ⟨_, parse_of_error (by rw [hTokens]; rfl), rfl⟩
  | trailingContent =>
    obtain ⟨d, rfl, hWithin⟩ := hCulprit
    exact ⟨_, parse_of_trailing (readForm_eq_ok_iff.2 ⟨d, hTokens, rfl, hWithin⟩), rfl⟩
  | tooDeeplyNested =>
    obtain ⟨rfl, hInside, hLimit⟩ := hCulprit
    have hLess : before.count .closing ≤ before.count .opening := by
      by_cases hNone : before = []
      · simp [hNone]
      · have hMore := hInside before (List.prefix_refl before) hNone
        omega
    have hOpen : 0 + before.count .opening = opened before + before.count .closing := by
      unfold opened
      omega
    obtain ⟨rest, hRead⟩ := readForm_tooDeep [] hLimit hInside hOpen after
    exact ⟨_, parse_of_error (by rw [hTokens]; exact hRead), rfl⟩

/-- A token that cannot stand where it stands is still there if the text goes on. -/
theorem Culprit.of_eq_or_atom {maxNesting : Option Nat} {kind : SyntaxError.Kind}
    {before : List Token} {t t' : Token} (hCulprit : Culprit maxNesting kind before t)
    (hToken : t' = t ∨ ∃ text, t = .atom text) : Culprit maxNesting kind before t' := by
  rcases hToken with rfl | ⟨text, rfl⟩
  · exact hCulprit
  · cases kind with
    | incomplete | unrecognizedInput => exact hCulprit
    | trailingContent => exact hCulprit
    | unexpectedClose => cases hCulprit.2
    | tooDeeplyNested => cases hCulprit.1

/-- There is one such token of a kind. -/
theorem Culprit.unique {maxNesting : Option Nat} {kind : SyntaxError.Kind}
    {before before' after after' : List Token} {t t' : Token}
    (hCulprit : Culprit maxNesting kind before t) (hCulprit' : Culprit maxNesting kind before' t')
    (hSame : before ++ t :: after = before' ++ t' :: after') : t = t' := by
  cases kind with
  | incomplete | unrecognizedInput => exact hCulprit.elim
  | unexpectedClose => rw [hCulprit.2, hCulprit'.2]
  | tooDeeplyNested => rw [hCulprit.1, hCulprit'.1]
  | trailingContent =>
    obtain ⟨d, rfl, -⟩ := hCulprit
    obtain ⟨d', rfl, -⟩ := hCulprit'
    obtain ⟨-, hRest⟩ := tokens_append_inj d d' hSame
    exact (List.cons.inj hRest).1

/-- Behind the end of the line, a text that stopped inside of a list goes on with the closing
parentheses that are missing. -/
theorem exists_completion {count : Nat} {e : Expression}
    (hClosed : readForm options.maxNesting []
      (Token.scan options.comments text ++ List.replicate count .closing) = .ok (e, [])) :
    ∃ more, parse options (text ++ more) = .ok e := by
  have hClosings : Token.scan options.comments (String.ofList (List.replicate count ')')) =
      List.replicate count .closing := by
    rw [Token.scan, String.toList_ofList]
    clear hClosed
    induction count with
    | zero => rfl
    | succ count ih =>
      rw [List.replicate_succ, List.replicate_succ, ← ih]
      rfl
  refine ⟨"\n" ++ String.ofList (List.replicate count ')'), ?_⟩
  rw [parse_eq_ok_iff_readForm, Token.scan_lineEnd, hClosings, hClosed]

/-- What the report of a text says: that it can be completed, or which token is in its place. -/
theorem diagnose {p : SyntaxError} (hParse : parse options text = .error p) :
    p.kind = .incomplete ∧ p.found = none ∧ (∃ more e, parse options (text ++ more) = .ok e) ∨
      ∃ before t after, Token.scan options.comments text = before ++ t :: after ∧
        Culprit options.maxNesting p.kind before t ∧ p.found = some t.text := by
  cases hRead : readForm options.maxNesting [] (Token.scan options.comments text) with
  | error failed =>
    obtain ⟨failure, rest⟩ := failed
    rw [parse_of_error hRead] at hParse
    cases hParse
    have hStopped := readForm_stopped (fun _ _ => Nat.zero_le _) hRead
    generalize hTokens : Token.scan options.comments text = tokens at hStopped
    cases hStopped with
    | endOfInput =>
      refine .inl ⟨rfl, found_report _ [] hTokens, "\na", .text "a", ?_⟩
      rw [parse_eq_ok_iff_readForm, show "\na" = "\n" ++ "a" from rfl, Token.scan_lineEnd, hTokens]
      cases options.comments <;> rfl
    | unclosedList count e hClosed =>
      obtain ⟨more, hMore⟩ := exists_completion (hTokens ▸ hClosed)
      exact .inl ⟨rfl, found_report _ _ (by rw [hTokens, List.append_nil]), more, e, hMore⟩
    | unexpectedClose _ after =>
      exact .inr ⟨[], .closing, after, rfl, ⟨rfl, rfl⟩, found_report _ [] hTokens⟩
    | @tooDeep limit before hLimit hInside hOpen after =>
      have hOpened : opened before = limit := by
        simp only [List.length_nil, opened] at hOpen ⊢
        omega
      exact .inr ⟨before, .opening, after, rfl, ⟨rfl, hInside, hOpened ▸ hLimit⟩,
        found_report _ before hTokens⟩
  | ok result =>
    obtain ⟨e, rest⟩ := result
    cases rest with
    | nil =>
      rw [parse_eq_ok_iff_readForm.2 hRead] at hParse
      cases hParse
    | cons t after =>
      rw [parse_of_trailing hRead] at hParse
      cases hParse
      obtain ⟨d, hTokens, rfl, hWithin⟩ := readForm_eq_ok_iff.1 hRead
      exact .inr ⟨d.tokens, t, after, hTokens, ⟨d, rfl, hWithin⟩, found_report _ _ hTokens⟩

/-- A cause is the cause of one kind of error. -/
theorem kind_eq_of_cause {p : SyntaxError} (hParse : parse options text = .error p)
    {kind : SyntaxError.Kind} (hCause : Cause options text kind) : p.kind = kind := by
  unfold Cause at hCause
  split at hCause
  · rename_i hIncomplete
    rcases diagnose hParse with ⟨hKind, -⟩ | ⟨before, t, after, hTokens, hCulprit, -⟩
    · rw [hKind, hIncomplete]
    · obtain ⟨more, e, hMore⟩ := hCause
      have hProlongs := Token.scan_prolongs options.comments text more
      rw [hTokens] at hProlongs
      obtain ⟨t', after', hLonger, hToken⟩ := hProlongs.exists_eq_append
      obtain ⟨p', hError, -⟩ := exists_parse_error hLonger (hCulprit.of_eq_or_atom hToken)
      cases hMore.symm.trans hError
  · obtain ⟨before, t, after, hTokens, hCulprit⟩ := hCause
    obtain ⟨p', hError, hKind⟩ := exists_parse_error hTokens hCulprit
    cases hParse.symm.trans hError
    exact hKind

theorem cause_of_parse {p : SyntaxError} (hParse : parse options text = .error p) :
    Cause options text p.kind := by
  rcases diagnose hParse with ⟨hKind, -, hMore⟩ | ⟨before, t, after, hTokens, hCulprit, -⟩
  · rw [Cause, if_pos hKind]
    exact hMore
  · have hOther : p.kind ≠ .incomplete := by
      intro hKind
      rw [hKind] at hCulprit
      exact hCulprit
    rw [Cause, if_neg hOther]
    exact ⟨before, t, after, hTokens, hCulprit⟩

/-- A syntax error names the cause for which a text is no form, of which there is exactly one. It is
incomplete input exactly if the text can go on to a form. Otherwise there is a token for which it
cannot, and this is the token that the error gives. -/
theorem syntax_error_classifies {p : SyntaxError} (hParse : parse options text = .error p) :
    (∀ kind, p.kind = kind ↔ Cause options text kind) ∧
    (∃! kind, Cause options text kind) ∧
    (p.found = none ↔ p.kind = .incomplete) ∧
    ∀ before t after, Token.scan options.comments text = before ++ t :: after →
      Culprit options.maxNesting p.kind before t → p.found = some t.text := by
  have hCause := cause_of_parse hParse
  refine ⟨fun kind => ⟨fun hKind => hKind ▸ hCause, kind_eq_of_cause hParse⟩,
    ⟨p.kind, hCause, fun kind hOther => (kind_eq_of_cause hParse hOther).symm⟩, ?_, ?_⟩
  · rcases diagnose hParse with ⟨hKind, hFound, -⟩ | ⟨before, t, after, -, hCulprit, hFound⟩
    · exact iff_of_true hFound hKind
    · refine iff_of_false (by simp [hFound]) fun hKind => ?_
      rw [hKind] at hCulprit
      exact hCulprit
  · intro before t after hTokens hCulprit
    rcases diagnose hParse with ⟨hKind, -⟩ | ⟨before', t', after', hTokens', hCulprit', hFound⟩
    · rw [hKind] at hCulprit
      exact hCulprit.elim
    · rw [hFound, hCulprit.unique hCulprit' (hTokens.symm.trans hTokens')]

/-- A list too many is not missing input, although the text breaks off. -/
theorem syntax_error_classifies_nested :
    ∃ p, parse { comments := true, maxNesting := some 1 } "(a ; (\n (b" = .error p ∧
      p.kind = .tooDeeplyNested ∧ p.found = some "(" ∧
      ∀ kind, p.kind = kind ↔ Cause { comments := true, maxNesting := some 1 }
      "(a ; (\n (b" kind := by
  have hTokens : Token.scan true "(a ; (\n (b" = [.opening, .atom "a", .opening, .atom "b"] := rfl
  have hParse : parse { comments := true, maxNesting := some 1 } "(a ; (\n (b" =
      .error (report _ _ (.tooDeep 1) [.opening, .atom "b"]) :=
    parse_of_error (by rw [hTokens]; rfl)
  exact ⟨_, hParse, kind_report _ _, found_report _ [.opening, .atom "a"] hTokens,
    (syntax_error_classifies hParse).1⟩

end

end EmbeddedLisp.Reader
