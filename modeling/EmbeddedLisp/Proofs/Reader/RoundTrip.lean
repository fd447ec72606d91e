import EmbeddedLisp.Proofs.Expression.Texts
import EmbeddedLisp.Proofs.Number.Notation
import EmbeddedLisp.Proofs.Reader.Derivation
import EmbeddedLisp.Proofs.Reader.Word

/-! The text of a form is read back as the form, exactly if each of its text atoms is a token that
stands for itself. A form that was read is such a form, so its text is read back under the same
options.

A form is written by a derivation, the one in which each atom is the text of a leaf. What remains is
that a scan of the text finds the tokens of this derivation, and that each leaf is what its text
stands for. -/
namespace EmbeddedLisp

/-- Identifies all that is not a number, whatever its sign. The text of a number does not show
it. -/
def Binary64.identifyNaN : Binary64 → Binary64
  | .nan _ => .nan false
  | x => x

namespace Expression

mutual

/-- A form up to the signs of what is not a number. -/
def identifyNaN : Expression → Expression
  | .float x => .float x.identifyNaN
  | .list elements => .list (identifyNaNEach elements)
  | e => e

def identifyNaNEach : List Expression → List Expression
  | [] => []
  | e :: rest => e.identifyNaN :: identifyNaNEach rest

end

mutual

/-- The derivation by which a form is written. -/
def derivation : Expression → Derivation
  | .list elements => .list (derivationEach elements)
  | e => .atom e.render

def derivationEach : List Expression → List Derivation
  | [] => []
  | e :: rest => e.derivation :: derivationEach rest

end

/-- An integer is read back from its numeral. -/
theorem ofAtom_integer (a : Fixnum) : ofAtom (render (.integer a)) = .integer a := by
  simp only [render, ofAtom, a.integer?_render, Option.bind_some, Fixnum.ofInt?_toInt]

/-- A reserved word that is no numeral is taken for what it is reserved for. -/
theorem ofAtom_of_reserved {token : String} {e : Expression}
    (hInteger : Decimal.integer? token.toList = none)
    (hFloat : Binary64.ofText? token.toList = none) (hReserved : reserved? token = some e) :
    ofAtom token = e := by
  simp only [ofAtom, hInteger, Option.bind_none, hFloat, hReserved, Option.getD_some]

/-- A boolean is read back from its word. -/
theorem ofAtom_boolean (value : Bool) : ofAtom (render (.boolean value)) = .boolean value := by
  cases value <;> exact ofAtom_of_reserved (by decide) (by decide) rfl

/-- A float is read back from its text, and every NaN as the one NaN there is a word for. -/
theorem ofAtom_float (x : Binary64) : ofAtom (render (.float x)) = .float x.identifyNaN := by
  cases x with
  | nan negative => cases negative <;> exact ofAtom_of_reserved (by decide) (by decide) rfl
  | signed negative m =>
    cases hInfinite : m.isInfinite with
    | false =>
      obtain ⟨hInteger, hFloat⟩ := Binary64.ofText?_render negative hInfinite
      simp only [render, ofAtom, hInteger, Option.bind_none, hFloat, Binary64.identifyNaN]
    | true =>
      have hRank : m = .infinity := Magnitude.ext (beq_iff_eq.1 hInfinite)
      subst hRank
      cases negative <;> exact ofAtom_of_reserved (by decide) (by decide) rfl

end Expression

namespace Token

section

variable {comments : Bool}

/-- Digits and points make a word, with or without a sign. -/
theorem isWord_of_signed {text : String} {negative : Bool} {rest : List Char}
    (hText : text.toList = (if negative then ['-'] else []) ++ rest) (hSome : rest ≠ [])
    (hRest : ∀ c ∈ rest, c.isDigit ∨ c = '.') : IsWord comments text := by
  constructor
  · rintro rfl
    exact List.append_ne_nil_of_right_ne_nil _ hSome hText.symm
  · intro c hMem
    rw [hText, List.mem_append] at hMem
    rcases hMem with hSign | hMem
    · cases negative with
      | false => cases hSign
      | true =>
        rw [List.mem_singleton.1 hSign]
        cases comments <;> decide
    · rcases hRest c hMem with hDigit | rfl
      · exact roleOf_isDigit hDigit
      · cases comments <;> decide

theorem isWord_integer (a : Fixnum) : IsWord comments a.render :=
  isWord_of_signed a.toList_render Nat.toDigits_ne_nil fun _ hMem =>
    .inl (Decimal.isDigit_of_mem_toDigits hMem)

theorem isWord_float (x : Binary64) : IsWord comments x.render := by
  cases x with
  | nan negative => cases comments <;> cases negative <;> decide
  | signed negative m =>
    cases hInfinite : m.isInfinite with
    | true =>
      have hRank : m = .infinity := Magnitude.ext (beq_iff_eq.1 hInfinite)
      subst hRank
      cases comments <;> cases negative <;> decide
    | false =>
      obtain ⟨whole, fraction, hText, -, hDigits, -⟩ := (Decimal.shortest m).exists_positional
      have hRender := Binary64.toList_render_signed negative hInfinite
      rw [hText] at hRender
      refine isWord_of_signed hRender (by simp) fun c hMem => ?_
      rw [List.mem_append, List.mem_cons] at hMem
      rcases hMem with hWhole | hPoint | hFraction
      · exact .inl (hDigits c (List.mem_append_left _ hWhole))
      · exact .inr hPoint
      · exact .inl (hDigits c (List.mem_append_right _ hFraction))

theorem isWord_boolean (value : Bool) : IsWord comments (writeBoolean value) := by
  cases comments <;> cases value <;> decide

open Expression (texts textsEach renderEach derivation derivationEach)
open EmbeddedLisp.Derivation (tokensEach)

theorem scanFrom_closing (rest : List Char) :
    scanFrom comments (.word []) (')' :: rest) = .closing :: scanFrom comments (.word []) rest :=
  rfl

/-- A word ends at a closing parenthesis. -/
theorem breaks_closing (rest : List Char) : Breaks comments (')' :: rest) := by
  rintro c ⟨⟩
  simp [roleOf]

/-- A word ends at a space. -/
theorem breaks_space (rest : List Char) : Breaks comments (' ' :: rest) := by
  rintro c ⟨⟩
  cases comments <;> decide

theorem scanFrom_space (rest : List Char) :
    scanFrom comments (.word []) (' ' :: rest) = scanFrom comments (.word []) rest := by
  cases comments <;> rfl

mutual

/-- The text of a form whose text atoms are words is scanned as the tokens of its derivation. -/
theorem scanFrom_render : (e : Expression) → (∀ t ∈ e.texts, IsWord comments t) →
    {rest : List Char} → Breaks comments rest →
    scanFrom comments (.word []) (e.render.toList ++ rest) =
      e.derivation.tokens ++ scanFrom comments (.word []) rest
  | .integer a, _, _, hBreaks => scanFrom_isWord (isWord_integer a) hBreaks
  | .float x, _, _, hBreaks => scanFrom_isWord (isWord_float x) hBreaks
  | .text t, hWords, _, hBreaks => scanFrom_isWord (hWords t (List.mem_singleton_self t)) hBreaks
  | .boolean value, _, _, hBreaks => scanFrom_isWord (isWord_boolean value) hBreaks
  | .list es, hWords, rest, _ => by
    have hText : (Expression.list es).render.toList ++ rest =
        '(' :: ((" ".intercalate (renderEach es)).toList ++ ')' :: rest) := by
      simp [Expression.render, writeList]
    rw [hText]
    show .opening :: scanFrom comments (.word []) _ = _
    rw [scanFrom_renderEach es hWords]
    simp [derivation, Derivation.tokens]

/-- The elements of a list are scanned one by one up to its closing parenthesis. -/
theorem scanFrom_renderEach : (es : List Expression) → (∀ t ∈ textsEach es, IsWord comments t) →
    {rest : List Char} →
    scanFrom comments (.word []) ((" ".intercalate (renderEach es)).toList ++ ')' :: rest) =
      tokensEach (derivationEach es) ++ .closing :: scanFrom comments (.word []) rest
  | [], _, rest => scanFrom_closing rest
  | [e], hWords, rest => by
    simp only [renderEach, String.intercalate_singleton, derivationEach, tokensEach,
      List.append_nil]
    rw [scanFrom_render e (by simpa [textsEach] using hWords) (breaks_closing rest),
      scanFrom_closing]
  | e :: e' :: es, hWords, rest => by
    have hFirst : ∀ t ∈ e.texts, IsWord comments t := fun t hMem =>
      hWords t (List.mem_append_left _ hMem)
    have hRest : ∀ t ∈ textsEach (e' :: es), IsWord comments t := fun t hMem =>
      hWords t (List.mem_append_right _ hMem)
    have hText : (" ".intercalate (renderEach (e :: e' :: es))).toList ++ ')' :: rest =
        e.render.toList ++
        ' ' :: ((" ".intercalate (renderEach (e' :: es))).toList ++ ')' :: rest) := by
      simp [renderEach]
    rw [hText, scanFrom_render e hFirst (breaks_space _), scanFrom_space,
      scanFrom_renderEach _ hRest]
    simp [derivationEach, tokensEach]

end

/-- The text of a form is scanned as the tokens it is derived from. -/
theorem scan_render {e : Expression} (hWords : ∀ t ∈ e.texts, IsWord comments t) :
    scan comments e.render = e.derivation.tokens := by
  have hEnd : Breaks comments [] := by
    rintro c ⟨⟩
  simpa [scan, scanFrom, finish] using scanFrom_render e hWords hEnd

end

end Token

namespace Expression

mutual

/-- The form that is derived is the one written, but for the signs of NaNs. -/
theorem form_derivation : (e : Expression) → (∀ t ∈ e.texts, ofAtom t = .text t) →
    e.derivation.form = e.identifyNaN
  | .integer a, _ => ofAtom_integer a
  | .float x, _ => ofAtom_float x
  | .text t, hTexts => hTexts t (List.mem_singleton_self t)
  | .boolean value, _ => ofAtom_boolean value
  | .list es, hTexts => congrArg Expression.list (formEach_derivationEach es hTexts)

theorem formEach_derivationEach :
    (es : List Expression) → (∀ t ∈ textsEach es, ofAtom t = .text t) →
    Derivation.formEach (derivationEach es) = identifyNaNEach es
  | [], _ => rfl
  | e :: es, hTexts =>
    congrArg₂ List.cons (form_derivation e fun t hMem => hTexts t (List.mem_append_left _ hMem))
      (formEach_derivationEach es fun t hMem => hTexts t (List.mem_append_right _ hMem))

end

mutual

/-- No symbol or string is changed by identifying NaNs. -/
theorem texts_identifyNaN : (e : Expression) → e.identifyNaN.texts = e.texts
  | .integer _ | .float _ | .text _ | .boolean _ => rfl
  | .list es => textsEach_identifyNaNEach es

theorem textsEach_identifyNaNEach : (es : List Expression) →
    textsEach (identifyNaNEach es) = textsEach es
  | [] => rfl
  | e :: es => congrArg₂ (· ++ ·) (texts_identifyNaN e) (textsEach_identifyNaNEach es)

end

mutual

/-- Nor is a list. -/
theorem height_identifyNaN : (e : Expression) → e.identifyNaN.height = e.height
  | .integer _ | .float _ | .text _ | .boolean _ => rfl
  | .list es => congrArg (· + 1) (heightEach_identifyNaNEach es)

theorem heightEach_identifyNaNEach : (es : List Expression) →
    heightEach (identifyNaNEach es) = heightEach es
  | [] => rfl
  | e :: es => congrArg₂ max (height_identifyNaN e) (heightEach_identifyNaNEach es)

end

theorem reserved?_cases {token : String} {e : Expression} (hReserved : reserved? token = some e) :
    e.identifyNaN = e ∧ e.texts = [] := by
  unfold reserved? at hReserved
  split_ifs at hReserved <;> cases hReserved <;> exact ⟨rfl, rfl⟩

/-- An atom stands for itself, or for a leaf without text and without a sign on what is not a
number. -/
theorem ofAtom_cases (text : String) :
    (ofAtom text).identifyNaN = ofAtom text ∧ (ofAtom text).texts = [] ∨
      ofAtom text = .text text := by
  unfold ofAtom
  split
  · exact .inl ⟨rfl, rfl⟩
  · split
    · rename_i hFloat
      obtain ⟨d, -, rfl⟩ := Option.map_eq_some_iff.1 hFloat
      exact .inl ⟨rfl, rfl⟩
    · cases hReserved : reserved? text with
      | some e => exact .inl (reserved?_cases hReserved)
      | none => exact .inr rfl

end Expression

namespace Derivation

open Expression (texts textsEach identifyNaN identifyNaNEach ofAtom ofAtom_cases)

mutual

/-- What is read has one NaN only. -/
theorem identifyNaN_form : (d : Derivation) → d.form.identifyNaN = d.form
  | .atom text => by
    rcases ofAtom_cases text with ⟨hSame, -⟩ | hText
    · exact hSame
    · rw [form, hText]
      rfl
  | .list ds => congrArg Expression.list (identifyNaNEach_formEach ds)

theorem identifyNaNEach_formEach : (ds : List Derivation) →
    identifyNaNEach (formEach ds) = formEach ds
  | [] => rfl
  | d :: ds => congrArg₂ List.cons (identifyNaN_form d) (identifyNaNEach_formEach ds)

end

mutual

/-- The text atoms of a tree are tokens that stand for themselves. -/
theorem mem_texts_form : (d : Derivation) → {t : String} → t ∈ d.form.texts →
    .atom t ∈ d.tokens ∧ ofAtom t = .text t
  | .atom text, t, hMem => by
    rw [form] at hMem
    rcases ofAtom_cases text with ⟨-, hNone⟩ | hText
    · rw [hNone] at hMem
      cases hMem
    · rw [hText] at hMem
      cases List.mem_singleton.1 hMem
      exact ⟨List.mem_singleton_self _, hText⟩
  | .list ds, t, hMem => by
    obtain ⟨hToken, hText⟩ := mem_textsEach_formEach ds hMem
    exact ⟨List.mem_cons_of_mem _ (List.mem_append_left _ hToken), hText⟩

theorem mem_textsEach_formEach :
    (ds : List Derivation) → {t : String} → t ∈ textsEach (formEach ds) →
    .atom t ∈ tokensEach ds ∧ ofAtom t = .text t
  | d :: ds, t, hMem => by
    rcases List.mem_append.1 hMem with hFirst | hRest
    · obtain ⟨hToken, hText⟩ := mem_texts_form d hFirst
      exact ⟨List.mem_append_left _ hToken, hText⟩
    · obtain ⟨hToken, hText⟩ := mem_textsEach_formEach ds hRest
      exact ⟨List.mem_append_right _ hToken, hText⟩

end

end Derivation

namespace Reader

open Expression (ofAtom)

/-- Writing a form whose text atoms are words that stand for themselves, and reading it. -/
theorem parse_render {options : Options} {e : Expression}
    (hTexts : ∀ t ∈ e.texts, Token.IsWord options.comments t ∧ ofAtom t = .text t)
    (hWithin : Within options.maxNesting e.height) :
    parse options e.render = .ok e.identifyNaN := by
  rw [parse_eq_ok_iff_readForm, Token.scan_render fun t hMem => (hTexts t hMem).1,
    readForm_eq_ok_iff]
  refine ⟨e.derivation, (List.append_nil _).symm, e.form_derivation
    fun t hMem => (hTexts t hMem).2, ?_⟩
  rwa [e.height_identifyNaN]

/-- What can be said of every form that was read. -/
theorem of_parse_eq_ok {options : Options} {text : String} {e : Expression}
    (hRead : parse options text = .ok e) :
    e.identifyNaN = e ∧ (∀ t ∈ e.texts, Token.IsWord options.comments t ∧ ofAtom t = .text t) ∧
      Within options.maxNesting e.height := by
  rw [parse_eq_ok_iff_readForm, readForm_eq_ok_iff] at hRead
  obtain ⟨d, hTokens, rfl, hWithin⟩ := hRead
  rw [List.append_nil] at hTokens
  refine ⟨d.identifyNaN_form, fun t hMem => ?_, hWithin⟩
  obtain ⟨hToken, hText⟩ := d.mem_texts_form hMem
  exact ⟨Token.isWord_of_mem_scan (hTokens ▸ hToken), hText⟩

/-- The text of a form is read back as the form, up to the sign of what is not a number, exactly if
each of its text atoms is a token that stands for itself. The text of a form that was read is always
read back as the same form, with the same options. -/
theorem reads_render :
    (∀ e : Expression,
      (∃ e', parse {} e.render = .ok e' ∧ e'.identifyNaN = e.identifyNaN) ↔
        ∀ t ∈ e.texts, t ≠ "" ∧ (∀ c ∈ t.toList, isBlank c = false ∧ c ≠ '(' ∧ c ≠ ')') ∧
          ofAtom t = .text t) ∧
    (∀ (options : Options) (text : String) (e : Expression),
      parse options text = .ok e → parse options e.render = .ok e) := by
  refine ⟨fun e => ?_, fun options text e hRead => ?_⟩
  · have hToken (t : String) :
        (t ≠ "" ∧ (∀ c ∈ t.toList, isBlank c = false ∧ c ≠ '(' ∧ c ≠ ')') ∧ ofAtom t = .text t) ↔
          Token.IsWord false t ∧ ofAtom t = .text t := by
      rw [Token.isWord_false_iff, and_assoc]
    simp only [hToken]
    constructor
    · rintro ⟨e', hRead, hSame⟩ t hMem
      rw [← e.texts_identifyNaN, ← hSame, e'.texts_identifyNaN] at hMem
      exact (of_parse_eq_ok hRead).2.1 t hMem
    · intro hTexts
      have hRead : parse {} e.render = .ok e.identifyNaN :=
        parse_render hTexts fun _ hLimit => by cases hLimit
      exact ⟨e.identifyNaN, hRead, (of_parse_eq_ok hRead).1⟩
  · obtain ⟨hSame, hTexts, hWithin⟩ := of_parse_eq_ok hRead
    rw [parse_render hTexts hWithin, hSame]

end Reader

end EmbeddedLisp
