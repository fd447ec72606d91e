import EmbeddedLisp.Reader
import Mathlib.Logic.Function.Basic
import Mathlib.Tactic.SplitIfs

/-! The grammar of forms, `form ::= atom | '(' form* ')'`, by its derivations. The reader accepts
exactly the tokens that have a derivation within the limit of nesting, and builds exactly the tree
of it. No sequence of tokens has two derivations. -/
namespace EmbeddedLisp

namespace Expression

mutual

/-- How deeply the lists of a form are nested. -/
def height : Expression → Nat
  | .list elements => heightEach elements + 1
  | _ => 0

def heightEach : List Expression → Nat
  | [] => 0
  | e :: rest => max e.height (heightEach rest)

end

/-- An atom has no lists in it. -/
theorem height_ofAtom (text : String) : (ofAtom text).height = 0 := by
  unfold ofAtom reserved?
  split
  · rfl
  · split
    · rfl
    · split_ifs <;> rfl

/-- A bound on the heights of the elements is a bound on each. -/
theorem heightEach_le_iff {es : List Expression} {n : Nat} :
    heightEach es ≤ n ↔ ∀ e ∈ es, e.height ≤ n := by
  induction es with
  | nil => simp [heightEach]
  | cons e rest ih => rw [heightEach, Nat.max_le, ih, List.forall_mem_cons]

end Expression

/-- A derivation of a form. An atom is a token that is no parenthesis. -/
inductive Derivation where
  | atom (text : String)
  | list (forms : List Derivation)

namespace Derivation

mutual

/-- The tokens that are derived, in their order. -/
def tokens : Derivation → List Token
  | .atom text => [.atom text]
  | .list forms => .opening :: (tokensEach forms ++ [.closing])

def tokensEach : List Derivation → List Token
  | [] => []
  | d :: rest => d.tokens ++ tokensEach rest

end

mutual

/-- The tree of a derivation, in which an atom is what its text stands for. -/
def form : Derivation → Expression
  | .atom text => .ofAtom text
  | .list forms => .list (formEach forms)

def formEach : List Derivation → List Expression
  | [] => []
  | d :: rest => d.form :: formEach rest

end

/-- The tokens of derivations are those of each, one after another. -/
theorem tokensEach_eq_flatMap (ds : List Derivation) : tokensEach ds = ds.flatMap tokens := by
  induction ds with
  | nil => rfl
  | cons d rest ih => rw [tokensEach, List.flatMap_cons, ih]

theorem formEach_eq_map (ds : List Derivation) : formEach ds = ds.map form := by
  induction ds with
  | nil => rfl
  | cons d rest ih => rw [formEach, List.map_cons, ih]

/-- No derivation begins with a closing parenthesis. -/
theorem tokens_ne_closing (d : Derivation) (rest rest' : List Token) :
    d.tokens ++ rest ≠ .closing :: rest' := by
  cases d <;> simp [tokens]

mutual

/-- The tokens of one form are no beginning of those of another. -/
theorem tokens_append_inj : (d d' : Derivation) → {rest rest' : List Token} →
    d.tokens ++ rest = d'.tokens ++ rest' → d = d' ∧ rest = rest'
  | .atom text, .atom text', rest, rest', hSame => by simpa [tokens] using hSame
  | .atom text, .list ds', rest, rest', hSame => by simp [tokens] at hSame
  | .list ds, .atom text', rest, rest', hSame => by simp [tokens] at hSame
  | .list ds, .list ds', rest, rest', hSame => by
    simp only [tokens, List.cons_append, List.append_assoc, List.cons.injEq, true_and,
      List.nil_append] at hSame
    obtain ⟨rfl, rfl⟩ := tokensEach_append_inj ds ds' hSame
    exact ⟨rfl, rfl⟩

/-- The closing parenthesis shows where the elements end. -/
theorem tokensEach_append_inj : (ds ds' : List Derivation) → {rest rest' : List Token} →
    tokensEach ds ++ .closing :: rest = tokensEach ds' ++ .closing :: rest' →
      ds = ds' ∧ rest = rest'
  | [], [], rest, rest', hSame => by simpa [tokensEach] using hSame
  | [], d' :: ds', rest, rest', hSame => by
    simp only [tokensEach, List.append_assoc] at hSame
    exact (d'.tokens_ne_closing _ _ hSame.symm).elim
  | d :: ds, [], rest, rest', hSame => by
    simp only [tokensEach, List.append_assoc] at hSame
    exact (d.tokens_ne_closing _ _ hSame).elim
  | d :: ds, d' :: ds', rest, rest', hSame => by
    simp only [tokensEach, List.append_assoc] at hSame
    obtain ⟨rfl, hRest⟩ := tokens_append_inj d d' hSame
    obtain ⟨rfl, rfl⟩ := tokensEach_append_inj ds ds' hRest
    exact ⟨rfl, rfl⟩

end

/-- Tokens have one derivation at most. -/
theorem tokens_injective : Function.Injective tokens := fun d d' hSame =>
  (tokens_append_inj d d' (congrArg (· ++ []) hSame)).1

/-- The tokens of a program are divided into forms in one way only. -/
theorem tokensEach_injective : Function.Injective tokensEach := fun ds ds' hSame =>
  (tokensEach_append_inj ds ds' (congrArg (· ++ [.closing]) hSame)).1

end Derivation

namespace Reader

open EmbeddedLisp.Derivation
open Expression (height heightEach heightEach_le_iff)

/-- A nesting that a limit allows, if there is a limit. -/
def Within (maxNesting : Option Nat) (nesting : Nat) : Prop := ∀ limit ∈ maxNesting, nesting ≤ limit

/-- A smaller depth is within the limit as well. -/
theorem Within.mono {maxNesting : Option Nat} {n n' : Nat} (hLe : n ≤ n')
    (hWithin : Within maxNesting n') : Within maxNesting n :=
  fun limit hLimit => Nat.le_trans hLe (hWithin limit hLimit)

/-- A list may be opened when one level more is within the limit. -/
theorem exceeded?_eq_none_iff {maxNesting : Option Nat} {depth : Nat} :
    exceeded? maxNesting depth = none ↔ Within maxNesting (depth + 1) := by
  simp only [exceeded?, Option.filter_eq_none_iff, decide_eq_true_eq, Nat.not_le]
  exact Iff.rfl

/-- Goes on behind a form that is complete. It is the result, or an element of the innermost list
that is open. -/
def continueWith (maxNesting : Option Nat) :
    (unfinished : List (List Expression)) → Expression → List Token →
      Except (Failure × List Token) (Expression × List Token)
  | [], e, rest => .ok (e, rest)
  | elements :: outer, e, rest => readForm maxNesting ((e :: elements) :: outer) rest

section

variable {maxNesting : Option Nat}

/-- An atom is a form of its own, with which reading goes on. -/
theorem readForm_atom (unfinished : List (List Expression)) (text : String) (rest : List Token) :
    readForm maxNesting unfinished (.atom text :: rest) =
      continueWith maxNesting unfinished (.ofAtom text) rest := by
  cases unfinished <;> rfl

/-- A closing parenthesis finishes the innermost list. -/
theorem readForm_closing (elements : List Expression) (outer : List (List Expression))
    (rest : List Token) :
    readForm maxNesting (elements :: outer) (.closing :: rest) =
      continueWith maxNesting outer (.list elements.reverse) rest := by
  cases outer <;> rfl

/-- An opening parenthesis is refused at the limit, and begins a list below it. -/
theorem readForm_opening (unfinished : List (List Expression)) (rest : List Token) :
    readForm maxNesting unfinished (.opening :: rest) =
      match exceeded? maxNesting unfinished.length with
      | some limit => .error (.tooDeep limit, .opening :: rest)
      | none => readForm maxNesting ([] :: unfinished) rest := by
  cases unfinished <;> rfl

theorem readForm_opening_of_within {unfinished : List (List Expression)}
    (hWithin : Within maxNesting (unfinished.length + 1)) (rest : List Token) :
    readForm maxNesting unfinished (.opening :: rest) =
      readForm maxNesting ([] :: unfinished) rest := by
  rw [readForm_opening, exceeded?_eq_none_iff.2 hWithin]

theorem within_of_readForm_opening {unfinished : List (List Expression)} {rest : List Token}
    {result : Expression × List Token}
    (hRead : readForm maxNesting unfinished (.opening :: rest) = .ok result) :
    Within maxNesting (unfinished.length + 1) := by
  rw [readForm_opening] at hRead
  rw [← exceeded?_eq_none_iff]
  cases hExceeded : exceeded? maxNesting unfinished.length with
  | none => rfl
  | some limit =>
    rw [hExceeded] at hRead
    cases hRead

mutual

/-- Every derived sequence of tokens is read as the tree of its derivation. -/
theorem readForm_tokens : (d : Derivation) → (unfinished : List (List Expression)) →
    (rest : List Token) → Within maxNesting (unfinished.length + d.form.height) →
    readForm maxNesting unfinished (d.tokens ++ rest) =
      continueWith maxNesting unfinished d.form rest
  | .atom text, unfinished, rest, _ => readForm_atom unfinished text rest
  | .list ds, unfinished, rest, hWithin => by
    simp only [form, height] at hWithin
    simp only [Derivation.tokens, List.cons_append, List.append_assoc, List.nil_append]
    rw [readForm_opening_of_within (hWithin.mono (by omega)),
      readForm_tokensEach ds [] unfinished rest (hWithin.mono (by omega))]
    rfl

/-- Reading elements finishes the list they are in. -/
theorem readForm_tokensEach : (ds : List Derivation) → (elements : List Expression) →
    (outer : List (List Expression)) → (rest : List Token) →
    Within maxNesting (outer.length + 1 + heightEach (formEach ds)) →
    readForm maxNesting (elements :: outer) (tokensEach ds ++ .closing :: rest) =
      continueWith maxNesting outer (.list (elements.reverse ++ formEach ds)) rest
  | [], elements, outer, rest, _ => by
    rw [formEach, List.append_nil]
    exact readForm_closing elements outer rest
  | d :: ds, elements, outer, rest, hWithin => by
    simp only [formEach, heightEach] at hWithin
    rw [tokensEach, List.append_assoc,
      readForm_tokens d (elements :: outer) _
      (hWithin.mono (by simp only [List.length_cons]; omega)),
      continueWith, readForm_tokensEach ds (d.form :: elements) outer rest
      (hWithin.mono (by omega))]
    simp [formEach]

end

/-- What is read inside of a list are derived forms, up to the parenthesis that closes it. The
induction is on the number of tokens, since a nested list is read before the rest of the outer
one. -/
theorem exists_tokensEach {ts : List Token} {elements : List Expression}
    {outer : List (List Expression)} {result : Expression × List Token}
    (hWithin : Within maxNesting (outer.length + 1))
    (hRead : readForm maxNesting (elements :: outer) ts = .ok result) :
    ∃ ds rest, ts = tokensEach ds ++ .closing :: rest ∧
      Within maxNesting (outer.length + 1 + heightEach (formEach ds)) ∧
      continueWith maxNesting outer (.list (elements.reverse ++ formEach ds)) rest =
        .ok result := by
  induction hLength : ts.length using Nat.strongRecOn generalizing ts elements outer with
  | _ length ih =>
    subst hLength
    match ts with
    | [] => cases hRead
    | .closing :: rest =>
      rw [readForm_closing] at hRead
      exact ⟨[], rest, rfl, hWithin, by rwa [formEach, List.append_nil]⟩
    | .atom text :: rest =>
      rw [readForm_atom] at hRead
      obtain ⟨ds, rest', rfl, hFits, hContinue⟩ :=
        ih rest.length (Nat.lt_succ_self _) hWithin hRead rfl
      refine ⟨.atom text :: ds, rest', rfl, ?_, ?_⟩
      · apply hFits.mono
        simp only [formEach, form, heightEach, Expression.height_ofAtom, Nat.zero_max, Nat.le_refl]
      · simpa [formEach, form] using hContinue
    | .opening :: rest =>
      have hInner := within_of_readForm_opening hRead
      rw [readForm_opening_of_within hInner] at hRead
      obtain ⟨ds, rest', rfl, hFits, hContinue⟩ :=
        ih rest.length (Nat.lt_succ_self _) hInner hRead rfl
      have hShorter :
          rest'.length < (Token.opening :: (tokensEach ds ++ .closing :: rest')).length := by
        simp only [List.length_cons, List.length_append]
        omega
      obtain ⟨ds', rest'', rfl, hFits', hContinue'⟩ :=
        ih rest'.length hShorter hWithin hContinue rfl
      refine ⟨.list ds :: ds', rest'', ?_, ?_, ?_⟩
      · simp [tokensEach, Derivation.tokens]
      · intro limit hLimit
        have hLeft := hFits limit hLimit
        have hRight := hFits' limit hLimit
        simp only [formEach, form, heightEach, height, List.length_cons] at hLeft hRight ⊢
        omega
      · simpa [formEach, form] using hContinue'

/-- Reading a form takes the tokens of a derivation off the front, and makes its tree. -/
theorem readForm_eq_ok_iff {ts rest : List Token} {e : Expression} :
    readForm maxNesting [] ts = .ok (e, rest) ↔
      ∃ d : Derivation, ts = d.tokens ++ rest ∧ d.form = e ∧ Within maxNesting e.height := by
  constructor
  · intro hRead
    match ts with
    | [] => cases hRead
    | .closing :: _ => cases hRead
    | .atom text :: _ =>
      cases hRead
      exact ⟨.atom text, rfl, rfl, fun limit _ => by simp [Expression.height_ofAtom]⟩
    | .opening :: _ =>
      have hWithin := within_of_readForm_opening hRead
      rw [readForm_opening_of_within hWithin] at hRead
      obtain ⟨ds, rest, rfl, hFits, hContinue⟩ := exists_tokensEach hWithin hRead
      cases hContinue
      refine ⟨.list ds, by simp [Derivation.tokens], rfl, hFits.mono ?_⟩
      simp only [height, List.reverse_nil, List.nil_append, List.length_nil]
      omega
  · rintro ⟨d, rfl, rfl, hWithin⟩
    exact readForm_tokens d [] rest (hWithin.mono (by simp))

end

theorem parse_eq_ok_iff_readForm {options : Options} {text : String} {e : Expression} :
    parse options text = .ok e ↔
      readForm options.maxNesting [] (Token.scan options.comments text) = .ok (e, []) := by
  simp only [parse, read, ofText]
  cases readForm options.maxNesting [] (Token.scan options.comments text) with
  | error failure => simp
  | ok result =>
    obtain ⟨e', rest⟩ := result
    cases rest <;> simp [isExhausted]

theorem next?_of_nil {r : Reader} (hRest : r.rest = []) : r.next? = none := by
  simp [next?, isExhausted, hRest]

theorem next?_of_ok {r : Reader} {e : Expression} {rest : List Token}
    (hRead : readForm r.maxNesting [] r.rest = .ok (e, rest)) :
    r.next? = some (.ok e, { r with rest }) := by
  have hRest : r.isExhausted = false := by
    cases hTokens : r.rest with
    | nil =>
      rw [hTokens] at hRead
      cases hRead
    | cons => simp [isExhausted, hTokens]
  simp [next?, hRest, read, hRead]

theorem next?_of_error {r : Reader} {failure : Failure} {rest : List Token} (hRest : r.rest ≠ [])
    (hRead : readForm r.maxNesting [] r.rest = .error (failure, rest)) :
    r.next? = some (.error ({ r with rest }.errorAt failure), { r with rest := [] }) := by
  simp [next?, isExhausted, hRest, read, hRead]

theorem items_of_none {r : Reader} (hNext : r.next? = none) : r.items = [] := by
  rw [items]
  split
  · rfl
  · rename_i hSome
    cases hNext.symm.trans hSome

/-- The items of a reader are its next one and those of the reader after it. -/
theorem items_of_some {r after : Reader} {result : Except SyntaxError Expression}
    (hNext : r.next? = some (result, after)) : r.items = result :: after.items := by
  rw [items]
  split
  · rename_i hNone
    cases hNext.symm.trans hNone
  · rename_i hSome
    cases hNext.symm.trans hSome
    rfl

theorem items_mapM_of_ok {r after : Reader} {e : Expression} {es : List Expression}
    (hNext : r.next? = some (.ok e, after)) :
    r.items.mapM id = .ok es ↔ ∃ es', after.items.mapM id = .ok es' ∧ es = e :: es' := by
  rw [items_of_some hNext, List.mapM_cons]
  simp only [id_eq, bind, Except.bind]
  cases after.items.mapM id with
  | error error => simp
  | ok es' => simp [pure, Except.pure, eq_comm]

/-- What is derived form by form is read form by form. -/
theorem items_of_tokensEach (ds : List Derivation) {r : Reader} (hRest : r.rest = tokensEach ds)
    (hWithin : Within r.maxNesting (heightEach (formEach ds))) :
    r.items.mapM id = .ok (formEach ds) := by
  induction ds generalizing r with
  | nil =>
    rw [items_of_none (next?_of_nil hRest)]
    rfl
  | cons d ds ih =>
    have hRead : readForm r.maxNesting [] r.rest = .ok (d.form, tokensEach ds) := by
      rw [hRest, readForm_eq_ok_iff]
      exact ⟨d, rfl, rfl, hWithin.mono (Nat.le_max_left _ _)⟩
    rw [items_mapM_of_ok (next?_of_ok hRead)]
    exact ⟨formEach ds, ih rfl (hWithin.mono (Nat.le_max_right _ _)), rfl⟩

/-- Forms that are read without an error have derivations, by induction on the forms. -/
theorem exists_tokensEach_of_items {r : Reader} {es : List Expression}
    (hItems : r.items.mapM id = .ok es) :
    ∃ ds, r.rest = tokensEach ds ∧ formEach ds = es ∧ Within r.maxNesting (heightEach es) := by
  induction hLength : r.rest.length using Nat.strongRecOn generalizing r es with
  | _ length ih =>
    subst hLength
    cases hRead : readForm r.maxNesting [] r.rest with
    | error failure =>
      obtain ⟨failure, rest⟩ := failure
      by_cases hRest : r.rest = []
      · rw [items_of_none (next?_of_nil hRest)] at hItems
        cases hItems
        exact ⟨[], hRest, rfl, fun limit _ => Nat.zero_le limit⟩
      · rw [items_of_some (next?_of_error hRest hRead)] at hItems
        cases hItems
    | ok result =>
      obtain ⟨e, rest⟩ := result
      have hNext := next?_of_ok hRead
      obtain ⟨es', hRestItems, rfl⟩ := (items_mapM_of_ok hNext).1 hItems
      obtain ⟨d, hRest, rfl, hWithin⟩ := readForm_eq_ok_iff.1 hRead
      obtain ⟨ds, rfl, rfl, hWithin'⟩ := ih _ (next?_shorter hNext) hRestItems rfl
      exact ⟨d :: ds, hRest, rfl, fun limit hLimit =>
        Nat.max_le.2 ⟨hWithin limit hLimit, hWithin' limit hLimit⟩⟩

/-- A program is read as the forms its tokens derive, and in no other case. -/
theorem items_eq_ok_iff {r : Reader} {es : List Expression} :
    r.items.mapM id = .ok es ↔
      ∃ ds, r.rest = tokensEach ds ∧ formEach ds = es ∧ Within r.maxNesting (heightEach es) := by
  refine ⟨exists_tokensEach_of_items, ?_⟩
  rintro ⟨ds, hRest, rfl, hWithin⟩
  exact items_of_tokensEach ds hRest hWithin

/-- The reader accepts exactly the grammar and builds exactly its trees, for a single form and for
all forms of a text, and the derivation is unique in either case. -/
theorem reads_derivations (options : Options) (text : String) :
    (∀ e, parse options text = .ok e ↔
      ∃ d : Derivation, d.tokens = Token.scan options.comments text ∧ d.form = e ∧
        ∀ limit ∈ options.maxNesting, e.height ≤ limit) ∧
    (∀ es, parseProgram options text = .ok es ↔
      ∃ ds : List Derivation, ds.flatMap Derivation.tokens = Token.scan options.comments text ∧
        ds.map form = es ∧ ∀ limit ∈ options.maxNesting, ∀ e ∈ es, e.height ≤ limit) ∧
    Function.Injective Derivation.tokens ∧
    Function.Injective fun ds : List Derivation => ds.flatMap Derivation.tokens := by
  refine ⟨fun e => ?_, fun es => ?_, tokens_injective, ?_⟩
  · rw [parse_eq_ok_iff_readForm, readForm_eq_ok_iff]
    simp only [List.append_nil, eq_comm, Within]
  · rw [parseProgram, items_eq_ok_iff]
    simp only [ofText, tokensEach_eq_flatMap, formEach_eq_map, Within, heightEach_le_iff, eq_comm]
  · simpa only [← tokensEach_eq_flatMap] using tokensEach_injective

end Reader

end EmbeddedLisp
