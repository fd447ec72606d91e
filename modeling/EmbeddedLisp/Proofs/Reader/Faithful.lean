import EmbeddedLisp.Procedure.Keyword
import EmbeddedLisp.Proofs.Expression.Parts
import EmbeddedLisp.Proofs.Reader.Continuation
import EmbeddedLisp.Proofs.Reader.RoundTrip

/-! Faithful forms: those that are read back from their text. All forms that were read are faithful,
and so are their parts and the bodies that are made of them. -/
namespace EmbeddedLisp

open Expression (PartOf identifyNaN identifyNaNEach ofAtom)
open Reader (Options Within)

/-- A word is a word for a reader without comments as well. -/
theorem Token.IsWord.plain {comments : Bool} {text : String} (hWord : IsWord comments text) :
    IsWord false text := by
  refine ⟨hWord.1, fun c hMem => ?_⟩
  have hRole := hWord.2 c hMem
  simp only [roleOf] at hRole ⊢
  split_ifs at hRole ⊢ <;> simp_all

namespace Expression

theorem identifyNaN_of_mem {elements : List Expression}
    (hList : (Expression.list elements).identifyNaN = .list elements) {e : Expression}
    (hMem : e ∈ elements) :
    e.identifyNaN = e := by
  have hEach : identifyNaNEach elements = elements := Expression.list.inj hList
  clear hList
  induction elements with
  | nil => cases hMem
  | cons first rest ih =>
    obtain ⟨hFirst, hRest⟩ := List.cons.inj hEach
    rcases List.mem_cons.1 hMem with rfl | hMem
    · exact hFirst
    · exact ih hMem hRest

/-- A part is no higher than the whole. -/
theorem PartOf.height_le {e whole : Expression} (hPart : e.PartOf whole) :
    e.height ≤ whole.height := by
  induction hPart with
  | whole => exact Nat.le_refl _
  | element _ hMem ih =>
    have hElement := heightEach_le_iff.1 (Nat.le_refl _) _ hMem
    rw [height] at ih
    omega

/-- Whether a form is the same with its signs on what is not a number identified, and its text atoms
are words that stand for themselves. -/
structure Faithful (comments : Bool) (e : Expression) : Prop where
  unsigned : e.identifyNaN = e
  words : ∀ t ∈ e.texts, Token.IsWord comments t ∧ ofAtom t = .text t

namespace Faithful

variable {comments : Bool} {e whole : Expression} {options : Options}

/-- What has been read is faithful. -/
theorem of_parse {text : String} (hRead : Reader.parse options text = .ok e) :
    Faithful options.comments e :=
  have hParsed := Reader.of_parse_eq_ok hRead
  ⟨hParsed.1, hParsed.2.1⟩

/-- Of the forms that a reader gives one after another each is faithful, and within the limit of
nesting. -/
theorem of_mem_items {text : String} (hMem : .ok e ∈ (Reader.ofText options text).items) :
    Faithful options.comments e ∧ Within options.maxNesting e.height := by
  obtain ⟨ds, rest, hTokens, hWithin, hHalts⟩ :=
    Reader.exists_derivations options.maxNesting (Token.scan options.comments text)
  rw [Reader.items_of_derivations (r := Reader.ofText options text) ds hTokens hWithin,
    List.mem_append] at hMem
  have hForm : e ∈ Derivation.formEach ds := by
    rcases hMem with hForms | hEnd
    · simpa using hForms
    · rcases hHalts with rfl | ⟨failure, stopped, hSome, hRead⟩
      · rw [Reader.items_of_none (Reader.next?_of_nil rfl)] at hEnd
        cases hEnd
      · rw [Reader.items_of_error hSome hRead] at hEnd
        simp at hEnd
  refine ⟨⟨?_, fun t hText => ?_⟩, hWithin.mono (heightEach_le_iff.1 (Nat.le_refl _) e hForm)⟩
  · exact identifyNaN_of_mem (congrArg Expression.list (Derivation.identifyNaNEach_formEach ds))
      hForm
  · obtain ⟨hToken, hSelf⟩ :=
      Derivation.mem_textsEach_formEach ds (mem_textsEach_iff.2 ⟨e, hForm, hText⟩)
    exact ⟨Token.isWord_of_mem_scan (hTokens ▸ List.mem_append_left _ hToken), hSelf⟩

theorem plain (h : Faithful comments e) : Faithful false e :=
  ⟨h.unsigned, fun t hMem => (h.words t hMem).imp_left Token.IsWord.plain⟩

/-- The parts of a faithful form are faithful. -/
theorem part (h : Faithful comments whole) (hPart : e.PartOf whole) : Faithful comments e := by
  refine ⟨?_, fun t hMem => h.words t (hPart.texts hMem)⟩
  induction hPart with
  | whole => exact h.unsigned
  | element _ hMem ih => exact identifyNaN_of_mem (ih h) hMem

/-- The form that evaluates faithful forms in turn. -/
theorem joined {forms : List Expression} (hEach : ∀ e ∈ forms, Faithful false e) :
    Faithful false (.list (.text Keyword.sequence.name :: forms)) := by
  have hSame : identifyNaNEach forms = forms := by
    induction forms with
    | nil => rfl
    | cons e rest ih =>
      obtain ⟨hFirst, hRest⟩ := List.forall_mem_cons.1 hEach
      simp only [identifyNaNEach, hFirst.unsigned, ih hRest]
  refine ⟨by simp only [identifyNaN, identifyNaNEach, hSame], fun t hMem => ?_⟩
  rcases List.mem_append.1 hMem with hBegin | hForms
  · cases List.mem_singleton.1 hBegin
    exact ⟨by decide, rfl⟩
  · obtain ⟨e, hForm, hText⟩ := mem_textsEach_iff.1 hForms
    exact (hEach e hForm).words t hText

/-- A faithful form is read back from its text, within the limit on nesting. -/
theorem parse (h : Faithful options.comments e) (hWithin : Within options.maxNesting e.height) :
    Reader.parse options e.render = .ok e := by
  rw [Reader.parse_render h.words hWithin, h.unsigned]

end Faithful

end Expression

end EmbeddedLisp
