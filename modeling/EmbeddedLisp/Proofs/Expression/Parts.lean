import EmbeddedLisp.Proofs.Expression.Texts

/-! Parts of forms: a form itself, its elements, their elements, and so on. -/
namespace EmbeddedLisp.Expression

/-- Whether a form stands in another one, at any depth, or is that form. -/
inductive PartOf : Expression → Expression → Prop where
  | whole (e : Expression) : PartOf e e
  | element {e whole : Expression} {elements : List Expression}
      (hOuter : PartOf (.list elements) whole) (hMem : e ∈ elements) : PartOf e whole

/-- Whether a form is a part of one of several forms. -/
def Inside (forms : List Expression) (e : Expression) : Prop := ∃ form ∈ forms, e.PartOf form

namespace PartOf

variable {e middle whole : Expression}

/-- A part of a part is a part. -/
theorem trans (hInner : e.PartOf middle) (hOuter : middle.PartOf whole) : e.PartOf whole := by
  induction hInner with
  | whole => exact hOuter
  | element _ hMem ih => exact .element (ih hOuter) hMem

/-- The texts in a part are texts of the whole. -/
theorem texts (hPart : e.PartOf whole) {t : String} (hText : t ∈ e.texts) : t ∈ whole.texts := by
  induction hPart with
  | whole => exact hText
  | element _ hMem ih => exact ih (mem_textsEach_iff.2 ⟨_, hMem, hText⟩)

end PartOf

namespace Inside

variable {forms elements : List Expression} {e : Expression}

theorem of_mem (hMem : e ∈ forms) : Inside forms e := ⟨e, hMem, .whole e⟩

theorem element (hOuter : Inside forms (.list elements)) (hMem : e ∈ elements) :
    Inside forms e := by
  obtain ⟨form, hForm, hPart⟩ := hOuter
  exact ⟨form, hForm, .element hPart hMem⟩

/-- What is inside of the elements of a list is a part of it. -/
theorem partOf (hInside : Inside elements e) : e.PartOf (.list elements) := by
  obtain ⟨form, hForm, hPart⟩ := hInside
  exact hPart.trans (.element (.whole _) hForm)

end Inside

end EmbeddedLisp.Expression
