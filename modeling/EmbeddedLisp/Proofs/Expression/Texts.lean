import EmbeddedLisp.Expression

/-! The text atoms of a form, those of them that do not head a list, and those that do. -/
namespace EmbeddedLisp.Expression

mutual

/-- The text atoms of a form, in their order. -/
def texts : Expression → List String
  | .text token => [token]
  | .list elements => textsEach elements
  | _ => []

def textsEach : List Expression → List String
  | [] => []
  | e :: rest => e.texts ++ textsEach rest

end

mutual

/-- The text atoms of a form that are not the first elements of lists. -/
def loose : Expression → List String
  | .text token => [token]
  | .list (.text _ :: rest) => looseEach rest
  | .list elements => looseEach elements
  | _ => []

def looseEach : List Expression → List String
  | [] => []
  | e :: rest => e.loose ++ looseEach rest

end

mutual

/-- The text atoms of a form that are the first elements of lists. -/
def heads : Expression → List String
  | .list (.text token :: rest) => token :: headsEach rest
  | .list elements => headsEach elements
  | _ => []

def headsEach : List Expression → List String
  | [] => []
  | e :: rest => e.heads ++ headsEach rest

end

variable {name : String}

/-- The texts of the elements, one element after another. -/
theorem mem_textsEach_iff {elements : List Expression} :
    name ∈ textsEach elements ↔ ∃ e ∈ elements, name ∈ e.texts := by
  induction elements with
  | nil => simp [textsEach]
  | cons first rest ih => simp [textsEach, ih]

/-- The loose texts of the elements are those of any of them. -/
theorem mem_looseEach_iff {elements : List Expression} :
    name ∈ looseEach elements ↔ ∃ e ∈ elements, name ∈ e.loose := by
  induction elements with
  | nil => simp [looseEach]
  | cons first rest ih => simp [looseEach, ih]

theorem mem_headsEach_iff {elements : List Expression} :
    name ∈ headsEach elements ↔ ∃ e ∈ elements, name ∈ e.heads := by
  induction elements with
  | nil => simp [headsEach]
  | cons first rest ih => simp [headsEach, ih]

/-- The heads of a list are its own, if it has one, and those of its elements. -/
theorem mem_heads_of_mem {elements : List Expression} {e : Expression} (hMem : e ∈ elements)
    (hHead : name ∈ e.heads) : name ∈ (Expression.list elements).heads := by
  have hEach : name ∈ headsEach elements := mem_headsEach_iff.2 ⟨e, hMem, hHead⟩
  match elements with
  | .text token :: rest => exact List.mem_cons_of_mem token hEach
  | [] | .integer _ :: _ | .float _ :: _ | .boolean _ :: _ | .list _ :: _ => exact hEach

/-- What is loose in the elements behind the first one is loose in the list. -/
theorem mem_loose_of_rest (head : Expression) {rest : List Expression}
    (hLoose : name ∈ looseEach rest) :
    name ∈ (Expression.list (head :: rest)).loose := by
  cases head with
  | text => exact hLoose
  | _ => exact List.mem_append_right _ hLoose

mutual

/-- Loose texts are texts, by induction over the form. -/
theorem mem_texts_of_loose : (e : Expression) → name ∈ e.loose → name ∈ e.texts
  | .integer _, hLoose | .float _, hLoose | .text _, hLoose | .boolean _, hLoose | .list [],
    hLoose => hLoose
  | .list (.text _ :: rest), hLoose => List.mem_cons_of_mem _ (mem_textsEach_of_loose rest hLoose)
  | .list (.integer _ :: rest), hLoose | .list (.float _ :: rest), hLoose |
    .list (.boolean _ :: rest), hLoose => mem_textsEach_of_loose rest hLoose
  | .list (.list elements :: rest), hLoose => mem_textsEach_of_loose (.list elements :: rest) hLoose

theorem mem_textsEach_of_loose : (elements : List Expression) → name ∈ looseEach elements →
    name ∈ textsEach elements
  | [], hLoose => hLoose
  | e :: rest, hLoose => by
    rcases List.mem_append.1 hLoose with hFirst | hRest
    · exact List.mem_append_left _ (mem_texts_of_loose e hFirst)
    · exact List.mem_append_right _ (mem_textsEach_of_loose rest hRest)

end

end EmbeddedLisp.Expression
