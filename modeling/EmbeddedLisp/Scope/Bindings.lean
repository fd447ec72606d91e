/-! Bindings of names. They are kept in increasing order of the names, so each name is bound at most
once and a listing needs no sorting. -/
namespace EmbeddedLisp

/-- What is bound to each name, in increasing order of names. -/
structure Bindings (α : Type) where
  entries : List (String × α)
  increasing : entries.Pairwise fun a b => a.1 < b.1

namespace Bindings

variable {α : Type}

def empty : Bindings α := ⟨[], .nil⟩

instance : Inhabited (Bindings α) := ⟨empty⟩

def find? (b : Bindings α) (name : String) : Option α :=
  (b.entries.find? (·.1 = name)).map (·.2)

def binds (b : Bindings α) (name : String) : Bool := (b.find? name).isSome

def names (b : Bindings α) : List String := b.entries.map (·.1)

/-- Puts an entry in its place among others, where it replaces one of the same name. -/
def put (name : String) (a : α) : List (String × α) → List (String × α)
  | [] => [(name, a)]
  | (other, b) :: rest =>
    if name < other then (name, a) :: (other, b) :: rest
    else if name = other then (name, a) :: rest
    else (other, b) :: put name a rest

theorem name_of_mem_put {name : String} {a : α} {entries : List (String × α)} {x : String × α}
    (hMem : x ∈ put name a entries) : x.1 = name ∨ x ∈ entries := by
  induction entries with
  | nil =>
    left
    simp_all [put]
  | cons entry rest ih =>
    unfold put at hMem
    split at hMem
    · rcases List.mem_cons.1 hMem with rfl | hRest
      · exact .inl rfl
      · exact .inr hRest
    · split at hMem
      · rcases List.mem_cons.1 hMem with rfl | hRest
        · exact .inl rfl
        · exact .inr (List.mem_cons_of_mem _ hRest)
      · rcases List.mem_cons.1 hMem with rfl | hRest
        · exact .inr List.mem_cons_self
        · exact (ih hRest).imp_right (List.mem_cons_of_mem _)

/-- Entries stay in order, and no name is entered twice. -/
theorem put_increasing (name : String) (a : α) {entries : List (String × α)}
    (hEntries : entries.Pairwise fun a b => a.1 < b.1) :
    (put name a entries).Pairwise fun a b => a.1 < b.1 := by
  induction entries with
  | nil => exact List.pairwise_singleton _ _
  | cons entry rest ih =>
    obtain ⟨hFirst, hRest⟩ := List.pairwise_cons.1 hEntries
    unfold put
    split
    · rename_i hLess
      refine List.pairwise_cons.2 ⟨fun x hMem => ?_, hEntries⟩
      rcases List.mem_cons.1 hMem with rfl | hMem
      · exact hLess
      · exact String.lt_trans hLess (hFirst x hMem)
    · rename_i hNotLess
      split
      · rename_i hSame
        subst hSame
        exact List.pairwise_cons.2 ⟨hFirst, hRest⟩
      · rename_i hDifferent
        have hGreater : entry.1 < name :=
          String.not_le.1 fun hLessOrEqual =>
            hDifferent (String.le_antisymm hLessOrEqual (String.not_lt.1 hNotLess))
        refine List.pairwise_cons.2 ⟨fun x hMem => ?_, ih hRest⟩
        rcases name_of_mem_put hMem with hName | hMem
        · exact hName ▸ hGreater
        · exact hFirst x hMem

/-- Binds a name, in place of what it was bound to. -/
def insert (b : Bindings α) (name : String) (a : α) : Bindings α :=
  ⟨put name a b.entries, put_increasing name a b.increasing⟩

/-- Adds entries one after another. The last one of a name counts. -/
def insertAll (b : Bindings α) (entries : List (String × α)) : Bindings α :=
  entries.foldl (fun bound entry => bound.insert entry.1 entry.2) b

/-- Of entries by the same name the last one counts. -/
def ofList (entries : List (String × α)) : Bindings α := empty.insertAll entries

@[simp] theorem find?_empty (name : String) : (empty : Bindings α).find? name = none := rfl

/-- A binding replaces the one before it and touches no other name. -/
theorem find?_insert (b : Bindings α) (name : String) (a : α) (sought : String) :
    (b.insert name a).find? sought = if name = sought then some a else b.find? sought := by
  obtain ⟨entries, increasing⟩ := b
  simp only [find?, insert]
  clear increasing
  induction entries with
  | nil => by_cases h : name = sought <;> simp [put, h]
  | cons entry rest ih =>
    unfold put
    by_cases h : name = sought
    · subst h
      split
      · simp
      · split
        · simp
        · rename_i hDifferent
          simpa [Ne.symm hDifferent] using ih
    · simp only [h, if_false] at ih ⊢
      split
      · simp [h]
      · split
        · rename_i hSame
          simp [h, ← hSame]
        · by_cases hHere : entry.1 = sought <;> simp [hHere, ih]

end Bindings

end EmbeddedLisp
