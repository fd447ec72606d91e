import EmbeddedLisp.Proofs.Evaluation.Levels
import EmbeddedLisp.Proofs.Scope.Growth
import EmbeddedLisp.Proofs.Scope.Walks
import EmbeddedLisp.Proofs.Text.ByteOrder

/-! What is visible from a frame, as a listing. It is collected from the root down in a table, where
the entries of a frame replace those of the frames above it, and then sorted. A table gives its
entries in an order that nothing is known of. As there is one entry for each name, the listing does
not depend on it, and what stands in it is what can be looked up. -/
namespace EmbeddedLisp

open EmbeddedLisp.Action

namespace Bindings

variable {α : Type} {b c : Bindings α} {name : String} {a : α} {entries : List (String × α)}

theorem mem_entries_iff : (name, a) ∈ b.entries ↔ b.find? name = some a := by
  refine ⟨find?_of_mem, fun hFound => ?_⟩
  obtain ⟨⟨other, a'⟩, hEntry, rfl⟩ := Option.map_eq_some_iff.1 hFound
  have hName : other = name := by simpa using List.find?_some hEntry
  exact hName ▸ List.mem_of_find?_eq_some hEntry

theorem mem_names_iff : name ∈ b.names ↔ (b.find? name).isSome := by
  simp [names, ← mem_entries_iff, Option.isSome_iff_exists]

theorem find?_insertAll_of_notMem (b : Bindings α) (hNot : name ∉ entries.map Prod.fst) :
    (b.insertAll entries).find? name = b.find? name := by
  induction entries generalizing b with
  | nil => rfl
  | cons entry rest ih =>
    rw [List.map_cons, List.mem_cons, not_or] at hNot
    have hRest := ih (b.insert entry.1 entry.2) hNot.2
    rwa [find?_insert, if_neg (Ne.symm hNot.1)] at hRest

/-- Of entries with distinct names each is found, whatever was bound before. -/
theorem find?_insertAll_of_mem (b : Bindings α) (hDistinct : (entries.map Prod.fst).Nodup)
    (hMem : (name, a) ∈ entries) : (b.insertAll entries).find? name = some a := by
  induction entries generalizing b with
  | nil => cases hMem
  | cons entry rest ih =>
    obtain ⟨hFirst, hRest⟩ := List.nodup_cons.1 hDistinct
    rcases List.mem_cons.1 hMem with rfl | hMem
    · have hLater := find?_insertAll_of_notMem (b.insert name a) hFirst
      rwa [find?_insert, if_pos rfl] at hLater
    · exact ih (b.insert entry.1 entry.2) hRest hMem

/-- The entries of one table, put into another one in any order. -/
theorem find?_insertAll (b : Bindings α) (hEntries : entries.Perm c.entries) (name : String) :
    (b.insertAll entries).find? name = (c.find? name).or (b.find? name) := by
  have hNames : (entries.map Prod.fst).Perm c.names := hEntries.map _
  cases hFound : c.find? name with
  | some a =>
    exact find?_insertAll_of_mem b (hNames.nodup_iff.2 c.nodup_names)
      (hEntries.mem_iff.2 (mem_entries_iff.2 hFound))
  | none =>
    refine find?_insertAll_of_notMem b fun hMem => ?_
    rw [hNames.mem_iff, mem_names_iff, hFound] at hMem
    cases hMem

theorem nodup_entries (b : Bindings α) : b.entries.Nodup := b.nodup_names.of_map _

/-- Bindings of the same names to the same values are the same. -/
theorem eq_of_find? (hSame : ∀ name, b.find? name = c.find? name) : b = c := by
  have hPerm : b.entries.Perm c.entries := by
    refine (List.perm_ext_iff_of_nodup b.nodup_entries c.nodup_entries).2 fun (name, a) => ?_
    rw [mem_entries_iff, mem_entries_iff, hSame]
  have hEntries : b.entries = c.entries :=
    hPerm.eq_of_pairwise
      (fun x y _ _ hLess hGreater => absurd (String.lt_trans hLess hGreater) (String.lt_irrefl _))
      b.increasing c.increasing
  cases b
  cases c
  cases hEntries
  rfl

/-- Bindings that are put in all at once may be put in in any order, as their names are distinct. -/
theorem insertAll_perm (b : Bindings α) (hEntries : entries.Perm c.entries) :
    b.insertAll entries = b.insertAll c.entries :=
  eq_of_find? fun name => by rw [find?_insertAll b hEntries, find?_insertAll b (.refl _)]

theorem ofList_entries (b : Bindings α) : ofList b.entries = b := by
  refine eq_of_find? fun name => ?_
  rw [ofList, find?_insertAll _ (.refl _), find?_empty, Option.or_none]

/-- The entries of an inner frame take the places of those further out. -/
theorem ofList_append (outer own : List (String × α)) :
    ofList (outer ++ own) = (ofList outer).insertAll own :=
  List.foldl_append

end Bindings

namespace Store

/-- Sorts entries by the bytes of their names, and leaves those of one name in order. -/
def byName (entries : List (String × Value)) : List (String × Value) :=
  entries.mergeSort fun a b => !decide (Utf8.bytes b.1 < Utf8.bytes a.1)

/-- Sorting undoes the order that a table gives its entries in. -/
theorem byName_eq {b : Bindings Value} {table : List (String × Value)}
    (hTable : table.Perm b.entries) :
    byName table = b.entries := by
  have hOrder (x y : String × Value) : (!decide (Utf8.bytes y.1 < Utf8.bytes x.1)) = true ↔
      x.1 ≤ y.1 := by
    rw [Bool.not_eq_true', decide_eq_false_iff_not, Utf8.bytes_lt_iff, String.not_lt]
  have hSorted : (byName table).Pairwise fun x y => x.1 ≤ y.1 := by
    refine (List.pairwise_mergeSort (fun x y z => ?_) (fun x y => ?_) table).imp fun {x y} =>
      (hOrder x y).1
    · rw [hOrder, hOrder, hOrder]
      exact String.le_trans
    · rw [Bool.or_eq_true, hOrder, hOrder]
      exact String.le_total _ _
  have hPerm : (byName table).Perm b.entries := (List.mergeSort_perm _ _).trans hTable
  refine hPerm.eq_of_pairwise (fun (name, v) (name', v') hLeft hRight hLe hGe => ?_) hSorted
    (b.increasing.imp fun hLess => String.not_lt.1 fun hGreater =>
    String.lt_irrefl _ (String.lt_trans hLess hGreater))
  have hName : name = name' := String.le_antisymm hLe hGe
  subst hName
  have hLeft := Bindings.find?_of_mem (hPerm.mem_iff.1 hLeft)
  rw [Bindings.find?_of_mem hRight] at hLeft
  cases hLeft
  rfl

/-- Which listings can be made of what is visible from a frame: from the listing of its parent, if
it has one, and its own entries. The orders of the entries in a frame and in the table are left
open. -/
inductive Lists (s : Store) : FrameId → List (String × Value) → Prop where
  | root {f : FrameId} {own table : List (String × Value)} (hRoot : s.parent? f = none)
      (hOwn : own.Perm (s.bindings f).entries) (hTable : table.Perm (Bindings.ofList own).entries) :
      Lists s f (byName table)
  | inner {f parent : FrameId} {outer own table : List (String × Value)} (hUnder : s.Under f parent)
      (hOuter : Lists s parent outer) (hOwn : own.Perm (s.bindings f).entries)
      (hTable : table.Perm (Bindings.ofList (outer ++ own)).entries) : Lists s f (byName table)

variable {s : Store} {f g : FrameId}

/-- What is visible from a frame is what is visible from its parent, but for the names it binds
itself. -/
theorem visible_of_under (h : s.Ordered) (hUnder : s.Under f g) :
    s.visible f = (s.visible g).insertAll (s.bindings f).entries := by
  rw [visible, h.chain_of_under hUnder]
  rfl

theorem visible_of_root (hRoot : s.parent? f = none) :
    s.visible f = .ofList (s.bindings f).entries := by
  rw [visible, chain_of_root hRoot]
  split
  · rfl
  · rename_i hNone
    rw [bindings_of_size_le (Nat.not_lt.1 hNone)]
    rfl

/-- What is visible is what can be looked up. -/
theorem find?_visible (s : Store) (f : FrameId) (name : String) :
    (s.visible f).find? name = s.lookup? f name := by
  rw [visible, lookup?]
  induction s.chain f with
  | nil => rfl
  | cons g rest ih =>
    rw [List.foldr_cons, List.findSome?_cons, Bindings.find?_insertAll _ (List.Perm.refl _), ih]
    cases (s.bindings g).find? name <;> rfl

/-- However the tables order their entries, there is one listing. -/
theorem lists_iff (h : s.Ordered) {listed : List (String × Value)} :
    s.Lists f listed ↔ listed = (s.visible f).entries := by
  constructor
  · intro hLists
    induction hLists with
    | root hRoot hOwn hTable =>
      rw [byName_eq hTable, visible_of_root hRoot]
      exact congrArg Bindings.entries (Bindings.insertAll_perm _ hOwn)
    | inner hUnder _ hOwn hTable ih =>
      rw [byName_eq hTable, visible_of_under h hUnder, ih, Bindings.ofList_append,
        Bindings.ofList_entries, Bindings.insertAll_perm _ hOwn]
  · rintro rfl
    induction f using Nat.strongRecOn with
    | _ f ih =>
      cases hParent : s.parent? f with
      | none =>
        rw [visible_of_root hParent, ← byName_eq (.refl _)]
        exact .root hParent (.refl _) (.refl _)
      | some parent =>
        rw [visible_of_under h hParent, ← Bindings.ofList_entries (s.visible parent),
          ← Bindings.ofList_append, ← byName_eq (.refl _)]
        exact .inner hParent (ih parent (h hParent)) (.refl _) (.refl _)

end Store

theorem Action.lookup_eq_ok_iff {f : FrameId} {name : String} {v : Value} {m : Machine} :
    lookup f name m = .ok v m ↔ m.store.lookup? f name = some v := by
  rw [lookup_apply]
  cases m.store.lookup? f name with
  | none => exact ⟨nofun, nofun⟩
  | some u => simp

/-- A listing is looking names up, tabulated. There is one listing of what is visible from a frame,
in whatever order tables give their entries. It has the names that can be looked up, each once and
with the value that it is looked up as, and they are in increasing order of their bytes. -/
theorem listing_tabulates (m : Machine) (hOrdered : m.store.Ordered) (f : FrameId) :
    let listed := (m.store.visible f).entries
    (∀ other, m.store.Lists f other ↔ other = listed) ∧
      (∀ name v, (name, v) ∈ listed ↔ lookup f name m = .ok v m) ∧
      (∀ name v, lookup f name m = .ok v m → (listed.map Prod.fst).count name = 1) ∧
      listed.Pairwise fun x y => Utf8.bytes x.1 < Utf8.bytes y.1 := by
  intro listed
  have hMem (name : String) (v : Value) : (name, v) ∈ listed ↔ lookup f name m = .ok v m := by
    rw [Bindings.mem_entries_iff, Store.find?_visible, lookup_eq_ok_iff]
  refine ⟨fun other => Store.lists_iff hOrdered, hMem, fun name v hFound => ?_,
    (m.store.visible f).increasing.imp Utf8.bytes_lt⟩
  have hName : name ∈ listed.map Prod.fst := List.mem_map_of_mem ((hMem name v).2 hFound)
  exact List.count_eq_one_of_mem (m.store.visible f).nodup_names hName

/-- Names of one to four bytes, in a frame that hides a binding of the frame above it. -/
theorem listing_tabulates_hidden :
    let m : Machine := ⟨⟨#[⟨.ofList [("x", .integer 0), ("𝑒", .integer 1), ("ﬁ", .nil)], none⟩,
      ⟨.ofList [("π", .text "x"), ("x", .boolean true)], some 0⟩], 0⟩, []⟩
    let listed : List (String × Value) :=
      [("x", .boolean true), ("π", .text "x"), ("ﬁ", .nil), ("𝑒", .integer 1)]
    m.store.Ordered ∧ m.store.Lists 1 listed ∧ lookup 1 "x" m = .ok (.boolean true) m := by
  intro m listed
  have hOrdered : m.store.Ordered := by
    intro f g hUnder
    match f with
    | 0 => cases hUnder
    | 1 =>
      cases hUnder
      decide
    | f + 2 => cases hUnder
  obtain ⟨hLists, hMem, -⟩ := listing_tabulates m hOrdered 1
  have hListed : (m.store.visible 1).entries = listed := by
    have hUnder : m.store.Under 1 0 := rfl
    rw [Store.visible_of_under hOrdered hUnder, Store.visible_of_root rfl]
    rfl
  refine ⟨hOrdered, (hLists listed).2 hListed.symm, (hMem _ _).1 ?_⟩
  rw [hListed]
  exact List.mem_cons_self

end EmbeddedLisp
