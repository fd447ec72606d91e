import EmbeddedLisp.Proofs.Evaluation.Diagonal
import EmbeddedLisp.Proofs.Expression.Texts

/-! Bindings that do not matter. A binding is looked at only where its name is evaluated or assigned
to. A name that occurs in no form is neither, and a keyword is neither where it heads a list, as it
is recognized before it could be looked up. So whatever such a name is bound to in some frame, all
evaluations go the same way, and in the end this binding is the only one that may differ. -/
namespace EmbeddedLisp

/-- Whether a name does not occur in a form or, if it is a keyword, occurs there only at the head of
lists. -/
def Expression.Ignores (name : String) (e : Expression) : Prop :=
  name ∉ e.texts ∨ (Keyword.ofName? name).isSome ∧ name ∉ e.loose

namespace Expression.Ignores

variable {name : String}

theorem text_ne {token : String} (hIgnores : Ignores name (.text token)) : name ≠ token := by
  rintro rfl
  rcases hIgnores with hNone | ⟨-, hNone⟩ <;> exact hNone (List.mem_singleton_self _)

theorem rest {head : Expression} {rest : List Expression}
    (hIgnores : Ignores name (.list (head :: rest))) :
    ∀ e ∈ rest, Ignores name e := by
  intro e hMem
  rcases hIgnores with hNone | ⟨hKeyword, hNone⟩
  · refine .inl fun hText => hNone ?_
    exact mem_textsEach_iff.2 ⟨e, List.mem_cons_of_mem _ hMem, hText⟩
  · refine .inr ⟨hKeyword, fun hLoose => hNone ?_⟩
    exact mem_loose_of_rest head (mem_looseEach_iff.2 ⟨e, hMem, hLoose⟩)

/-- A head that is evaluated is no keyword. -/
theorem head {head : Expression} {rest : List Expression}
    (hIgnores : Ignores name (.list (head :: rest)))
    (hHead : head.symbol?.bind Keyword.ofName? = none) : Ignores name head := by
  rcases hIgnores with hNone | ⟨hKeyword, hNone⟩
  · exact .inl fun hText => hNone (mem_textsEach_iff.2 ⟨head, List.mem_cons_self, hText⟩)
  refine .inr ⟨hKeyword, fun hLoose => ?_⟩
  cases head with
  | text token =>
    obtain rfl : name = token := List.mem_singleton.1 hLoose
    obtain ⟨keyword, hName⟩ := Option.isSome_iff_exists.1 hKeyword
    have hSymbol : literalContents? name = none := by
      rw [← Keyword.ofName?_eq_some_iff.1 hName]
      cases keyword <;> rfl
    rw [symbol?_eq_some_iff.2 ⟨rfl, hSymbol⟩, Option.bind_some, hName] at hHead
    cases hHead
  | _ => exact hNone (List.mem_append_left _ hLoose)

/-- The word that joins the forms of a body is a keyword at the head. -/
theorem body {body : List Expression} (hIgnores : ∀ e ∈ body, Ignores name e) :
    Ignores name (Form.joinBody body) := by
  unfold Form.joinBody
  split
  · exact hIgnores _ List.mem_cons_self
  by_cases hKeyword : (Keyword.ofName? name).isSome
  · refine .inr ⟨hKeyword, fun hLoose => ?_⟩
    obtain ⟨e, hMem, hLoose⟩ := mem_looseEach_iff.1 hLoose
    rcases hIgnores e hMem with hNone | ⟨-, hNone⟩
    · exact hNone (mem_texts_of_loose e hLoose)
    · exact hNone hLoose
  · refine .inl fun hText => ?_
    rcases List.mem_cons.1 hText with rfl | hText
    · exact hKeyword rfl
    · obtain ⟨e, hMem, hText⟩ := mem_textsEach_iff.1 hText
      exact (hIgnores e hMem).elim (fun hNone => hNone hText) fun hIs => hKeyword hIs.1

end Expression.Ignores

open Expression (Ignores)

/-- Stores that have nothing different but what one frame binds to one name. -/
structure Store.DiffersAt (f : FrameId) (name : String) (s t : Store) : Prop where
  size : t.frames.size = s.frames.size
  closures : t.closures = s.closures
  parent : ∀ g, t.parent? g = s.parent? g
  bindings : ∀ {g other}, (g = f → other ≠ name) →
    (t.bindings g).find? other = (s.bindings g).find? other

namespace Store.DiffersAt

variable {f : FrameId} {name : String} {s t : Store}

/-- Binding a name makes a difference in that one place. -/
theorem of_define (s : Store) (f : FrameId) (name : String) (v : Value) :
    DiffersAt f name s (s.define f name v) where
  size := size_define s f name v
  closures := rfl
  parent := parent?_define s f name v
  bindings := by
    intro g other hOther
    rw [find?_define, if_neg]
    rintro ⟨-, rfl, rfl⟩
    exact hOther rfl rfl

/-- Another name is found as before, from every frame. -/
theorem lookup? (hDiffers : DiffersAt f name s t) {other : String} (hOther : other ≠ name)
    (g : FrameId) :
    t.lookup? g other = s.lookup? g other := by
  have hFind (g : FrameId) := hDiffers.bindings (g := g) fun _ => hOther
  simp only [Store.lookup?, chain_congr hDiffers.size hDiffers.parent, hFind]

theorem owner? (hDiffers : DiffersAt f name s t) {other : String} (hOther : other ≠ name)
    (g : FrameId) :
    t.owner? g other = s.owner? g other := by
  have hFind (g : FrameId) := hDiffers.bindings (g := g) fun _ => hOther
  simp only [Store.owner?, Bindings.binds, chain_congr hDiffers.size hDiffers.parent, hFind]

/-- What both runs do keeps the difference where it is. -/
theorem define (hDiffers : DiffersAt f name s t) (g : FrameId) (other : String) (v : Value) :
    DiffersAt f name (s.define g other v) (t.define g other v) where
  size := by simpa using hDiffers.size
  closures := hDiffers.closures
  parent := by simpa using hDiffers.parent
  bindings := by
    intro h sought hOther
    rw [find?_define, find?_define, hDiffers.size, hDiffers.bindings hOther]

theorem addFrame (hDiffers : DiffersAt f name s t) (b : Bindings Value) (parent : Option FrameId) :
    DiffersAt f name (s.addFrame b parent).2 (t.addFrame b parent).2 where
  size := by rw [size_addFrame, size_addFrame, hDiffers.size]
  closures := hDiffers.closures
  parent := by
    intro g
    rw [parent?_addFrame, parent?_addFrame, hDiffers.size, hDiffers.parent]
  bindings := by
    intro g other hOther
    rw [bindings_addFrame, bindings_addFrame, hDiffers.size]
    split
    · rfl
    · exact hDiffers.bindings hOther

theorem addClosure (hDiffers : DiffersAt f name s t) (made : Nat) :
    DiffersAt f name { s with closures := made } { t with closures := made } where
  size := hDiffers.size
  closures := rfl
  parent := hDiffers.parent
  bindings := hDiffers.bindings

end Store.DiffersAt

namespace Evaluation

/-- The procedures that ignore a name. -/
inductive IgnoringProcedures (name : String) : Procedure → Prop where
  | builtin (procedure : Builtin) : IgnoringProcedures name (.native (.builtin procedure))
  | closure {k : Closure} (hBody : Ignores name k.body) : IgnoringProcedures name (.closure k)

/-- Two runs that ignore the name whose binding differs. -/
def ignoring (f : FrameId) (name : String) : Diagonal where
  Stores s t := s.DiffersAt f name t ∧ ∀ p, s.Holds p → IgnoringProcedures name p
  Frames _ := True
  Procedures := IgnoringProcedures name
  Forms := Ignores name

/-- A run that never comes by the name does not come by the difference. -/
theorem ignoring_lawful (f : FrameId) (name : String) : (ignoring f name).Lawful where
  form_head := Ignores.head
  form_rest := Ignores.rest
  form_body := Ignores.body
  native := by
    rintro native ⟨procedure⟩
    exact ⟨procedure, rfl⟩
  closure := by
    intro k hIgnoring
    cases hIgnoring with
    | closure hBody => exact ⟨hBody, trivial⟩
  makes _ hForm _ _ := .closure hForm
  size hStores := hStores.1.size
  closures hStores := hStores.1.closures
  lookup := by
    rintro s t g other ⟨hDiffers, hHolds⟩ - hForm
    refine ⟨hDiffers.lookup? hForm.text_ne.symm g, fun v hFound p hMem => ?_⟩
    exact hHolds p (Store.holds_of_lookup? hFound hMem)
  owner := by
    rintro s t g other e ⟨hDiffers, -⟩ - hForm
    have hTarget : Ignores name (.text other) := hForm.rest _ List.mem_cons_self
    exact ⟨hDiffers.owner? hTarget.text_ne.symm g, fun _ _ => trivial⟩
  define := by
    rintro s t g v ⟨hDiffers, hHolds⟩ - hValue other
    refine ⟨hDiffers.define g other v, fun p hHeld => ?_⟩
    exact (Store.holds_define hHeld).elim (hValue p) (hHolds p)
  addFrame := by
    rintro s t g entries ⟨hDiffers, hHolds⟩ - hEntries
    refine ⟨trivial, hDiffers.addFrame _ _, fun p hHeld => ?_⟩
    rcases Store.holds_addFrame hHeld with ⟨entry, hEntry, hMem⟩ | hBefore
    · exact hEntries entry hEntry p hMem
    · exact hHolds p hBefore
  addClosure hStores made := ⟨hStores.1.addClosure made, hStores.2⟩

/-- What a frame binds to a name does not matter to an evaluation if the form and the bodies of all
closures ignore the name. With this name bound to any value the evaluation comes to the same result,
within a limit of depth or without one, and the stores that it leaves differ at most in what the
frame binds to the name. -/
theorem irrelevant_binding (host : Host) (limit : Option Nat) (e : Expression) (frame : FrameId)
    (m : Machine) (f : FrameId) (name : String) (v : Value)
    (hBuiltins : ∀ native, m.store.Holds (.native native) →
      ∃ procedure, native = .builtin procedure) (hForm : e.Ignores name)
    (hBodies : ∀ k, m.store.Holds (.closure k) → k.body.Ignores name) :
    let without := Interpreter.evaluate host limit e frame m
    let bound := Interpreter.evaluate host limit e frame { m with store := m.store.define f name v }
    Outcome.result bound = Outcome.result without ∧
      (Outcome.machine without).store.DiffersAt f name (Outcome.machine bound).store := by
  have hHolds (p : Procedure) (hHeld : m.store.Holds p) : IgnoringProcedures name p := by
    cases p with
    | native native =>
      obtain ⟨procedure, rfl⟩ := hBuiltins native hHeld
      exact .builtin procedure
    | closure k => exact .closure (hBodies k hHeld)
  obtain ⟨hResult, hStores, -⟩ := (ignoring_lawful f name).evaluate host limit
    (m := m) (n := { m with store := m.store.define f name v }) (f := frame) hForm trivial rfl
    ⟨.of_define m.store f name v, hHolds⟩
  exact ⟨hResult, hStores.1⟩

/-- A procedure that branches does so also where the word for it is bound to a number. -/
theorem irrelevant_binding_branch :
    let choose : Closure := ⟨0, ["x"], .list [.text "if", .text "x", .integer 1, .integer 0], 0⟩
    let m : Machine := ⟨⟨#[⟨.ofList [("choose", .procedure (.closure choose))], none⟩], 1⟩, []⟩
    let call : Expression := .list [.text "choose", .boolean true]
    (∀ native, m.store.Holds (.native native) → ∃ procedure, native = .builtin procedure) ∧
      call.Ignores "if" ∧ (∀ k, m.store.Holds (.closure k) → k.body.Ignores "if") ∧
      let without := Interpreter.evaluate ([] : Host) none call 0 m
      let bound := Interpreter.evaluate ([] : Host) none call 0
        { m with store := m.store.define 0 "if" (.integer 0) }
      Outcome.result bound = Outcome.result without ∧
        (Outcome.machine without).store.DiffersAt 0 "if" (Outcome.machine bound).store := by
  intro choose m call
  have hHeld {p : Procedure} (hHeld : m.store.Holds p) : p = .closure choose := by
    obtain ⟨f, name, v, hFound, hMem⟩ := hHeld
    match f with
    | 0 =>
      have hEntry : (name, v) ∈ _ := Bindings.mem_of_find?_ofList hFound
      obtain ⟨-, rfl⟩ := Prod.mk.inj (List.mem_singleton.1 hEntry)
      exact List.mem_singleton.1 hMem
    | f + 1 => cases hFound
  have hBuiltins (native : Native) (hNative : m.store.Holds (.native native)) :
      ∃ procedure, native = .builtin procedure := nomatch hHeld hNative
  have hForm : call.Ignores "if" := .inl (by decide)
  have hBodies (k : Closure) (hClosure : m.store.Holds (.closure k)) : k.body.Ignores "if" := by
    cases hHeld hClosure
    exact .inr (by decide)
  exact ⟨hBuiltins, hForm, hBodies,
    irrelevant_binding [] none call 0 m 0 "if" (.integer 0) hBuiltins hForm hBodies⟩

end Evaluation

end EmbeddedLisp
