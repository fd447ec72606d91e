import EmbeddedLisp.Proofs.Evaluation.Discipline
import EmbeddedLisp.Proofs.Scope.Walks

/-! Scopes stay sound. A new frame gets a parent that is there already, and a closure is made in a
frame that is there already. So, whatever is evaluated, parents are older than their frames and
every closure at hand has its frame. -/
namespace EmbeddedLisp

/-- A host that does not make closures up. Those in the answers of its procedures come from the
arguments or are among some that the procedures were made with. -/
def Host.AnswersFrom (host : Host) (captured : List Closure) : Prop :=
  ∀ procedure ∈ host, ∀ arguments isBound answer, procedure.run arguments isBound = .ok answer →
    ∀ v ∈ answer.value :: answer.definitions.map Prod.snd, ∀ k, .closure k ∈ v.procedures →
      k ∈ captured ∨ ∃ u ∈ arguments, .closure k ∈ u.procedures

/-- What a host procedure answers is as good as its arguments and the closures that it was made
with. -/
theorem Host.AnswersFrom.answer {host : Host} {captured : List Closure}
    (hHost : host.AnswersFrom captured) {d : Discipline} {s : Store}
    (hNatives : ∀ native, d.Procedures s (.native native))
    (hCaptured : ∀ k ∈ captured, d.Procedures s (.closure k)) {procedure : HostProcedure}
    {arguments : List Value} {isBound : String → Bool} {answer : HostProcedure.Answer}
    (hMember : procedure ∈ host) (hArguments : ∀ u ∈ arguments, d.Values s u)
    (hAnswer : procedure.run arguments isBound = .ok answer) :
    d.Values s answer.value ∧ d.Entries s answer.definitions := by
  have hGood (v : Value) (hMem : v ∈ answer.value :: answer.definitions.map Prod.snd) :
      d.Values s v := by
    intro p hProcedure
    match p with
    | .native native => exact hNatives native
    | .closure k =>
      rcases hHost procedure hMember arguments isBound answer hAnswer v hMem k hProcedure with
        hKept | ⟨u, hArgument, hGiven⟩
      · exact hCaptured k hKept
      · exact hArguments u hArgument _ hGiven
  refine ⟨hGood _ List.mem_cons_self, fun entry hEntry => hGood _ (List.mem_cons_of_mem _ ?_)⟩
  exact List.mem_map_of_mem hEntry

namespace Store

variable {captured : List Closure} {s t : Store}

/-- The procedures that there can be: those whose frames there are. A procedure of the host counts
for the closures that it may answer with. -/
inductive Admits (captured : List Closure) (s : Store) : Procedure → Prop where
  | builtin (procedure : Builtin) : Admits captured s (.native (.builtin procedure))
  | host (hCaptured : ∀ k ∈ captured, k.frame < s.frames.size) (name : String) :
      Admits captured s (.native (.host name))
  | closure {k : Closure} (hFrame : k.frame < s.frames.size) : Admits captured s (.closure k)

/-- Frames do not go away, so a procedure that there can be stays one. -/
theorem Admits.mono {p : Procedure} (hAdmits : s.Admits captured p)
    (hSize : s.frames.size ≤ t.frames.size) :
    t.Admits captured p := by
  cases hAdmits with
  | builtin procedure => exact .builtin procedure
  | host hCaptured name =>
    exact .host (fun k hMem => Nat.lt_of_lt_of_le (hCaptured k hMem) hSize) name
  | closure hFrame => exact .closure (Nat.lt_of_lt_of_le hFrame hSize)

/-- A store with nothing in it that lacks its frame. -/
structure Scoped (captured : List Closure) (s : Store) : Prop where
  ordered : s.Ordered
  held : ∀ {p}, s.Holds p → s.Admits captured p

namespace Scoped

theorem empty : Scoped captured .empty where
  ordered := nofun
  held hHeld := absurd hHeld (not_holds_empty _)

theorem define (h : s.Scoped captured) {v : Value}
    (hValue : ∀ p ∈ v.procedures, s.Admits captured p) (f : FrameId) (name : String) :
    (s.define f name v).Scoped captured where
  ordered := Ordered.define h.ordered f name v
  held := by
    intro p hHeld
    exact Admits.mono ((holds_define hHeld).elim (hValue p) h.held)
      (Nat.le_of_eq (size_define s f name v).symm)

/-- A new frame is above no other one, and is below a frame that there is. -/
theorem addFrame (h : s.Scoped captured) {entries : List (String × Value)}
    (hEntries : ∀ entry ∈ entries, ∀ p ∈ entry.2.procedures, s.Admits captured p)
    {parent : Option FrameId} (hParent : ∀ f ∈ parent, f < s.frames.size) :
    (s.addFrame (.ofList entries) parent).2.Scoped captured where
  ordered := by
    intro f g hUnder
    rw [Under, parent?_addFrame] at hUnder
    split at hUnder
    · rename_i hNew
      exact hNew ▸ hParent g hUnder
    · exact h.ordered hUnder
  held := by
    intro p hHeld
    refine Admits.mono (s := s) ?_ (size_addFrame s _ parent ▸ Nat.le_succ _)
    rcases holds_addFrame hHeld with ⟨entry, hEntry, hMem⟩ | hBefore
    · exact hEntries entry hEntry p hMem
    · exact h.held hBefore

end Scoped

end Store

namespace Evaluation

open Store (Scoped Admits)

variable {captured : List Closure} {host : Host}

/-- A run on a sound store. Any form can be evaluated, in any frame that there is. -/
def scoping (captured : List Closure) : Discipline where
  Stores := Scoped captured
  Frames s f := f < s.frames.size
  Procedures := Admits captured
  Forms _ := True

theorem scoping_opens {s : Store} {entries : List (String × Value)} {parent : FrameId}
    (hStores : s.Scoped captured) (hEntries : (scoping captured).Entries s entries)
    (hParent : parent < s.frames.size) : (scoping captured).Opens s entries parent := by
  refine ⟨hStores.addFrame hEntries fun f hMem => ?_, ?_⟩
  · exact Option.mem_some.1 hMem ▸ hParent
  · show s.frames.size < _
    rw [Store.size_addFrame]
    exact Nat.lt_succ_self _

/-- So no evaluation makes a store unsound. -/
theorem scoping_lawful (hHost : host.AnswersFrom captured) : (scoping captured).Lawful host where
  form_head _ _ := trivial
  form_rest _ _ _ := trivial
  form_body _ := trivial
  frames_mono hGrows hFrame := Nat.lt_of_lt_of_le hFrame hGrows.size
  procedures_mono hGrows hProcedure := Admits.mono hProcedure hGrows.size
  lookup hStores _ _ hFound p hMem := Scoped.held hStores (Store.holds_of_lookup? hFound hMem)
  define hStores _ hValue name := Scoped.define hStores hValue _ name
  assign hStores _ hValue _ _ := Scoped.define hStores hValue _ _
  child hStores hFrame hEntries := scoping_opens hStores hEntries hFrame
  call := by
    intro s k entries hStores hClosure hEntries
    cases hClosure with
    | closure hFrame => exact scoping_opens hStores hEntries hFrame
  body _ := trivial
  makes hStores hFrame _ _ _ :=
    ⟨⟨hStores.ordered, fun hHeld => (hStores.held hHeld).mono (Nat.le_refl _)⟩, .closure hFrame⟩
  native := by
    intro s f name procedure arguments answer _ _ hCalled hMember hArguments hAnswer
    cases hCalled with
    | host hCaptured =>
      refine hHost.answer (d := scoping captured) (fun native => ?_) (fun k hMem => ?_) hMember
        hArguments hAnswer
      · cases native with
        | builtin procedure => exact .builtin procedure
        | host name => exact .host hCaptured name
      · exact .closure (hCaptured k hMem)

end Evaluation

end EmbeddedLisp
