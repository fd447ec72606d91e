import EmbeddedLisp.Proofs.Evaluation.Application
import EmbeddedLisp.Proofs.Evaluation.Demand
import EmbeddedLisp.Proofs.Evaluation.LocalBindings
import EmbeddedLisp.Proofs.Evaluation.Provenance
import EmbeddedLisp.Proofs.Interpreter.Client
import EmbeddedLisp.Proofs.Scope.Listing

/-! Parameters. A frame for a call is made from a list of entries, of which the last one of a name
counts, so a parameter that is there twice would lose an argument. None is: a closure is only made
for distinct symbols, and there is no other way to come by one. -/
namespace EmbeddedLisp

open EmbeddedLisp.Action Form

namespace Bindings

variable {α : Type} {names : List String} {xs : List α}

/-- Entries for as many names as values bind each of the names. -/
theorem binds_ofList_zip (hNodup : names.Nodup) (hLength : names.length = xs.length)
    (name : String) :
    (ofList (names.zip xs)).binds name ↔ name ∈ names := by
  have hNames : (names.zip xs).map Prod.fst = names := List.map_fst_zip (Nat.le_of_eq hLength)
  rw [binds, Option.isSome_iff_exists]
  constructor
  · rintro ⟨a, hFound⟩
    exact hNames ▸ List.mem_map_of_mem (mem_of_find?_ofList hFound)
  · intro hMem
    rw [← hNames] at hMem hNodup
    obtain ⟨⟨_, a⟩, hEntry, rfl⟩ := List.mem_map.1 hMem
    exact ⟨a, find?_insertAll_of_mem _ hNodup hEntry⟩

/-- If the names are distinct, each is bound to the value in the same place. -/
theorem find?_ofList_zip (hNodup : names.Nodup) (hLength : names.length = xs.length) {i : Nat}
    {name : String} {a : α} (hName : names[i]? = some name) (hValue : xs[i]? = some a) :
    (ofList (names.zip xs)).find? name = some a := by
  have hNames : (names.zip xs).map Prod.fst = names := List.map_fst_zip (Nat.le_of_eq hLength)
  rw [← hNames] at hNodup
  refine find?_insertAll_of_mem _ hNodup (List.mem_of_getElem? (i := i) ?_)
  exact List.getElem?_zip_eq_some.2 ⟨hName, hValue⟩

end Bindings

/-- A store in which one new frame has been made for some names, and nothing else has happened. The
frame binds each of the names to the value in the same place. -/
structure Store.Opened (s : Store) (names : List String) (vs : List Value) (parent inner : FrameId)
    (t : Store) :
    Prop where
  fresh : inner = s.frames.size
  size : t.frames.size = s.frames.size + 1
  under : t.Under inner parent
  binds : ∀ name, (t.bindings inner).binds name ↔ name ∈ names
  each : ∀ (i : Nat) name v, names[i]? = some name → vs[i]? = some v →
    (t.bindings inner).find? name = some v
  others : ∀ f ≠ inner, t.bindings f = s.bindings f ∧ t.parent? f = s.parent? f
  closures : t.closures = s.closures

theorem Store.opened_addFrame (s : Store) {names : List String} {vs : List Value}
    (hNodup : names.Nodup) (hLength : names.length = vs.length) (parent : FrameId) :
    s.Opened names vs parent s.frames.size
      (s.addFrame (.ofList (names.zip vs)) (some parent)).2 where
  fresh := rfl
  size := size_addFrame _ _ _
  under := by rw [Under, parent?_addFrame, if_pos rfl]
  binds name := by
    rw [bindings_addFrame, if_pos rfl]
    exact Bindings.binds_ofList_zip hNodup hLength name
  each i name v hName hValue := by
    rw [bindings_addFrame, if_pos rfl]
    exact Bindings.find?_ofList_zip hNodup hLength hName hValue
  others f hOther := by
    rw [bindings_addFrame, parent?_addFrame, if_neg hOther, if_neg hOther]
    exact ⟨rfl, rfl⟩
  closures := rfl

namespace Evaluation

variable {host : Host} {captured : List Closure} {evaluate : Evaluator} {frame : FrameId}
  {m n : Machine}

theorem applyWith_wrongCount {k : Closure} {arguments : List Value}
    (hCount : k.parameters.length ≠ arguments.length) :
    applyWith host evaluate (.procedure (.closure k)) arguments frame m =
      .error (.error (.rejected (.wrongCount (.exactly k.parameters.length) arguments.length) none))
        m := by
  simp only [applyWith, callClosure, if_neg hCount]
  rfl

/-- With as many arguments as parameters a call evaluates the body in the new frame. -/
theorem exists_opened_applyWith {k : Closure} {arguments : List Value} (hNodup : k.parameters.Nodup)
    (hCount : k.parameters.length = arguments.length) :
    ∃ inner opened, m.store.Opened k.parameters arguments k.frame inner (Machine.store opened) ∧
      applyWith host evaluate (.procedure (.closure k)) arguments frame m =
        evaluate k.body inner opened := by
  refine ⟨_, ⟨_, .applying k.parameters arguments.length :: m.events⟩,
    m.store.opened_addFrame hNodup hCount k.frame, ?_⟩
  simp only [applyWith, callClosure, if_pos hCount]
  rfl

theorem EvaluatesEach.length_eq {parts : List Expression} {vs : List Value}
    (hEach : EvaluatesEach evaluate frame parts m (.ok vs n)) : vs.length = parts.length := by
  induction parts generalizing m vs with
  | nil =>
    cases hEach
    rfl
  | cons e rest ih =>
    cases hEach with
    | cons _ hRest => rw [List.length_cons, List.length_cons, ih hRest]

/-- A binding that is gone past is of a symbol that was not there before. -/
theorem exists_of_evaluateBindings_cons {entries result : List (String × Value)}
    {binding : Expression} {rest : List Expression}
    (hBound : evaluateBindings evaluate frame entries (binding :: rest) m = .ok result n) :
    ∃ name e v after, binding = .list [.text name, e] ∧ literalContents? name = none ∧
      name ∉ entries.map (·.1) ∧ evaluate e frame m = .ok v after ∧
      evaluateBindings evaluate frame (entries ++ [(name, v)]) rest after = .ok result n := by
  by_cases hGood : ∃ name e, FreshBinding entries name e binding
  · obtain ⟨name, e, hBinds⟩ := hGood
    rw [hBinds.evaluateBindings_cons, bind_eq_ok_iff] at hBound
    obtain ⟨v, after, hFirst, hRest⟩ := hBound
    obtain ⟨rfl, hLiteral, hFresh⟩ := hBinds
    refine ⟨name, e, v, after, rfl, hLiteral, fun hMem => hFresh ?_, hFirst, hRest⟩
    simpa [List.any_eq_true] using hMem
  · obtain ⟨fault, hRejected⟩ :=
      exists_rejected_binding fun name e hBinds => hGood ⟨name, e, hBinds⟩
    rw [hRejected] at hBound
    cases hBound

/-- Bindings come to entries only if they are of distinct symbols, and then each is for the value of
its own initial form. -/
theorem exists_of_evaluateBindings {entries result : List (String × Value)}
    {bindings : List Expression}
    (hBound : evaluateBindings evaluate frame entries bindings m = .ok result n)
    (hTaken : (entries.map (·.1)).Nodup) :
    ∃ (pairs : List (String × Expression)) (vs : List Value),
      bindings = pairs.map (fun b => .list [.text b.1, b.2]) ∧
      (entries.map (·.1) ++ pairs.map (·.1)).Nodup ∧
      (∀ name ∈ pairs.map (·.1), literalContents? name = none) ∧
      EvaluatesEach evaluate frame (pairs.map (·.2)) m (.ok vs n) ∧
      result = entries ++ (pairs.map (·.1)).zip vs := by
  induction bindings generalizing entries m with
  | nil =>
    cases hBound
    exact ⟨[], [], rfl, by simpa using hTaken, nofun, .nil, by simp⟩
  | cons binding rest ih =>
    obtain ⟨name, e, v, after, rfl, hLiteral, hFresh, hFirst, hRest⟩ :=
      exists_of_evaluateBindings_cons hBound
    have hMore : ((entries ++ [(name, v)]).map (·.1)).Nodup := by
      rw [List.map_append]
      exact hTaken.append (List.nodup_singleton name) (List.disjoint_singleton.2 hFresh)
    obtain ⟨pairs, vs, rfl, hNodup, hSymbols, hEach, rfl⟩ := ih hRest hMore
    refine ⟨(name, e) :: pairs, v :: vs, rfl, ?_, List.forall_mem_cons.2 ⟨hLiteral, hSymbols⟩,
      .cons hFirst hEach, ?_⟩
    · simpa using hNodup
    · simp

/-- What a `let` comes to. If its bindings are of distinct symbols and all initial forms have
values, then it is what the body comes to in one new frame that binds each name to the value of its
own initial form. Otherwise it fails with the bindings, and there is no frame. -/
inductive Binds (evaluate : Evaluator) (frame : FrameId) (bindings body : List Expression)
    (m : Machine) :
    Outcome Value → Prop where
  | body {pairs : List (String × Expression)} {vs : List Value} {inner : FrameId}
      {n opened : Machine}
      (hPairs : bindings = pairs.map fun b => .list [.text b.1, b.2])
      (hNames : DistinctSymbols (pairs.map (·.1)))
      (hEach : EvaluatesEach evaluate frame (pairs.map (·.2)) m (.ok vs n))
      (hOpened : n.store.Opened (pairs.map (·.1)) vs frame inner opened.store) :
      Binds evaluate frame bindings body m (evaluateBody evaluate inner body opened)
  | failed {interrupt : Interrupt} {n : Machine}
      (hFails : evaluateBindings evaluate frame [] bindings m = .error interrupt n) :
      Binds evaluate frame bindings body m (.error interrupt n)

theorem binds_evaluateForm (evaluate : Evaluator) (frame : FrameId) (bindings : List Expression)
    (e : Expression) (rest : List Expression) (m : Machine) :
    Binds evaluate frame bindings (e :: rest) m
      (evaluateForm evaluate frame .bind (.list bindings :: e :: rest) m) := by
  simp only [evaluateForm, Bind.bind, EStateM.bind]
  cases hBound : evaluateBindings evaluate frame [] bindings m with
  | error interrupt n => exact .failed hBound
  | ok entries n =>
    obtain ⟨pairs, vs, hPairs, hNodup, hSymbols, hEach, rfl⟩ :=
      exists_of_evaluateBindings hBound List.nodup_nil
    have hLength : (pairs.map (·.1)).length = vs.length := by
      rw [hEach.length_eq, List.length_map, List.length_map]
    exact .body hPairs ⟨hNodup, hSymbols⟩ hEach (n.store.opened_addFrame hNodup hLength frame)

/-- The procedures that lose no argument. A procedure of the host counts for the closures that it
may answer with. -/
inductive WellNamed (captured : List Closure) : Procedure → Prop where
  | builtin (procedure : Builtin) : WellNamed captured (.native (.builtin procedure))
  | host (hCaptured : ∀ k ∈ captured, DistinctSymbols k.parameters) (name : String) :
      WellNamed captured (.native (.host name))
  | closure {k : Closure} (hParameters : DistinctSymbols k.parameters) :
      WellNamed captured (.closure k)

theorem WellNamed.distinct {k : Closure} (h : WellNamed captured (.closure k)) :
    DistinctSymbols k.parameters := by
  cases h with
  | closure hParameters => exact hParameters

/-- A run in which the parameters of every closure are distinct symbols. -/
def naming (captured : List Closure) : Discipline where
  Stores s := ∀ p, s.Holds p → WellNamed captured p
  Frames _ _ := True
  Procedures _ := WellNamed captured
  Forms _ := True

theorem naming_addFrame {s : Store} {entries : List (String × Value)}
    (hStores : (naming captured).Stores s) (hEntries : (naming captured).Entries s entries)
    (parent : Option FrameId) :
    (naming captured).Stores (s.addFrame (.ofList entries) parent).2 := by
  intro p hHeld
  rcases Store.holds_addFrame hHeld with ⟨entry, hEntry, hMem⟩ | hBefore
  · exact hEntries entry hEntry p hMem
  · exact hStores p hBefore

theorem naming_lawful (hHost : host.AnswersFrom captured) : (naming captured).Lawful host where
  form_head _ _ := trivial
  form_rest _ _ _ := trivial
  form_body _ := trivial
  frames_mono _ := id
  procedures_mono _ := id
  lookup hStores _ _ hFound p hMem := hStores p (Store.holds_of_lookup? hFound hMem)
  define hStores _ hValue name p hHeld := (Store.holds_define hHeld).elim (hValue p) (hStores p)
  assign hStores _ hValue _ _ p hHeld := (Store.holds_define hHeld).elim (hValue p) (hStores p)
  child hStores _ hEntries := ⟨naming_addFrame hStores hEntries _, trivial⟩
  call hStores _ hEntries := ⟨naming_addFrame hStores hEntries _, trivial⟩
  body _ := trivial
  makes hStores _ _ hNodup hSymbols := ⟨hStores, .closure ⟨hNodup, hSymbols⟩⟩
  native := by
    intro s f name procedure arguments answer _ _ hCalled hMember hArguments hAnswer
    cases hCalled with
    | host hCaptured =>
      refine hHost.answer (d := naming captured) (fun native => ?_) (fun k hMem => ?_) hMember
        hArguments hAnswer
      · cases native with
        | builtin procedure => exact .builtin procedure
        | host name => exact .host hCaptured name
      · exact .closure (hCaptured k hMem)

end Evaluation

namespace Client

open Evaluation

variable {host : Host} {captured : List Closure} {x : Client}

/-- To lose no argument is a discipline that no client gets out of. -/
theorem governs_naming (hHost : host.AnswersFrom captured) :
    Governs (naming captured) host captured where
  toLawful := naming_lawful hHost
  forms _ := trivial
  nothing p hHeld := absurd hHeld (Store.not_holds_empty p)
  held hStores hHeld := hStores _ hHeld
  opens hStores hEntries _ := ⟨naming_addFrame hStores hEntries _, trivial⟩
  above _ _ _ := trivial
  origin _ := trivial
  builtin _ procedure := .builtin procedure
  outside hCaptured name := .host (fun k hMem => (hCaptured k hMem).distinct) name

/-- The closures that come up with a client: those that it has, those that are bound in some frame,
and those that are bound, or are the value of a form, while something is evaluated. -/
inductive Meets (host : Host) (x : Client) (k : Closure) : Prop where
  | given (hHas : x.Has k)
  | bound (hHeld : x.machine.store.Holds (.closure k))
  | boundInside {limit depth : Nat} {e : Expression} {frame : FrameId} {task : Task}
      (hArises : Arises host limit ⟨e, frame, x.machine⟩ depth task)
      (hHeld : task.machine.store.Holds (.closure k))
  | inside {limit depth : Nat} {e : Expression} {frame : FrameId} {task : Task}
      {v : Value} {n : Machine}
      (hArises : Arises host limit ⟨e, frame, x.machine⟩ depth task)
      (hAnswer : task.answer (evalAt host (some limit) (limit + 2) depth) = .ok v n)
      (hMem : .closure k ∈ v.procedures)

/-- So closures of distinct parameters are all that comes up. -/
theorem Meets.distinct (hHost : host.AnswersFrom captured) (h : x.Follows (naming captured))
    {k : Closure} (hMeets : x.Meets host k) : DistinctSymbols k.parameters := by
  have hLawful := naming_lawful hHost
  have hTask (e : Expression) (frame : FrameId) : (naming captured).Admits ⟨e, frame, x.machine⟩ :=
    ⟨trivial, trivial, h.stores⟩
  suffices hNamed : WellNamed captured (.closure k) from hNamed.distinct
  cases hMeets with
  | given hHas =>
    obtain ⟨v, hMem, hProcedure⟩ := hHas
    exact h.values v hMem _ hProcedure
  | bound hHeld => exact h.stores _ hHeld
  | boundInside hArises hHeld => exact (hLawful.arises (hTask _ _) hArises).stores _ hHeld
  | @inside limit depth e frame task v n hArises hAnswer hMem =>
    have hKeeps : (naming captured).Keeps task.machine.store (naming captured).Values
        (task.answer (evalAt host (some limit) (limit + 2) depth)) :=
      hLawful.answer (hLawful.arises (hTask e frame) hArises)
    rw [hAnswer] at hKeeps
    exact hKeeps.good _ rfl _ hMem

/-- Closures bind every argument. Whatever a client has asked for and however it went, the
parameters of each closure that comes up are symbols, and no two of them are the same. So a closure
that is called with another number of arguments is rejected and nothing has happened, and with as
many it comes to what its body comes to in one new frame, below the one that it was made in, that
binds each parameter to the argument in the same place and nothing else. A `let` goes past no name
that is there twice either, so its frame has the value of each initial form. -/
theorem closures_bind_every_argument (hHost : host.AnswersFrom captured)
    (hReached : Leads host captured start x) :
    (∀ k, x.Meets host k → DistinctSymbols k.parameters ∧
      ∀ evaluate arguments frame m,
        (k.parameters.length ≠ arguments.length →
          applyWith host evaluate (.procedure (.closure k)) arguments frame m =
            .error (.error
              (.rejected (.wrongCount (.exactly k.parameters.length) arguments.length) none)) m) ∧
        (k.parameters.length = arguments.length →
          ∃ (inner : FrameId) (opened : Machine),
            m.store.Opened k.parameters arguments k.frame inner opened.store ∧
            applyWith host evaluate (.procedure (.closure k)) arguments frame m =
              evaluate k.body inner opened)) ∧
      ∀ evaluate frame bindings e rest m,
        Binds evaluate frame bindings (e :: rest) m
          (evaluateForm evaluate frame .bind (.list bindings :: e :: rest) m) := by
  obtain ⟨hFollows, -⟩ :=
    (governs_naming hHost).follows_of_leads (governs_naming hHost).follows_start hReached
  refine ⟨fun k hMeets => ?_, binds_evaluateForm⟩
  have hParameters : DistinctSymbols k.parameters := hMeets.distinct hHost hFollows
  exact ⟨hParameters, fun evaluate arguments frame m => ⟨applyWith_wrongCount,
    exists_opened_applyWith hParameters.nodup⟩⟩

/-- A procedure of two parameters, called with one argument and with two. -/
theorem closures_bind_every_argument_two :
    let definition : Expression :=
      .list [.text "define", .list [.text "keep", .text "x", .text "y"], .text "x"]
    let k : Closure := ⟨0, ["x", "y"], .text "x", 0⟩
    let x := [.root, .evaluate (some 9) definition 0].foldl (after []) start
    Host.AnswersFrom [] [] ∧ Leads [] [] start x ∧ x.Meets [] k ∧ DistinctSymbols k.parameters ∧
      applyUnlimited ([] : Host) (.procedure (.closure k)) [.nil] 0 x.machine =
        .error (.error (.rejected (.wrongCount (.exactly 2) 1) none)) x.machine ∧
      ∃ (inner : FrameId) (opened : Machine),
        (opened.store.bindings inner).find? "x" = some (.boolean true) ∧
        (opened.store.bindings inner).find? "y" = some .nil ∧
        applyUnlimited ([] : Host) (.procedure (.closure k)) [.boolean true, .nil] 0 x.machine =
          evalUnlimited ([] : Host) (.text "x") inner opened := by
  intro definition k x
  have hHost : Host.AnswersFrom [] [] := nofun
  have hReached : Leads [] [] start x := by
    refine .tail (.single ⟨.root, ⟨?_, nofun⟩, rfl⟩)
      ⟨.evaluate (some 9) definition 0, ⟨?_, nofun⟩, rfl⟩
    · exact nofun
    · exact fun f hMem => hMem
  have hMeets : x.Meets [] k :=
    .bound ⟨0, "keep", .procedure (.closure k), rfl, List.mem_singleton_self _⟩
  obtain ⟨hParameters, hCalls⟩ := (closures_bind_every_argument hHost hReached).1 k hMeets
  have hFewer := (hCalls (evalUnlimited ([] : Host)) [.nil] 0 x.machine).1 (by decide)
  obtain ⟨inner, opened, hOpened, hSame⟩ :=
    (hCalls (evalUnlimited ([] : Host)) [.boolean true, .nil] 0 x.machine).2 rfl
  exact ⟨hHost, hReached, hMeets, hParameters, hFewer, inner, opened, hOpened.each 0 "x" _ rfl rfl,
    hOpened.each 1 "y" _ rfl rfl, hSame⟩

end Client

end EmbeddedLisp
