import EmbeddedLisp.Host.Sample
import EmbeddedLisp.Proofs.Evaluation.Scoping

/-! Clients: programs that use the language through its operations, one after another and in any
order. A client has frames and values in hand, and what it asks for is about those. Data it can make
up, and names of builtin procedures, but neither a frame nor a closure. It goes on after an
operation that fails. -/
namespace EmbeddedLisp

open EmbeddedLisp.Action Evaluation

/-- A client, with the frames and values that it has been given, and the machine that it works
on. -/
structure Client where
  machine : Machine
  frames : List FrameId
  values : List Value

namespace Client

/-- What a client can ask for. -/
inductive Operation where
  /-- A frame that binds nothing and has no parent. -/
  | root
  | child (f : FrameId) (entries : List (String × Value))
  | globalFrame
  /-- The global frame of a new interpreter. -/
  | create (options : Interpreter.Options)
  /-- The new global frame of an interpreter that starts over. -/
  | reset (i : Interpreter)
  | install (f : FrameId)
  | define (f : FrameId) (name : String) (v : Value)
  | assign (f : FrameId) (name : String) (v : Value)
  | lookup (f : FrameId) (name : String)
  /-- Everything that can be looked up from a frame. -/
  | list (f : FrameId)
  | parent (f : FrameId)
  /-- The frame that a closure was made in. -/
  | origin (k : Closure)
  | evaluate (limit : Option Nat) (e : Expression) (f : FrameId)
  | apply (v : Value) (arguments : List Value) (f : FrameId)
  | source (i : Interpreter) (text : String)

/-- What a client is given. -/
structure Handout where
  frames : List FrameId := []
  values : List Value := []

namespace Operation

/-- The frames that an operation is asked for with. -/
def frames : Operation → List FrameId
  | root | globalFrame | create _ | origin _ => []
  | child f _ | install f | define f _ _ | assign f _ _ | lookup f _ | list f | parent f
  | evaluate _ _ f | apply _ _ f => [f]
  | reset i | source i _ => [i.globalFrame]

/-- The values that an operation is asked for with. -/
def values (host : Host) : Operation → List Value
  | root | globalFrame | create _ | reset _ | lookup _ _ | list _ | parent _ | evaluate _ _ _
  | source _ _ => []
  | child _ entries => entries.map Prod.snd
  | install _ => host.map fun procedure => .procedure (.native (.host procedure.name))
  | define _ _ v | assign _ _ v => [v]
  | origin k => [.procedure (.closure k)]
  | apply v arguments _ => v :: arguments

def handFrame (f : FrameId) : Handout := { frames := [f] }

def handValue (v : Value) : Handout := { values := [v] }

def handNothing (_ : Unit) : Handout := {}

/-- Performs an operation where native procedures are called in some way. It is the host that has
procedures to install. -/
def performBy (caller : Caller) (host : Host) : Operation → Action Handout
  | root => handFrame <$> addFrame [] none
  | child f entries => handFrame <$> addFrame entries (some f)
  | globalFrame => handFrame <$> Interpreter.makeGlobalFrame
  | create options => (handFrame ∘ Interpreter.globalFrame) <$> Interpreter.create options
  | reset i => (handFrame ∘ Interpreter.globalFrame) <$> i.reset
  | install f => handNothing <$> Interpreter.install host f
  | define f name v => handNothing <$> Action.define f name v
  | assign f name v => handNothing <$> Action.assign f name v
  | lookup f name => handValue <$> Action.lookup f name
  | list f => (fun m => { values := (m.store.visible f).entries.map Prod.snd }) <$> get
  | parent f => (fun m => { frames := (m.store.parent? f).toList }) <$> get
  | origin k => pure (handFrame k.frame)
  | evaluate limit e f => handValue <$> Interpreter.evaluateBy caller limit e f
  | apply v arguments f => handValue <$> applyUnlimited caller v arguments f
  | source i text => handValue <$> i.evalSourceBy caller text

/-- Performs an operation with the procedures of a host. -/
def perform (host : Host) : Operation → Action Handout := performBy host host

end Operation

/-- A client that has nothing yet. -/
def start : Client := ⟨.empty, [], []⟩

/-- Whether a closure has come to a client, in a list maybe. -/
def Has (x : Client) (k : Closure) : Prop := ∃ v ∈ x.values, .closure k ∈ v.procedures

/-- Whether a client can use a procedure. Procedures of the host are made by the client, from
closures that it has. -/
def Knows (captured : List Closure) (x : Client) : Procedure → Prop
  | .native (.builtin _) => True
  | .native (.host _) => ∀ k ∈ captured, x.Has k
  | .closure k => x.Has k

/-- Whether a client can ask for an operation. -/
structure Permits (host : Host) (captured : List Closure) (x : Client) (operation : Operation) :
    Prop where
  frames : ∀ f ∈ operation.frames, f ∈ x.frames
  values : ∀ v ∈ operation.values host, ∀ p ∈ v.procedures, x.Knows captured p

/-- A client after an operation with this outcome. -/
def conclude (x : Client) : Outcome Handout → Client
  | .ok handout machine => ⟨machine, handout.frames ++ x.frames, handout.values ++ x.values⟩
  | .error _ machine => { x with machine }

/-- A client after an operation, which may have failed, where native procedures are called in some
way. -/
def afterBy (caller : Caller) (host : Host) (x : Client) (operation : Operation) : Client :=
  x.conclude (operation.performBy caller host x.machine)

/-- A client of a host after an operation. -/
def after (host : Host) : Client → Operation → Client := afterBy host host

/-- What can become of a client, by any number of operations. -/
def LeadsBy (caller : Caller) (host : Host) (captured : List Closure) : Client → Client → Prop :=
  Relation.ReflTransGen fun x y =>
    ∃ operation, x.Permits host captured operation ∧ y = x.afterBy caller host operation

/-- What can become of a client of a host. -/
def Leads (host : Host) (captured : List Closure) : Client → Client → Prop :=
  LeadsBy host host captured

variable {d : Discipline} {host : Host} {captured : List Closure} {x y : Client}

/-- A discipline that clients cannot leave. Any form can be evaluated, what is bound in a store may
come up, and so may procedures of the host where the closures may that they were made with. Frames
can be made below the ones at hand, and those above them and those of closures are at hand as
well. -/
structure Governs (d : Discipline) (host : Host) (captured : List Closure) :
    Prop extends d.Lawful host where
  forms : ∀ e, d.Forms e
  nothing : d.Stores .empty
  held : ∀ {s p}, d.Stores s → s.Holds p → d.Procedures s p
  opens : ∀ {s entries parent}, d.Stores s → d.Entries s entries → (∀ f ∈ parent, d.Frames s f) →
    d.Stores (s.addFrame (.ofList entries) parent).2 ∧
      d.Frames (s.addFrame (.ofList entries) parent).2 s.frames.size
  above : ∀ {s f g}, d.Stores s → d.Frames s f → s.Under f g → d.Frames s g
  origin : ∀ {s k}, d.Procedures s (.closure k) → d.Frames s k.frame
  builtin : ∀ s procedure, d.Procedures s (.native (.builtin procedure))
  outside : ∀ {s}, (∀ k ∈ captured, d.Procedures s (.closure k)) →
    ∀ name, d.Procedures s (.native (.host name))

/-- A client that keeps to a discipline. -/
structure Follows (d : Discipline) (x : Client) : Prop where
  stores : d.Stores x.machine.store
  frames : ∀ f ∈ x.frames, d.Frames x.machine.store f
  values : ∀ v ∈ x.values, d.Values x.machine.store v

/-- What a client can be given. -/
def Handout.Within (d : Discipline) (s : Store) (handout : Handout) : Prop :=
  (∀ f ∈ handout.frames, d.Frames s f) ∧ ∀ v ∈ handout.values, d.Values s v

theorem handFrame_within {s : Store} {f : FrameId} (hFrame : d.Frames s f) :
    (Operation.handFrame f).Within d s :=
  ⟨fun _ hMem => List.mem_singleton.1 hMem ▸ hFrame, nofun⟩

theorem handValue_within {s : Store} {v : Value} (hValue : d.Values s v) :
    (Operation.handValue v).Within d s :=
  ⟨nofun, fun _ hMem => List.mem_singleton.1 hMem ▸ hValue⟩

theorem handNothing_within (s : Store) (done : Unit) : (Operation.handNothing done).Within d s :=
  ⟨nofun, nofun⟩

namespace Governs

section

variable {m : Machine} (g : Governs d host captured) (hStores : d.Stores m.store)

include g hStores

theorem keeps_addFrame {entries : List (String × Value)} (hEntries : d.Entries m.store entries)
    {parent : Option FrameId} (hParent : ∀ f ∈ parent, d.Frames m.store f) :
    d.Keeps m.store d.Frames (addFrame entries parent m) := by
  obtain ⟨hAdded, hFrame⟩ := g.opens hStores hEntries hParent
  refine ⟨.addFrame _ _ _, hAdded, fun f hResult => ?_⟩
  cases hResult
  exact hFrame

/-- A global frame binds floats and builtin procedures. -/
theorem keeps_makeGlobalFrame : d.Keeps m.store d.Frames (Interpreter.makeGlobalFrame m) := by
  have hEntries : d.Entries m.store (Interpreter.constants ++ Interpreter.builtins) := by
    intro entry hMem p hProcedure
    rcases Interpreter.global_cases hMem with ⟨x, hConstant⟩ | ⟨procedure, hBuiltin⟩
    · rw [hConstant] at hProcedure
      cases hProcedure
    · rw [hBuiltin] at hProcedure
      exact List.mem_singleton.1 hProcedure ▸ g.builtin m.store procedure
  have hNone : ∀ f ∈ (none : Option FrameId), d.Frames m.store f := nofun
  obtain ⟨hGrows, hMade, hFrame⟩ := g.keeps_addFrame hStores hEntries hNone
  exact ⟨hGrows, hMade, hFrame⟩

/-- A client defines values that it can use, in frames that it has. -/
theorem keeps_define {v : Value} {f : FrameId} (hFrame : d.Frames m.store f)
    (hValue : d.Values m.store v) (name : String) :
    d.Keeps m.store (fun _ _ => True) (define f name v m) where
  grows := .define _ _ _ _
  stores := g.define hStores hFrame hValue name
  good _ _ := trivial

/-- An assignment fails and changes nothing, or is a definition in the frame that binds the name. -/
theorem keeps_assign {v : Value} {f : FrameId} (hFrame : d.Frames m.store f)
    (hValue : d.Values m.store v) (name : String) :
    d.Keeps m.store (fun _ _ => True) (assign f name v m) := by
  rw [assign_apply]
  cases hOwner : m.store.owner? f name with
  | none => exact ⟨.refl _, hStores, nofun⟩
  | some owner =>
    have hAssigned : d.Stores (m.store.define owner name v) :=
      g.assign hStores hFrame hValue
        (g.forms (.list [.text Keyword.assign.name, .text name, .nil])) hOwner
    exact ⟨.define _ _ _ _, hAssigned, fun _ _ => trivial⟩

/-- What is found is bound, so it may come up. -/
theorem keeps_lookup (f : FrameId) (name : String) :
    d.Keeps m.store d.Values (lookup f name m) := by
  rw [lookup_apply]
  cases hFound : m.store.lookup? f name with
  | none => exact ⟨.refl _, hStores, nofun⟩
  | some v =>
    refine ⟨.refl _, hStores, fun u hResult => ?_⟩
    cases hResult
    exact fun p hMem => g.held hStores (Store.holds_of_lookup? hFound hMem)

end

variable (g : Governs d host captured)

include g

/-- The procedures of the host one after another, by induction on them. -/
theorem keeps_install {f : FrameId} {procedures : Host} {m : Machine} (hStores : d.Stores m.store)
    (hFrame : d.Frames m.store f)
    (hProcedures : ∀ procedure ∈ procedures, d.Procedures m.store
      (.native (.host procedure.name))) :
    d.Keeps m.store (fun _ _ => True) (Interpreter.install procedures f m) := by
  induction procedures generalizing m with
  | nil => exact ⟨.refl _, hStores, fun _ _ => trivial⟩
  | cons procedure rest ih =>
    obtain ⟨hFirst, hRest⟩ := List.forall_mem_cons.1 hProcedures
    have hValue : d.Values m.store (.procedure (.native (.host procedure.name))) :=
      fun p hMem => List.mem_singleton.1 hMem ▸ hFirst
    obtain ⟨hGrows, hDefined, -⟩ := g.keeps_define hStores hFrame hValue procedure.name
    let next : Machine := ⟨m.store.define f procedure.name
      (.procedure (.native (.host procedure.name))), .registering procedure.name :: m.events⟩
    have hLater := ih (m := next) hDefined (g.frames_mono hGrows hFrame)
      fun later hMem => g.procedures_mono hGrows (hRest later hMem)
    exact ⟨hGrows.trans hLater.grows, hLater.stores, fun _ _ => trivial⟩

/-- What a client can use may come up. -/
theorem procedures (h : x.Follows d) {p : Procedure} (hKnows : x.Knows captured p) :
    d.Procedures x.machine.store p := by
  have hHas {k : Closure} (hHas : x.Has k) : d.Procedures x.machine.store (.closure k) := by
    obtain ⟨v, hMem, hProcedure⟩ := hHas
    exact h.values v hMem _ hProcedure
  match p with
  | .native (.builtin procedure) => exact g.builtin _ procedure
  | .native (.host name) => exact g.outside (fun k hMem => hHas (hKnows k hMem)) name
  | .closure k => exact hHas hKnows

/-- The step of a client, whatever it asks for. -/
theorem keeps_perform (h : x.Follows d) {operation : Operation}
    (hPermits : x.Permits host captured operation) :
    d.Keeps x.machine.store (fun s handout => handout.Within d s)
      (operation.perform host x.machine) := by
  have hStores := h.stores
  have hFrames (f : FrameId) (hMem : f ∈ operation.frames) : d.Frames x.machine.store f :=
    h.frames f (hPermits.frames f hMem)
  have hValues (v : Value) (hMem : v ∈ operation.values host) : d.Values x.machine.store v :=
    fun p hProcedure => g.procedures h (hPermits.values v hMem p hProcedure)
  cases operation with
  | root =>
    have hNone : ∀ f ∈ (none : Option FrameId), d.Frames x.machine.store f := nofun
    have hNothing : d.Entries x.machine.store [] := nofun
    exact (g.keeps_addFrame hStores hNothing hNone).map handFrame_within
  | child f entries =>
    refine (g.keeps_addFrame hStores (fun entry hEntry => ?_) fun g hMem => ?_).map handFrame_within
    · exact hValues entry.2 (List.mem_map_of_mem hEntry)
    · exact Option.mem_some.1 hMem ▸ hFrames f List.mem_cons_self
  | globalFrame => exact (g.keeps_makeGlobalFrame hStores).map handFrame_within
  | create options =>
    have hMade := g.keeps_makeGlobalFrame
      (m := ⟨x.machine.store, .creatingInterpreter options :: x.machine.events⟩) hStores
    exact hMade.map handFrame_within
  | reset i =>
    have hMade :=
      g.keeps_makeGlobalFrame (m := ⟨x.machine.store, .resetting :: x.machine.events⟩) hStores
    exact hMade.map handFrame_within
  | install f =>
    refine (g.keeps_install hStores (hFrames f List.mem_cons_self) fun procedure hMem => ?_).map
      fun _ => handNothing_within _ _
    exact hValues _ (List.mem_map_of_mem hMem) _ (List.mem_singleton_self _)
  | define f name v =>
    exact (g.keeps_define hStores (hFrames f List.mem_cons_self) (hValues v List.mem_cons_self)
      name).map
      fun _ => handNothing_within _ _
  | assign f name v =>
    exact (g.keeps_assign hStores (hFrames f List.mem_cons_self) (hValues v List.mem_cons_self)
      name).map
      fun _ => handNothing_within _ _
  | lookup f name => exact (g.keeps_lookup hStores f name).map handValue_within
  | list f =>
    refine ⟨.refl _, hStores, fun handout hResult => ?_⟩
    cases hResult
    refine ⟨nofun, fun v hMem p hProcedure => ?_⟩
    obtain ⟨entry, hEntry, rfl⟩ := List.mem_map.1 hMem
    exact g.held hStores (Store.holds_of_mem_visible hEntry hProcedure)
  | parent f =>
    refine ⟨.refl _, hStores, fun handout hResult => ?_⟩
    cases hResult
    refine ⟨fun parent hMem => ?_, nofun⟩
    exact g.above hStores (hFrames f List.mem_cons_self) (Option.mem_toList.1 hMem)
  | origin k =>
    refine ⟨.refl _, hStores, fun handout hResult => ?_⟩
    cases hResult
    exact handFrame_within (g.origin (hValues _ List.mem_cons_self _ (List.mem_singleton_self _)))
  | evaluate limit e f =>
    exact (g.evaluate limit (g.forms e) (hFrames f List.mem_cons_self) hStores).map handValue_within
  | apply v arguments f =>
    refine (g.apply (hValues v List.mem_cons_self) (fun u hMem => ?_) (hFrames f List.mem_cons_self)
      hStores).map handValue_within
    exact hValues u (List.mem_cons_of_mem _ hMem)
  | source i text =>
    exact (g.evalSource g.forms i (hFrames _ List.mem_cons_self) hStores text).map handValue_within

/-- A step of a client, with all that it is given and with what it had before. -/
theorem follows_after (h : x.Follows d) {operation : Operation}
    (hPermits : x.Permits host captured operation) :
    (x.after host operation).Follows d ∧
      x.machine.store.Grows (x.after host operation).machine.store := by
  obtain ⟨hGrows, hStores, hGood⟩ := g.keeps_perform h hPermits
  show (x.conclude (operation.perform host x.machine)).Follows d ∧
    x.machine.store.Grows (x.conclude (operation.perform host x.machine)).machine.store
  generalize operation.perform host x.machine = outcome at hGrows hStores hGood
  have hFrames (f : FrameId) (hMem : f ∈ x.frames) : d.Frames (Outcome.machine outcome).store f :=
    g.frames_mono hGrows (h.frames f hMem)
  have hValues (v : Value) (hMem : v ∈ x.values) : d.Values (Outcome.machine outcome).store v :=
    g.values_mono hGrows (h.values v hMem)
  cases outcome with
  | error interrupt machine => exact ⟨⟨hStores, hFrames, hValues⟩, hGrows⟩
  | ok handout machine =>
    obtain ⟨hGivenFrames, hGivenValues⟩ := hGood handout rfl
    refine ⟨⟨hStores, fun f hMem => ?_, fun v hMem => ?_⟩, hGrows⟩
    · exact (List.mem_append.1 hMem).elim (hGivenFrames f) (hFrames f)
    · exact (List.mem_append.1 hMem).elim (hGivenValues v) (hValues v)

/-- So a client keeps to a discipline, by induction on the operations. -/
theorem follows_of_leads (h : x.Follows d) (hLeads : Leads host captured x y) :
    y.Follows d ∧ x.machine.store.Grows y.machine.store := by
  induction hLeads with
  | refl => exact ⟨h, .refl _⟩
  | tail _ hStep ih =>
    obtain ⟨operation, hPermits, rfl⟩ := hStep
    obtain ⟨hFollows, hGrows⟩ := g.follows_after ih.1 hPermits
    exact ⟨hFollows, ih.2.trans hGrows⟩

theorem follows_start : start.Follows d where
  stores := g.nothing
  frames := nofun
  values := nofun

end Governs

/-- Sound scopes are a discipline that no client gets out of. -/
theorem governs_scoping (hHost : host.AnswersFrom captured) :
    Governs (scoping captured) host captured where
  toLawful := scoping_lawful hHost
  forms _ := trivial
  nothing := .empty
  held hStores := Store.Scoped.held hStores
  opens := by
    intro s entries parent hStores hEntries hParent
    refine ⟨Store.Scoped.addFrame hStores hEntries hParent, ?_⟩
    show s.frames.size < (s.addFrame _ parent).2.frames.size
    rw [Store.size_addFrame]
    exact Nat.lt_succ_self _
  above hStores hFrame hUnder := Nat.lt_trans (hStores.ordered hUnder) hFrame
  origin := by
    intro s k hClosure
    cases hClosure with
    | closure hFrame => exact hFrame
  builtin _ procedure := .builtin procedure
  outside := by
    intro s hCaptured name
    refine .host (fun k hMem => ?_) name
    cases hCaptured k hMem with
    | closure hFrame => exact hFrame

/-- A client on a sound store, all of whose frames and closures there are. -/
structure Sound (captured : List Closure) (x : Client) : Prop where
  stores : x.machine.store.Scoped captured
  frames : ∀ f ∈ x.frames, f < x.machine.store.frames.size
  values : ∀ v ∈ x.values, (scoping captured).Values x.machine.store v

theorem sound_start : start.Sound captured where
  stores := .empty
  frames := nofun
  values := nofun

theorem Sound.admits (h : x.Sound captured) {k : Closure} (hHas : x.Has k) :
    x.machine.store.Admits captured (.closure k) := by
  obtain ⟨v, hMem, hProcedure⟩ := hHas
  exact h.values v hMem _ hProcedure

/-- So a client on a sound store stays on sound stores, and its store only grows. -/
theorem sound_of_leads (hHost : host.AnswersFrom captured) (h : x.Sound captured)
    (hLeads : Leads host captured x y) :
    y.Sound captured ∧ x.machine.store.Grows y.machine.store := by
  obtain ⟨hFollows, hGrows⟩ :=
    (governs_scoping hHost).follows_of_leads ⟨h.stores, h.frames, h.values⟩ hLeads
  exact ⟨⟨hFollows.stores, hFollows.frames, hFollows.values⟩, hGrows⟩

/-- The scopes of a program are sound, whatever a client has asked for and however it went. No frame
is above itself, and above each there is one without a parent. The frames that the client has been
given, those of the closures that it has and those of the closures that are bound anywhere are all
there. No frame binds a name twice. So looking a name up, looking for the binding to change and
listing what is visible all end, the first two after no more rounds than there are frames up to the
one that they begin in, and the last with no more calls inside of each other. And whatever the
client does next, a frame keeps its parent and a name stays bound, in the frame and from wherever it
can be seen. -/
theorem scopes_stay_sound (hHost : host.AnswersFrom captured)
    (hReached : Leads host captured start x) :
    let s := x.machine.store
    (∀ f, ¬Relation.TransGen s.Under f f) ∧
      (∀ f < s.frames.size, ∃ root < s.frames.size,
        Relation.ReflTransGen s.Under f root ∧ s.parent? root = none) ∧
      (∀ f ∈ x.frames, f < s.frames.size) ∧
      (∀ k, s.Holds (.closure k) ∨ x.Has k → k.frame < s.frames.size) ∧
      (∀ f, (s.bindings f).names.Nodup) ∧
      (∀ f name, Loop.run (s.walkRound (s.askValue name)) (f + 1) f = some (s.lookup? f name)) ∧
      (∀ f name, Loop.run (s.walkRound (s.askOwner name)) (f + 1) f = some (s.owner? f name)) ∧
      (∀ f, s.gather (f + 1) f = some (s.visible f)) ∧
      ∀ y, Leads host captured x y →
        let t := y.machine.store
        (∀ f < s.frames.size, f < t.frames.size ∧ t.parent? f = s.parent? f) ∧
          (∀ f name, (s.bindings f).binds name → (t.bindings f).binds name) ∧
          ∀ f name, (s.lookup? f name).isSome → (t.lookup? f name).isSome := by
  intro s
  obtain ⟨hSound, -⟩ := sound_of_leads hHost sound_start hReached
  have hOrdered : s.Ordered := hSound.stores.ordered
  have hClosures (k : Closure) (hClosure : s.Holds (.closure k) ∨ x.Has k) :
      k.frame < s.frames.size := by
    have hAdmits : s.Admits captured (.closure k) :=
      hClosure.elim hSound.stores.held (hSound.admits ·)
    cases hAdmits with
    | closure hFrame => exact hFrame
  refine ⟨hOrdered.acyclic, fun f hSize => hOrdered.exists_root hSize, hSound.frames, hClosures,
    fun f => (s.bindings f).nodup_names, Store.run_lookup hOrdered, Store.run_owner hOrdered,
    fun f => Store.gather_eq_visible hOrdered (Nat.lt_succ_self f), fun y hLeads => ?_⟩
  obtain ⟨-, hGrows⟩ := sound_of_leads hHost hSound hLeads
  exact ⟨fun f hSize => ⟨Nat.lt_of_lt_of_le hSize hGrows.size, hGrows.parent hSize⟩,
    fun _ _ => hGrows.binds, fun _ _ => hGrows.lookup?_isSome⟩

/-- A closure that is bound in the frame that it was made in, and then an evaluation that is cut
off. -/
theorem scopes_stay_sound_own_frame :
    let host : Host := [Host.Sample.define]
    let definition : Expression :=
      .list [.text "define", .text "keep", .list [.text "lambda", .list [.text "x"], .text "x"]]
    let k : Closure := ⟨0, ["x"], .text "x", 1⟩
    let x :=
      [.root, .install 0, .child 0 [], .evaluate (some 9) definition 1].foldl (after host) start
    let y := x.after host (.evaluate (some 0) definition 1)
    host.AnswersFrom [] ∧ Leads host [] start x ∧ Leads host [] x y ∧
      x.machine.store.Holds (.closure k) ∧ k.frame < x.machine.store.frames.size ∧
      ¬Relation.TransGen x.machine.store.Under 1 1 ∧
      Loop.run (x.machine.store.walkRound (x.machine.store.askValue "keep")) 2 1 =
        some (x.machine.store.lookup? 1 "keep") ∧
      y.machine.store.parent? 1 = x.machine.store.parent? 1 := by
  intro host definition k x y
  have hHost : host.AnswersFrom [] := by
    intro procedure hMem arguments isBound answer hAnswer v hValue closure hClosure
    cases List.mem_singleton.1 hMem
    unfold Host.Sample.define at hAnswer
    dsimp only at hAnswer
    split at hAnswer
    next =>
      cases hAnswer
      simp only [List.map_cons, List.map_nil, List.mem_cons, List.not_mem_nil, or_false] at hValue
      rcases hValue with rfl | rfl
      · cases hClosure
      · exact .inr ⟨v, List.mem_cons_of_mem _ List.mem_cons_self, hClosure⟩
    next => cases hAnswer
  have hPermits (z : Client) (operation : Operation) (hFrames : operation.frames ⊆ z.frames)
      (hValues : ∀ v ∈ operation.values host, v = .procedure (.native (.host "host-define"))) :
      z.Permits host [] operation := by
    refine ⟨fun f hMem => hFrames hMem, fun v hMem p hProcedure => ?_⟩
    cases hValues v hMem
    cases List.mem_singleton.1 hProcedure
    exact nofun
  have hInstalls : ∀ v ∈ (Operation.install 0).values host, v =
      .procedure (.native (.host "host-define")) :=
    fun v hMem => List.mem_singleton.1 hMem
  have hReached : Leads host [] start x := by
    refine .tail (.tail (.tail (.single ⟨.root, hPermits _ _ ?_ nofun, rfl⟩)
      ⟨.install 0, hPermits _ _ ?_ hInstalls, rfl⟩) ⟨.child 0 [], hPermits _ _ ?_ nofun, rfl⟩)
      ⟨.evaluate (some 9) definition 1, hPermits _ _ ?_ nofun, rfl⟩
    · exact List.nil_subset _
    · exact List.Subset.refl [0]
    · exact List.Subset.refl [0]
    · exact List.subset_append_left [1] [0]
  have hLater : Leads host [] x y :=
    .single ⟨_, hPermits x (.evaluate (some 0) definition 1) (List.subset_append_left [1] [0])
      nofun, rfl⟩
  have hHeld : x.machine.store.Holds (.closure k) :=
    ⟨1, "keep", .procedure (.closure k), rfl, List.mem_singleton_self _⟩
  obtain ⟨hAcyclic, -, -, hClosures, -, hLookup, -, -, hKept⟩ := scopes_stay_sound hHost hReached
  exact ⟨hHost, hReached, hLater, hHeld, hClosures k (.inl hHeld), hAcyclic 1, hLookup 1 "keep",
    ((hKept y hLater).1 1 (hClosures k (.inl hHeld))).2⟩

end Client

end EmbeddedLisp
