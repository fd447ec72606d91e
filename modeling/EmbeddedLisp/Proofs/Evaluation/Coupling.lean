import EmbeddedLisp.Evaluation
import Mathlib.Data.List.Forall2
import Mathlib.Data.List.Nodup

/-! Two runs of the evaluator side by side. A coupling says what the runs have in common: their
machines, the frames they work in and the values they come to, relative to a world that only grows.
If the single actions keep a coupling, then so does the evaluation of every form. -/
namespace EmbeddedLisp

open EmbeddedLisp.Action Form Evaluation

/-- The interrupt with another error, if it is one. -/
def Interrupt.mapError (f : Error → Error) : Interrupt → Interrupt
  | .error cause => .error (f cause)
  | .outOfLevels => .outOfLevels

theorem Action.mapError_eq {α : Type} (f : Error → Error) (action : Action α) :
    Action.mapError f action = action.adaptExcept (Interrupt.mapError f) := rfl

theorem Action.mapError_apply {α : Type} (f : Error → Error) (action : Action α) (m : Machine) :
    Action.mapError f action m =
      match action m with
      | .ok x after => .ok x after
      | .error interrupt after => .error (interrupt.mapError f) after := by
  rw [Action.mapError_eq, EStateM.adaptExcept]
  cases action m <;> rfl

/-- How an action ended, and the machine that it left. -/
abbrev Outcome (α : Type) := EStateM.Result Interrupt Machine α

namespace Outcome

variable {α : Type}

/-- The result, or what interrupted the action. -/
def result : Outcome α → Except Interrupt α
  | .ok x _ => .ok x
  | .error interrupt _ => .error interrupt

/-- The machine that is left, whether there is a result or not. -/
def machine : Outcome α → Machine
  | .ok _ m => m
  | .error _ m => m

end Outcome

/-- What two runs have in common, in a world that they have come to together. -/
structure Coupling where
  World : Type
  Extends : World → World → Prop
  Machines : World → Machine → Machine → Prop
  /-- Frames that the two runs evaluate the same form in. -/
  Frames : World → FrameId → FrameId → Prop
  Values : World → Value → Value → Prop
  /-- What interrupts the one run and the other. -/
  Interrupts : Interrupt → Interrupt → Prop
  /-- The forms that are evaluated. -/
  Forms : Expression → Prop
  /-- Whether the second run may have more levels than the first. -/
  ahead : Prop

namespace Coupling

variable {α β γ δ : Type}

/-- Both runs end in the same way, in a world reached from the one they started in. A first run that
is out of levels says nothing about a second one that has more. -/
inductive Outcomes (c : Coupling) (w : c.World) (R : c.World → α → β → Prop) :
    Outcome α → Outcome β → Prop where
  | done {x : α} {y : β} {m n : Machine} (later : c.World) (hLater : c.Extends w later)
      (hMachines : c.Machines later m n) (hResult : R later x y) :
      Outcomes c w R (.ok x m) (.ok y n)
  | stopped {i j : Interrupt} {m n : Machine} (later : c.World) (hLater : c.Extends w later)
      (hMachines : c.Machines later m n) (hInterrupts : c.Interrupts i j) :
      Outcomes c w R (.error i m) (.error j n)
  | outrun {m : Machine} {outcome : Outcome β} (hAhead : c.ahead) :
      Outcomes c w R (.error .outOfLevels m) outcome

/-- Two actions that keep the coupling, with related results. -/
def Together (c : Coupling) (w : c.World) (R : c.World → α → β → Prop)
    (a : Action α) (b : Action β) : Prop :=
  ∀ ⦃m n⦄, c.Machines w m n → c.Outcomes w R (a m) (b n)

/-- The relation between the results of actions that are run for their effect. -/
def Nothing (c : Coupling) : c.World → Unit → Unit → Prop := fun _ _ _ => True

/-- Entries for the same names in the same order, with related values. -/
def Entries (c : Coupling) (w : c.World) : List (String × Value) → List (String × Value) → Prop :=
  List.Forall₂ fun x y => x.1 = y.1 ∧ c.Values w x.2 y.2

/-- The events that an evaluation records. -/
inductive Events (c : Coupling) (w : c.World) : Event → Event → Prop where
  | defining (name : String) {v v' : Value} (hValues : c.Values w v v') :
      Events c w (.defining name v) (.defining name v')
  | assigned (name : String) {v v' : Value} (hValues : c.Values w v v') :
      Events c w (.assigned name v) (.assigned name v')
  | applying (parameters : List String) (arguments : Nat) :
      Events c w (.applying parameters arguments) (.applying parameters arguments)

/-- Evaluators that keep the coupling on every form that is evaluated. -/
def Evaluators (c : Coupling) (evaluate evaluate' : Evaluator) : Prop :=
  ∀ ⦃w e f g⦄, c.Forms e → c.Frames w f g → c.Together w c.Values (evaluate e f) (evaluate' e g)

/-- What a coupling has to satisfy: worlds grow, the parts of forms are forms, related values look
the same from outside, and the actions of the evaluator keep the coupling one by one. -/
structure Lawful (c : Coupling) (caller : Caller) : Prop where
  error : ∀ error, c.Interrupts (.error error) (.error error)
  inForm : ∀ {i j} e, c.Interrupts i j →
    c.Interrupts (i.mapError (Error.inForm e)) (j.mapError (Error.inForm e))
  refl : ∀ w, c.Extends w w
  trans : ∀ {w w' w''}, c.Extends w w' → c.Extends w' w'' → c.Extends w w''
  frames_mono : ∀ {w w' f g}, c.Extends w w' → c.Frames w f g → c.Frames w' f g
  values_mono : ∀ {w w' v v'}, c.Extends w w' → c.Values w v v' → c.Values w' v v'
  form_head : ∀ {head rest}, c.Forms (.list (head :: rest)) →
    head.symbol?.bind Keyword.ofName? = none → c.Forms head
  form_rest : ∀ {head rest}, c.Forms (.list (head :: rest)) → ∀ e ∈ rest, c.Forms e
  form_body : ∀ {body}, (∀ e ∈ body, c.Forms e) → c.Forms (joinBody body)
  quoted : ∀ w e, c.Values w (.ofExpression e) (.ofExpression e)
  kind : ∀ {w v v'}, c.Values w v v' → v'.kind = v.kind
  truth : ∀ {w v v'}, c.Values w v v' → v'.isTrue = v.isTrue
  closure : ∀ {w k v'}, c.Values w (.procedure (.closure k)) v' →
    ∃ k', v' = .procedure (.closure k') ∧
    k'.parameters = k.parameters ∧ k'.body = k.body ∧ c.Forms k.body
  native : ∀ {w native v'}, c.Values w (.procedure (.native native)) v' →
    v' = .procedure (.native native)
  record : ∀ {w event event'}, c.Events w event event' →
    c.Together w c.Nothing (record event) (record event')
  lookup : ∀ {w f g name}, c.Frames w f g → c.Forms (.text name) → literalContents? name = none →
    c.Together w c.Values (lookup f name) (lookup g name)
  define : ∀ {w f g v v'} (name), c.Frames w f g → c.Values w v v' →
    c.Together w c.Nothing (define f name v) (define g name v')
  assign : ∀ {w f g v v' name e}, c.Frames w f g → c.Values w v v' →
    c.Forms (.list [.text Keyword.assign.name, .text name, e]) →
    c.Together w c.Nothing (assign f name v) (assign g name v')
  /-- A frame for the names of a form, below the one it stands in. -/
  child : ∀ {w f g entries entries'}, c.Frames w f g → c.Entries w entries entries' →
    c.Together w c.Frames (addFrame entries (some f)) (addFrame entries' (some g))
  /-- A frame for the parameters of a closure, below the one it was made in. -/
  call : ∀ {w k k' entries entries'},
    c.Values w (.procedure (.closure k)) (.procedure (.closure k')) → c.Entries w entries entries' →
    c.Together w c.Frames (addFrame entries (some k.frame)) (addFrame entries' (some k'.frame))
  addClosure : ∀ {w f g names body}, c.Frames w f g → c.Forms body → names.Nodup →
    (∀ name ∈ names, literalContents? name = none) →
    c.Together w c.Values (addClosure names body f) (addClosure names body g)
  callNative : ∀ {w f g native arguments arguments'}, c.Frames w f g →
    c.Values w (.procedure (.native native)) (.procedure (.native native)) →
    List.Forall₂ (c.Values w) arguments arguments' →
    c.Together w c.Values (caller native arguments f) (caller native arguments' g)

variable {c : Coupling} {caller : Caller} {w : c.World}

/-- Related entries bind the same names. -/
theorem entries_any {entries entries' : List (String × Value)}
    (hEntries : c.Entries w entries entries') (name : String) :
    entries.any (·.1 = name) = entries'.any (·.1 = name) := by
  induction hEntries with
  | nil => rfl
  | cons hEntry _ ih => simp only [List.any_cons, hEntry.1, ih]

theorem entries_zip (names : List String) {vs vs' : List Value}
    (hValues : List.Forall₂ (c.Values w) vs vs') : c.Entries w (names.zip vs) (names.zip vs') := by
  induction names generalizing vs vs' with
  | nil => exact .nil
  | cons name rest ih =>
    cases hValues with
    | nil => exact .nil
    | cons hFirst hRest => exact .cons ⟨rfl, hFirst⟩ (ih hRest)

namespace Lawful

theorem pure (h : c.Lawful caller) {R : c.World → α → β → Prop} {x : α} {y : β}
    (hResult : R w x y) :
    c.Together w R (Pure.pure x) (Pure.pure y) :=
  fun _ _ hMachines => .done w (h.refl w) hMachines hResult

theorem fail (h : c.Lawful caller) {R : c.World → α → β → Prop} (error : Error) :
    c.Together w R (Action.fail error) (Action.fail error) :=
  fun _ _ hMachines => .stopped w (h.refl w) hMachines (h.error error)

theorem reject (h : c.Lawful caller) {R : c.World → α → β → Prop} (fault : Fault) :
    c.Together w R (Action.reject fault) (Action.reject fault) :=
  h.fail _

/-- What holds from a later world on holds from an earlier one. -/
theorem rebase (h : c.Lawful caller) {w' : c.World} {R : c.World → α → β → Prop}
    {left : Outcome α} {right : Outcome β} (hLater : c.Extends w w')
    (hOutcomes : c.Outcomes w' R left right) : c.Outcomes w R left right := by
  cases hOutcomes with
  | done w'' hMore hMachines hResult => exact .done w'' (h.trans hLater hMore) hMachines hResult
  | stopped w'' hMore hMachines hInterrupts =>
    exact .stopped w'' (h.trans hLater hMore) hMachines hInterrupts
  | outrun hAhead => exact .outrun hAhead

/-- Actions in sequence. The second ones start in the world that the first ones have reached. -/
theorem bind (h : c.Lawful caller) {R : c.World → α → β → Prop} {Q : c.World → γ → δ → Prop}
    {a : Action α} {b : Action β} {f : α → Action γ} {g : β → Action δ}
    (hFirst : c.Together w R a b)
    (hSecond : ∀ {w' x y}, c.Extends w w' → R w' x y → c.Together w' Q (f x) (g y)) :
    c.Together w Q (a >>= f) (b >>= g) := by
  intro m n hMachines
  have hOutcomes := hFirst hMachines
  simp only [Bind.bind, EStateM.bind]
  generalize a m = left at hOutcomes
  generalize b n = right at hOutcomes
  cases hOutcomes with
  | done w' hLater hMachines hResult => exact h.rebase hLater (hSecond hLater hResult hMachines)
  | stopped w' hLater hMachines hInterrupts => exact .stopped w' hLater hMachines hInterrupts
  | outrun hAhead => exact .outrun hAhead

/-- A function of the result neither changes the machines nor interrupts anything. -/
theorem map (h : c.Lawful caller) {R : c.World → α → β → Prop} {Q : c.World → γ → δ → Prop}
    {a : Action α} {b : Action β} {f : α → γ} {g : β → δ} (hActions : c.Together w R a b)
    (hResult : ∀ {w' x y}, R w' x y → Q w' (f x) (g y)) : c.Together w Q (f <$> a) (g <$> b) := by
  rw [map_eq_pure_bind, map_eq_pure_bind]
  exact h.bind hActions fun _ hRelated => h.pure (hResult hRelated)

/-- A list is put around what interrupts either run. -/
theorem mapError (h : c.Lawful caller) {R : c.World → α → β → Prop} {a : Action α} {b : Action β}
    (e : Expression) (hActions : c.Together w R a b) :
    c.Together w R (Action.mapError (Error.inForm e) a) (Action.mapError (Error.inForm e) b) := by
  intro m n hMachines
  have hOutcomes := hActions hMachines
  simp only [Action.mapError_eq, EStateM.adaptExcept]
  generalize a m = left at hOutcomes
  generalize b n = right at hOutcomes
  cases hOutcomes with
  | done w' hLater hMachines hResult => exact .done w' hLater hMachines hResult
  | stopped w' hLater hMachines hInterrupts =>
    exact .stopped w' hLater hMachines (h.inForm e hInterrupts)
  | outrun hAhead => exact .outrun hAhead

/-- Actions in turn, for the value of the last one. -/
theorem inTurn (h : c.Lawful caller) {ι : Type} {items : List ι} {a b : ι → Action Value}
    (hEach : ∀ item ∈ items, ∀ w', c.Extends w w' → c.Together w' c.Values (a item) (b item))
    {v v' : Value} (hValues : c.Values w v v') :
    c.Together w c.Values (items.foldlM (fun _ item => a item) v)
      (items.foldlM (fun _ item => b item) v') := by
  induction items generalizing w v v' with
  | nil => exact h.pure hValues
  | cons item rest ih =>
    simp only [List.foldlM_cons]
    refine h.bind (hEach item List.mem_cons_self w (h.refl w)) fun hLater hValues => ?_
    refine ih (fun item hMem w'' hMore => ?_) hValues
    exact hEach item (List.mem_cons_of_mem _ hMem) w'' (h.trans hLater hMore)

section

variable {evaluate evaluate' : Evaluator} {f g : FrameId}

theorem entries_mono (h : c.Lawful caller) {w' : c.World} {entries entries' : List (String × Value)}
    (hLater : c.Extends w w') (hEntries : c.Entries w entries entries') :
    c.Entries w' entries entries' :=
  List.Forall₂.imp (fun _ _ hEntry => ⟨hEntry.1, h.values_mono hLater hEntry.2⟩) hEntries

/-- Forms in turn, by induction on them. Each starts in the world that those before it have come
to. -/
theorem evaluateEach (h : c.Lawful caller) (hEvaluate : c.Evaluators evaluate evaluate')
    {forms : List Expression} (hForms : ∀ e ∈ forms, c.Forms e) (hFrames : c.Frames w f g) :
    c.Together w (fun later => List.Forall₂ (c.Values later))
      (forms.mapM (evaluate · f)) (forms.mapM (evaluate' · g)) := by
  induction forms generalizing w with
  | nil => exact h.pure .nil
  | cons e rest ih =>
    rw [List.forall_mem_cons] at hForms
    simp only [List.mapM_cons]
    refine h.bind (hEvaluate hForms.1 hFrames) fun hLater hFirst => ?_
    refine h.bind (ih hForms.2 (h.frames_mono hLater hFrames)) fun hMore hRest => ?_
    exact h.pure (.cons (h.values_mono hMore hFirst) hRest)

theorem evaluateBody (h : c.Lawful caller) (hEvaluate : c.Evaluators evaluate evaluate')
    {forms : List Expression} (hForms : ∀ e ∈ forms, c.Forms e) (hFrames : c.Frames w f g) :
    c.Together w c.Values (Form.evaluateBody evaluate f forms)
      (Form.evaluateBody evaluate' g forms) :=
  h.inTurn (fun e hMem _ hLater => hEvaluate (hForms e hMem) (h.frames_mono hLater hFrames))
    (h.quoted w .nil)

/-- Related values are equally true, so both runs stop at the same form. -/
theorem evaluateUntil (h : c.Lawful caller) (hEvaluate : c.Evaluators evaluate evaluate')
    (decisive : Bool) {forms : List Expression} (hForms : ∀ e ∈ forms, c.Forms e)
    {v v' : Value} (hFrames : c.Frames w f g) (hValues : c.Values w v v') :
    c.Together w c.Values (Form.evaluateUntil evaluate f decisive v forms)
      (Form.evaluateUntil evaluate' g decisive v' forms) := by
  induction forms generalizing w v v' with
  | nil => exact h.pure hValues
  | cons e rest ih =>
    rw [List.forall_mem_cons] at hForms
    refine h.bind (hEvaluate hForms.1 hFrames) fun {_ x y} hLater hValues => ?_
    rw [h.truth hValues]
    by_cases hTrue : x.isTrue = decisive
    · simp only [hTrue, if_true]
      exact h.pure hValues
    · simp only [hTrue, if_false]
      exact ih hForms.2 (h.frames_mono hLater hFrames) hValues

/-- The same form is or is not a symbol in both runs. -/
theorem expectSymbol (h : c.Lawful caller) (binder : Binder) (e : Expression) :
    c.Together w (fun _ x y => x = y ∧ e = .text x ∧ literalContents? x = none)
      (Form.expectSymbol binder e) (Form.expectSymbol binder e) := by
  unfold Form.expectSymbol
  split
  · rename_i name hSymbol
    exact h.pure ⟨rfl, Expression.symbol?_eq_some_iff.1 hSymbol⟩
  · exact h.reject _

/-- Parameters that are taken are distinct symbols. This is what a coupling is told of a closure
that is made. -/
theorem parameterNames (h : c.Lawful caller) {names : List String} (parameters : List Expression)
    (hNodup : names.Nodup) (hSymbols : ∀ name ∈ names, literalContents? name = none) :
    c.Together w (fun _ x y => x = y ∧ x.Nodup ∧ ∀ name ∈ x, literalContents? name = none)
      (Form.parameterNames names parameters) (Form.parameterNames names parameters) := by
  induction parameters generalizing w names with
  | nil => exact h.pure ⟨rfl, hNodup, hSymbols⟩
  | cons e rest ih =>
    refine h.bind (h.expectSymbol .parameter e) fun {_ x y} _ hName => ?_
    obtain ⟨rfl, -, hSymbol⟩ := hName
    by_cases hContains : names.contains x
    · simp only [hContains, if_true]
      exact h.reject _
    · simp only [hContains, Bool.false_eq_true, if_false]
      have hFresh : x ∉ names := by simpa using hContains
      refine ih (List.nodup_append_comm.2 (List.nodup_cons.2 ⟨hFresh, hNodup⟩)) fun name hMem => ?_
      rcases List.mem_append.1 hMem with hMem | hMem
      · exact hSymbols name hMem
      · rwa [List.mem_singleton.1 hMem]

/-- Both runs make a closure of the same parameters and the same body. -/
theorem makeClosure (h : c.Lawful caller) (parameters : List Expression) {body : List Expression}
    (hForms : ∀ e ∈ body, c.Forms e) (hFrames : c.Frames w f g) :
    c.Together w c.Values (Form.makeClosure parameters body f)
      (Form.makeClosure parameters body g) := by
  refine h.bind (h.parameterNames parameters .nil (by simp)) fun hLater hNames => ?_
  obtain ⟨rfl, hNodup, hSymbols⟩ := hNames
  exact h.addClosure (h.frames_mono hLater hFrames) (h.form_body hForms) hNodup hSymbols

/-- The bindings of a `let`, by induction on those that are left, after entries that are related. -/
theorem evaluateBindings (h : c.Lawful caller) (hEvaluate : c.Evaluators evaluate evaluate')
    {bindings : List Expression}
    (hForms : ∀ target e, .list [target, e] ∈ bindings → c.Forms e)
    {entries entries' : List (String × Value)} (hFrames : c.Frames w f g)
    (hEntries : c.Entries w entries entries') :
    c.Together w c.Entries (Form.evaluateBindings evaluate f entries bindings)
      (Form.evaluateBindings evaluate' g entries' bindings) := by
  induction bindings generalizing w entries entries' with
  | nil => exact h.pure hEntries
  | cons binding rest ih =>
    have hRest : ∀ target e, .list [target, e] ∈ rest → c.Forms e :=
      fun target e hMem => hForms target e (List.mem_cons_of_mem _ hMem)
    unfold Form.evaluateBindings
    split
    · contradiction
    · rename_i target e rest' hBinding
      obtain ⟨rfl, rfl⟩ := List.cons.inj hBinding
      refine h.bind (h.expectSymbol .binding target) fun {_ name _} hLater hName => ?_
      obtain ⟨rfl, -, -⟩ := hName
      have hFrames := h.frames_mono hLater hFrames
      have hEntries := h.entries_mono hLater hEntries
      rw [← entries_any hEntries]
      split
      · exact h.reject _
      · refine h.bind (hEvaluate (hForms target e List.mem_cons_self) hFrames)
          fun hMore hValues => ?_
        apply ih hRest (h.frames_mono hMore hFrames)
        exact List.rel_append (h.entries_mono hMore hEntries) (.cons ⟨rfl, hValues⟩ .nil)
    · exact h.reject _

/-- The event, the binding and the value of a definition. -/
theorem bindDefinition (h : c.Lawful caller) (name : String) {v v' : Value}
    (hFrames : c.Frames w f g) (hValues : c.Values w v v') :
    c.Together w c.Values (Form.bindDefinition f name v) (Form.bindDefinition g name v') := by
  refine h.bind (h.record (.defining name hValues)) fun hLater _ => ?_
  have hValues := h.values_mono hLater hValues
  refine h.bind (h.define name (h.frames_mono hLater hFrames) hValues) fun hMore _ => ?_
  exact h.pure (h.values_mono hMore hValues)

/-- A definition of a procedure makes a closure, and another one evaluates a form. -/
theorem evaluateDefinition (h : c.Lawful caller) (hEvaluate : c.Evaluators evaluate evaluate')
    (target : Expression) {body : List Expression} (hForms : ∀ e ∈ body, c.Forms e)
    (hFrames : c.Frames w f g) :
    c.Together w c.Values (Form.evaluateDefinition evaluate f target body)
      (Form.evaluateDefinition evaluate' g target body) := by
  unfold Form.evaluateDefinition
  split
  case h_1 => exact h.reject _
  case h_2 target parameters =>
    refine h.bind (h.expectSymbol .definition target) fun {_ name _} hLater hName => ?_
    obtain ⟨rfl, -, -⟩ := hName
    have hFrames := h.frames_mono hLater hFrames
    refine h.bind (h.makeClosure parameters hForms hFrames) fun hMore hValues => ?_
    exact h.bindDefinition name (h.frames_mono hMore hFrames) hValues
  case h_3 e _ _ =>
    refine h.bind (h.expectSymbol .definition target) fun {_ name _} hLater hName => ?_
    obtain ⟨rfl, -, -⟩ := hName
    have hFrames := h.frames_mono hLater hFrames
    refine h.bind (hEvaluate (hForms e List.mem_cons_self) hFrames) fun hMore hValues => ?_
    exact h.bindDefinition name (h.frames_mono hMore hFrames) hValues
  case h_4 => exact h.reject _

/-- One case for each special form. -/
theorem evaluateForm (h : c.Lawful caller) (hEvaluate : c.Evaluators evaluate evaluate')
    {keyword : Keyword} {parts : List Expression}
    (hForm : c.Forms (.list (.text keyword.name :: parts))) (hFrames : c.Frames w f g) :
    c.Together w c.Values (Form.evaluateForm evaluate f keyword parts)
      (Form.evaluateForm evaluate' g keyword parts) := by
  have hParts := h.form_rest hForm
  unfold Form.evaluateForm
  split
  case h_1 e => exact h.pure (h.quoted w e)
  case h_2 test consequent alternative =>
    simp only [List.forall_mem_cons] at hParts
    refine h.bind (hEvaluate hParts.1 hFrames) fun {_ v _} hLater hValues => ?_
    rw [h.truth hValues]
    have hFrames := h.frames_mono hLater hFrames
    cases v.isTrue with
    | true => exact hEvaluate hParts.2.1 hFrames
    | false => exact hEvaluate hParts.2.2.1 hFrames
  case h_3 target e rest =>
    exact h.evaluateDefinition hEvaluate target (List.forall_mem_cons.1 hParts).2 hFrames
  case h_4 target e =>
    simp only [List.forall_mem_cons] at hParts
    refine h.bind (h.expectSymbol .assignment target) fun {_ name _} hLater hName => ?_
    obtain ⟨rfl, rfl, -⟩ := hName
    have hFrames := h.frames_mono hLater hFrames
    refine h.bind (hEvaluate hParts.2.1 hFrames) fun hMore hValues => ?_
    refine h.bind (h.assign (h.frames_mono hMore hFrames) hValues hForm) fun hMore _ => ?_
    have hValues := h.values_mono hMore hValues
    refine h.bind (h.record (.assigned name hValues)) fun hMore _ => ?_
    exact h.pure (h.values_mono hMore hValues)
  case h_5 parameters e rest =>
    exact h.makeClosure parameters (List.forall_mem_cons.1 hParts).2 hFrames
  case h_6 => exact h.reject _
  case h_7 => exact h.evaluateBody hEvaluate hParts hFrames
  case h_8 bindings e rest =>
    rw [List.forall_mem_cons] at hParts
    have hBindings : ∀ target e, .list [target, e] ∈ bindings → c.Forms e := by
      intro target e hMem
      have hBinding : c.Forms (.list [target, e]) := by
        cases bindings with
        | nil => cases hMem
        | cons first others =>
          rcases List.mem_cons.1 hMem with rfl | hMem
          · exact h.form_head hParts.1 rfl
          · exact h.form_rest hParts.1 _ hMem
      exact h.form_rest hBinding e List.mem_cons_self
    refine h.bind (h.evaluateBindings hEvaluate hBindings hFrames .nil) fun hLater hEntries => ?_
    refine h.bind (h.child (h.frames_mono hLater hFrames) hEntries) fun _ hInner => ?_
    exact h.evaluateBody hEvaluate hParts.2 hInner
  case h_9 => exact h.reject _
  case h_10 => exact h.evaluateUntil hEvaluate false hParts hFrames (h.quoted w (.boolean true))
  case h_11 => exact h.evaluateUntil hEvaluate true hParts hFrames (h.quoted w (.boolean false))
  case h_12 => exact h.reject _

/-- What is no procedure is applied without being looked into. -/
theorem applyWith_of_kind {v : Value} {arguments : List Value}
    (hKind : v.kind ≠ .procedure) : Evaluation.applyWith caller evaluate v arguments f =
      if arguments.isEmpty then Pure.pure v else Action.reject (.notProcedure v.kind) := by
  cases v with
  | procedure => cases hKind rfl
  | _ => rfl

theorem isEmpty_eq {R : α → β → Prop} {xs : List α} {ys : List β} (hEach : List.Forall₂ R xs ys) :
    xs.isEmpty = ys.isEmpty := by
  cases hEach <;> rfl

/-- Related closures take as many arguments, and their bodies are evaluated in related frames. -/
theorem callClosure (h : c.Lawful caller) (hEvaluate : c.Evaluators evaluate evaluate')
    {k k' : Closure} (hClosures : c.Values w (.procedure (.closure k)) (.procedure (.closure k')))
    {arguments arguments' : List Value}
    (hArguments : List.Forall₂ (c.Values w) arguments arguments') :
    c.Together w c.Values (Evaluation.callClosure evaluate k arguments)
      (Evaluation.callClosure evaluate' k' arguments') := by
  obtain ⟨_, hSame, hParameters, hBody, hForm⟩ := h.closure hClosures
  cases hSame
  unfold Evaluation.callClosure
  rw [hParameters, hBody, hArguments.length_eq]
  split
  · refine h.bind (h.record (.applying _ _)) fun hLater _ => ?_
    have hEntries := h.entries_mono hLater (entries_zip k.parameters hArguments)
    apply h.bind (h.call (h.values_mono hLater hClosures) hEntries)
    exact fun _ hInner => hEvaluate hForm hInner
  · exact h.reject _

/-- Values of the same kind are applied: native procedures by the caller, and closures to related
arguments. -/
theorem applyWith (h : c.Lawful caller) (hEvaluate : c.Evaluators evaluate evaluate') {v v' : Value}
    (hValues : c.Values w v v') {arguments arguments' : List Value}
    (hArguments : List.Forall₂ (c.Values w) arguments arguments') (hFrames : c.Frames w f g) :
    c.Together w c.Values (Evaluation.applyWith caller evaluate v arguments f)
      (Evaluation.applyWith caller evaluate' v' arguments' g) := by
  by_cases hKind : v.kind = .procedure
  · cases v with
    | procedure procedure =>
      cases procedure with
      | native native =>
        cases h.native hValues
        exact h.callNative hFrames hValues hArguments
      | closure k =>
        obtain ⟨k', rfl, -⟩ := h.closure hValues
        exact h.callClosure hEvaluate hValues hArguments
    | _ => cases hKind
  · have hKind' : v'.kind ≠ .procedure := fun hProcedure => hKind (h.kind hValues ▸ hProcedure)
    rw [applyWith_of_kind hKind, applyWith_of_kind hKind', h.kind hValues, isEmpty_eq hArguments]
    split
    · exact h.pure hValues
    · exact h.reject _

/-- The head of a list is a keyword in both runs or in none. -/
theorem evaluateList (h : c.Lawful caller) (hEvaluate : c.Evaluators evaluate evaluate')
    {head : Expression} {rest : List Expression} (hForm : c.Forms (.list (head :: rest)))
    (hFrames : c.Frames w f g) :
    c.Together w c.Values (Evaluation.evaluateList caller evaluate head rest f)
      (Evaluation.evaluateList caller evaluate' head rest g) := by
  unfold Evaluation.evaluateList
  split
  · rename_i keyword hKeyword
    obtain ⟨name, hSymbol, hName⟩ := Option.bind_eq_some_iff.1 hKeyword
    obtain ⟨rfl, -⟩ := Expression.symbol?_eq_some_iff.1 hSymbol
    rw [← Keyword.ofName?_eq_some_iff.1 hName] at hForm
    exact h.evaluateForm hEvaluate hForm hFrames
  · rename_i hKeyword
    refine h.bind (hEvaluate (h.form_head hForm hKeyword) hFrames) fun hLater hValues => ?_
    have hFrames := h.frames_mono hLater hFrames
    refine h.bind (h.evaluateEach hEvaluate (h.form_rest hForm) hFrames) fun hMore hArguments => ?_
    exact h.applyWith hEvaluate (h.values_mono hMore hValues) hArguments
      (h.frames_mono hMore hFrames)

/-- One step of the evaluator keeps a coupling that the evaluator of the level below keeps. -/
theorem step (h : c.Lawful caller) (hEvaluate : c.Evaluators evaluate evaluate') :
    c.Evaluators (Evaluation.step caller evaluate) (Evaluation.step caller evaluate') := by
  intro w e f g hForm hFrames
  unfold Evaluation.step
  split
  case h_1 n => exact h.pure (h.quoted w (.integer n))
  case h_2 x => exact h.pure (h.quoted w (.float x))
  case h_3 b => exact h.pure (h.quoted w (.boolean b))
  case h_4 token =>
    cases hContents : literalContents? token with
    | some contents => exact h.pure (h.quoted w (.text contents))
    | none => exact h.lookup hFrames hForm hContents
  case h_5 => exact h.pure (h.quoted w .nil)
  case h_6 => exact h.mapError _ (h.evaluateList hEvaluate hForm hFrames)

/-- The evaluator keeps every lawful coupling. Both runs need the same number of levels, unless the
second one may be ahead. -/
theorem eval (h : c.Lawful caller) (levels more : Nat)
    (hMore : more = 0 ∧ c.Interrupts .outOfLevels .outOfLevels ∨ c.ahead) :
    c.Evaluators (Evaluation.eval caller levels) (Evaluation.eval caller (levels + more)) := by
  induction levels with
  | zero =>
    intro w e f g _ _ m n hMachines
    rcases hMore with ⟨rfl, hInterrupts⟩ | hAhead
    · exact .stopped w (h.refl w) hMachines hInterrupts
    · exact .outrun hAhead
  | succ levels ih =>
    rw [Nat.add_right_comm]
    exact h.step ih

end

end Lawful

end Coupling

end EmbeddedLisp
