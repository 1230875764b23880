import MiniScheme.Proofs.Limit
import MiniScheme.Proofs.Primitives
import MiniScheme.Proofs.Stepwise.Evaluation

/-!
# The guard against deep nesting reports once

An evaluation with no level of nesting left writes a warning to the log and fails. No other step
writes a warning or fails in this way (`State.next?_cases`), and after a failure there is no step.
So a run is free of warnings up to its end, or it ends with its only warning
(`State.Steps.quiet_or_refused`).

## Results

* `World.evaluate_quiet_or_refused`: a command warns of nothing, or comes to where the guard stops.
* `evaluation_stops_at_the_guard`: the log of a command has one warning, as its newest record, if
  the command is refused and none otherwise; nothing is done after the guard has stopped an
  expression, nor after any other error.
-/

namespace MiniScheme

/-! ## Computations without a warning -/

/-- The event is the warning that the limit of nesting is reached. -/
def Event.isWarning : Event → Bool
  | .limitReached _ _ => true
  | _ => false

/-- The second machine comes from the first one without a warning: its log has grown by other
events at most. -/
structure Machine.Quietly (m m' : Machine) : Prop where
  recording : m'.recording = m.recording
  log : ∃ events, m'.log = events ++ m.log ∧ ∀ event ∈ events, event.isWarning = false

namespace Machine.Quietly

variable {m m' m'' : Machine}

theorem refl (m : Machine) : m.Quietly m := ⟨rfl, [], rfl, List.forall_mem_nil _⟩

theorem trans (h : m.Quietly m') (h' : m'.Quietly m'') : m.Quietly m'' := by
  obtain ⟨hrecording, events, hlog, hevents⟩ := h
  obtain ⟨hrecording', events', hlog', hevents'⟩ := h'
  refine ⟨hrecording'.trans hrecording, events' ++ events, ?_, ?_⟩
  · rw [hlog', hlog, List.append_assoc]
  · exact List.forall_mem_append.2 ⟨hevents', hevents⟩

theorem note (m : Machine) {event : Store → Event} (h : ∀ s, (event s).isWarning = false) :
    m.Quietly (m.note event) := by
  unfold Machine.note
  split
  · exact ⟨rfl, [event m.store], rfl, List.forall_mem_singleton.2 (h m.store)⟩
  · exact refl m

theorem store (m : Machine) (s : Store) : m.Quietly { m with store := s } :=
  ⟨rfl, [], rfl, List.forall_mem_nil _⟩

end Machine.Quietly

namespace EvalM

/-- The computation writes no warning, and it is not refused. -/
def Quiet {α : Type} (x : EvalM α) : Prop :=
  ∀ m, match x m with
    | .ok _ m' => m.Quietly m'
    | .error e m' => m.Quietly m' ∧ ¬e.isRefusal

variable {α β : Type}

theorem quiet_pure (a : α) : Quiet (pure a) := fun m => .refl m

theorem quiet_throw {e : EvalError} (h : ¬e.isRefusal) : Quiet (throw e : EvalM α) :=
  fun m => ⟨.refl m, h⟩

theorem quiet_view (f : Store → α) : Quiet (view f) := fun m => .refl m

theorem quiet_update (f : Store → Store) : Quiet (update f) := fun m => .store m _

theorem quiet_transform (f : Store → α × Store) : Quiet (transform f) := fun m => .store m _

theorem quiet_note {event : Store → Event} (h : ∀ s, (event s).isWarning = false) :
    Quiet (note event) := fun m => .note m h

theorem Quiet.bind {x : EvalM α} {g : α → EvalM β} (hx : x.Quiet) (hg : ∀ a, (g a).Quiet) :
    (x >>= g).Quiet := by
  intro m
  have hm := hx m
  change match EStateM.bind x g m with
    | .ok _ m' => m.Quietly m'
    | .error e m' => m.Quietly m' ∧ ¬e.isRefusal
  unfold EStateM.bind
  cases hr : x m with
  | error e m₁ =>
    rw [hr] at hm
    exact hm
  | ok a m₁ =>
    rw [hr] at hm
    have hga := hg a m₁
    dsimp only
    cases hr' : g a m₁ with
    | error e m₂ =>
      rw [hr'] at hga
      exact ⟨hm.trans hga.1, hga.2⟩
    | ok b m₂ =>
      rw [hr'] at hga
      exact hm.trans hga

end EvalM

open EvalM

theorem evalName_quiet (name : String) (f : FrameId) (span : Span) :
    (evalName name f span).Quiet := by
  intro m
  rw [evalName_run]
  cases m.store.lookup? f name with
  | some v => exact .refl m
  | none => exact ⟨.refl m, id⟩

theorem applyPrimitive_quiet (p : Primitive) (args : List Node) (span : Span) :
    (applyPrimitive p args span).Quiet := by
  have hE : ArgumentsAlike Eq (fun e _ => ¬e.isRefusal) span := {
    similar := fun h => h ▸ .refl _
    span := fun h => congrArg Node.span h
    mismatch := fun _ _ _ _ => id
    arity := fun _ _ _ => id
    divisionByZero := fun _ _ => id
    overflow := fun _ => id }
  have hcall := p.call_alike hE (List.forall₂_refl args)
  intro m
  rw [applyPrimitive_run]
  cases hr : p.call args span with
  | ok change => exact quiet_transform change m
  | error e =>
    rw [hr] at hcall
    cases hcall with
    | error he => exact quiet_throw (α := Node) he m

theorem enterClosure_quiet (held : List Ref) (k : ClosureId) (args : List Node) (span : Span) :
    (enterClosure held k args span).Quiet := by
  refine (quiet_view _).bind fun c => (quiet_note fun _ => rfl).bind fun _ => ?_
  refine Quiet.bind ?_ fun _ => quiet_pure _
  unfold enterFrame
  split
  · exact quiet_transform _
  · exact quiet_throw id

theorem bindGlobal_quiet (held : List Ref) (f : FrameId) (name : String) (v : Node) :
    (bindGlobal held f name v).Quiet :=
  (quiet_update _).bind fun _ => (quiet_note fun _ => rfl).bind fun _ => quiet_update _

theorem assignName_quiet (f : FrameId) (name : String) (v : Node) (span : Span) :
    (assignName f name v span).Quiet := by
  refine (quiet_transform _).bind fun found => ?_
  split
  · exact quiet_pure ()
  · exact quiet_throw id

theorem parameterNames_quiet (before : List String) (ps : List Node) :
    (parameterNames before ps).Quiet := by
  induction ps generalizing before with
  | nil => exact quiet_pure []
  | cons p ps ih =>
    unfold parameterNames
    refine Quiet.bind ?_ fun name => ?_
    · unfold expectSymbol
      split
      · exact quiet_pure _
      · exact quiet_throw id
    · split
      · exact quiet_throw id
      · exact (ih _).bind fun _ => quiet_pure _

theorem evalLambda_quiet (operands : List Node) (f : FrameId) (span : Span) :
    (evalLambda elements? operands f span).Quiet := by
  unfold evalLambda
  split
  · refine (quiet_view _).bind fun nodes => ?_
    split
    · exact (parameterNames_quiet _ _).bind fun _ =>
        (quiet_transform _).bind fun _ => quiet_pure _
    · exact quiet_throw id
  · exact quiet_throw id

/-! ## One step -/

/-- The state comes from the machine without a warning, and it is not the end by a refusal. -/
structure State.QuietFrom (m : Machine) (τ : State) : Prop where
  machine : m.Quietly τ.machine
  control : ∀ e, τ.control = .fail e → ¬e.isRefusal

namespace State

variable (stack : List Level) (m : Machine)

theorem quietFrom_evaluate (room : Nat) (node : Node) (frame : FrameId) :
    QuietFrom m ⟨.evaluate room node frame, stack, m⟩ := by
  refine ⟨.refl m, fun e h => ?_⟩
  cases h

theorem quietFrom_yield (v : Node) : QuietFrom m ⟨.yield v, stack, m⟩ := by
  refine ⟨.refl m, fun e h => ?_⟩
  cases h

theorem quietFrom_failed {e : EvalError} (he : ¬e.isRefusal) : QuietFrom m (failed e m) := by
  refine ⟨.refl m, fun e' h => ?_⟩
  cases h
  exact he

theorem QuietFrom.after {m m' : Machine} {τ : State} (h : QuietFrom m' τ) (hm : m.Quietly m') :
    QuietFrom m τ := ⟨hm.trans h.machine, h.control⟩

theorem quietFrom_finish {x : EvalM Node} (hx : x.Quiet) : QuietFrom m (finish stack (x m)) := by
  have hm := hx m
  cases hr : x m with
  | ok v m' =>
    rw [hr] at hm
    exact (quietFrom_yield stack m' v).after hm
  | error e m' =>
    rw [hr] at hm
    exact (quietFrom_failed m' hm.2).after hm.1

end State

namespace Site

open State

variable (c : Site) (outside : List Ref) (stack : List Level) (m : Machine)

theorem quietFrom_await (wait : Wait) (e : Node) (frame : FrameId) :
    QuietFrom m (c.await stack m wait e frame) := quietFrom_evaluate _ m c.room e frame

theorem quietFrom_call (p : Procedure) (args operands : List Node) :
    QuietFrom m (c.call outside stack m p args operands) := by
  match operands, p with
  | e :: es, _ => exact c.quietFrom_await ..
  | [], .primitive q => exact quietFrom_finish stack m (applyPrimitive_quiet q _ _)
  | [], .closure k =>
    have hm := enterClosure_quiet ((Procedure.closure k).refs ++ c.held outside stack) k
      args.reverse c.span m
    unfold call
    dsimp only
    cases hr : enterClosure _ k args.reverse c.span m with
    | ok entered m' =>
      rw [hr] at hm
      exact (c.quietFrom_await stack m' ..).after hm
    | error e m' =>
      rw [hr] at hm
      exact (quietFrom_failed m' hm.2).after hm.1

theorem quietFrom_sequence (frame : FrameId) (base : List Item) (last : Option Node) (e : Node)
    (es : List Node) : QuietFrom m (c.sequence stack m frame base last e es) := by
  cases es with
  | nil => exact c.quietFrom_await ..
  | cons next rest => exact c.quietFrom_await ..

theorem quietFrom_bindings (nodes : List Node) (entries : List (String × Node)) (first : Node)
    (more rest : List Node) :
    QuietFrom m (c.bindings outside stack m nodes entries first more rest) := by
  cases rest with
  | nil => exact (c.quietFrom_sequence stack _ ..).after (.store m _)
  | cons b rest =>
    simp only [bindings]
    split
    · split
      · split
        · exact quietFrom_failed m id
        · exact c.quietFrom_await ..
      · exact quietFrom_failed m id
    · exact quietFrom_failed m id

theorem quietFrom_clauses (rest : List Node) : QuietFrom m (c.clauses stack m rest) := by
  cases rest with
  | nil => exact quietFrom_yield stack m _
  | cons clause rest =>
    simp only [clauses]
    split
    · split
      · split
        · exact c.quietFrom_sequence ..
        · exact quietFrom_failed m id
      · exact c.quietFrom_await ..
    · exact quietFrom_failed m id

theorem quietFrom_conjunction (last : Node) (rest : List Node) :
    QuietFrom m (c.conjunction stack m last rest) := by
  cases rest with
  | nil => exact quietFrom_yield stack m last
  | cons e es => exact c.quietFrom_await ..

theorem quietFrom_disjunction (rest : List Node) : QuietFrom m (c.disjunction stack m rest) := by
  cases rest with
  | nil => exact quietFrom_yield stack m _
  | cons e es => exact c.quietFrom_await ..

theorem quietFrom_named (form : Form) (wait : Node → String → Wait) (operands : List Node) :
    QuietFrom m (c.named stack m form wait operands) := by
  unfold named
  split
  · split
    · exact c.quietFrom_await ..
    · exact quietFrom_failed m id
  · exact quietFrom_failed m id

theorem quietFrom_start (form : Form) (operands : List Node) :
    QuietFrom m (c.start outside stack m form operands) := by
  cases form with
  | quote =>
    simp only [start]
    split
    · exact quietFrom_yield stack m _
    · exact quietFrom_failed m id
  | conditional =>
    simp only [start]
    split
    · exact c.quietFrom_await ..
    · exact c.quietFrom_await ..
    · exact quietFrom_failed m id
  | define => exact c.quietFrom_named ..
  | assign => exact c.quietFrom_named ..
  | lambda => exact quietFrom_finish stack m (evalLambda_quiet _ _ _)
  | bind =>
    simp only [start]
    split
    · exact quietFrom_failed m id
    · exact quietFrom_failed m id
    · split
      · exact c.quietFrom_bindings ..
      · exact quietFrom_failed m id
  | sequence =>
    simp only [start]
    split
    · exact quietFrom_failed m id
    · exact c.quietFrom_sequence ..
  | clauses =>
    simp only [start]
    split
    · exact quietFrom_failed m id
    · exact c.quietFrom_clauses ..
  | conjunction => exact c.quietFrom_conjunction ..
  | disjunction => exact c.quietFrom_disjunction ..

end Site

open State in
/-- **Going on with a value.** -/
theorem Level.quietFrom_resume (outside : List Ref) (l : Level) (stack : List Level) (m : Machine)
    (v : Node) : QuietFrom m (l.resume outside stack m v) := by
  obtain ⟨c, wait⟩ := l
  cases wait with
  | pass items => exact quietFrom_yield stack m v
  | operator place operands =>
    simp only [resume]
    split
    · exact c.quietFrom_call ..
    · exact quietFrom_failed m id
  | operand p args rest => exact c.quietFrom_call ..
  | define target name =>
    exact quietFrom_finish stack m ((bindGlobal_quiet _ _ _ _).bind fun _ => quiet_pure _)
  | assign target name =>
    exact quietFrom_finish stack m ((assignName_quiet _ _ _ _).bind fun _ => quiet_pure _)
  | condition consequent alternate =>
    simp only [resume]
    split
    · exact c.quietFrom_await ..
    · split
      · exact c.quietFrom_await ..
      · exact quietFrom_yield stack m _
  | sequence frame base last next rest => exact c.quietFrom_sequence ..
  | binding nodes target e entries name rest first more => exact c.quietFrom_bindings ..
  | test test body rest =>
    simp only [resume]
    split
    · split
      · exact quietFrom_yield stack m v
      · exact c.quietFrom_sequence ..
    · exact c.quietFrom_clauses ..
  | conjunct last rest =>
    simp only [resume]
    split
    · exact c.quietFrom_conjunction ..
    · exact quietFrom_yield stack m v
  | disjunct rest =>
    simp only [resume]
    split
    · exact quietFrom_yield stack m v
    · exact c.quietFrom_disjunction ..

namespace State

/-- **Starting on a node.** -/
theorem quietFrom_begin (outside : List Ref) (room : Nat) (node : Node) (frame : FrameId)
    (stack : List Level) (m : Machine) : QuietFrom m (begin outside room node frame stack m) := by
  unfold begin
  split
  · exact quietFrom_finish stack m (evalName_quiet _ _ _)
  · split
    · dsimp only
      split
      · exact Site.quietFrom_start ..
      · exact Site.quietFrom_await ..
    · exact quietFrom_failed m id
  · exact quietFrom_yield stack m node

/-- The guard has stopped the evaluation of a node. -/
def refused (limit : Nat) (node : Node) (m : Machine) : State :=
  failed (.depthExceeded limit node.span) (m.note fun s => .limitReached limit (s.text node.value))

variable {limit : Nat} {outside : List Ref} {σ τ : State}

theorem next?_of_evaluate_zero {node : Node} {frame : FrameId}
    (h : σ.control = .evaluate 0 node frame) :
    σ.next? limit outside = some (refused limit node σ.machine) := by
  unfold next?
  rw [h]
  rfl

/-- **One step.** It is quiet, unless the guard stops a node for which no level of nesting is
left. -/
theorem next?_cases (h : σ.next? limit outside = some τ) :
    QuietFrom σ.machine τ ∨
      ∃ node frame, σ.control = .evaluate 0 node frame ∧ τ = refused limit node σ.machine := by
  obtain ⟨control, stack, m⟩ := σ
  match control with
  | .evaluate 0 node frame =>
    cases h
    exact .inr ⟨node, frame, rfl, rfl⟩
  | .evaluate (room + 1) node frame =>
    cases h
    exact .inl (quietFrom_begin outside room node frame stack m)
  | .yield v =>
    cases stack with
    | nil => cases h
    | cons l stack =>
      cases h
      exact .inl (l.quietFrom_resume outside stack m v)
  | .fail e => cases h

/-! ## Runs -/

/-- **A run.** There is no warning and no refusal in it, or it ends where the guard has stopped a
node, without a warning before. -/
theorem Steps.quiet_or_refused (hσ : ∀ e, σ.control ≠ .fail e) (h : Steps limit outside σ τ) :
    QuietFrom σ.machine τ ∨
      ∃ ρ node frame, Steps limit outside σ ρ ∧ ρ.control = .evaluate 0 node frame ∧
        σ.machine.Quietly ρ.machine ∧ τ = refused limit node ρ.machine := by
  induction h with
  | refl => exact .inl ⟨.refl _, fun e he => absurd he (hσ e)⟩
  | @tail ρ τ hρ hnext ih =>
    rcases ih with hquiet | ⟨ρ', node, frame, -, -, -, rfl⟩
    · rcases next?_cases hnext with hstep | ⟨node, frame, hcontrol, hτ⟩
      · exact .inl (hstep.after hquiet.machine)
      · exact .inr ⟨ρ, node, frame, hρ, hcontrol, hquiet.machine, hτ⟩
    · cases hnext

end State

/-! ## Commands -/

namespace World

/-- The evaluation of a datum that is read from the source, before its first step. -/
def opening (w : World) (session : Session) (source : String) (d : Datum) : State :=
  ⟨.evaluate session.limit (w.store.load d).1 session.global, [], w.machine.reading source d⟩

/-- The evaluation of the source in the session comes to the state. -/
def ComesTo (w : World) (session : Session) (source : String) (σ : State) : Prop :=
  ∃ d, parse session.limit source = .ok d ∧
    State.Steps session.limit ((w.store.load d).1.refs ++ w.roots) (w.opening session source d) σ

/-- The evaluation of the source in the session goes from one state to another. -/
def Goes (w : World) (session : Session) (source : String) (σ τ : State) : Prop :=
  ∃ d, parse session.limit source = .ok d ∧
    State.Steps session.limit ((w.store.load d).1.refs ++ w.roots) σ τ

variable {w : World} {session : Session} {source : String} {σ τ : State}

theorem evaluate_steps (w : World) {d : Datum} (hd : parse session.limit source = .ok d) :
    ∃ r, State.Steps session.limit ((w.store.load d).1.refs ++ w.roots)
        (w.opening session source d) (State.finish [] r) ∧
      w.evaluate session source =
        ((Session.conclude r).1, { w with machine := (Session.conclude r).2 }) := by
  refine ⟨_, steps_eval session.limit _ session.limit [] _ session.global _, ?_⟩
  unfold evaluate Session.evaluate
  rw [Session.evaluateWith_of_ok hd]
  rfl

theorem ComesTo.goes (hσ : w.ComesTo session source σ) (hτ : w.ComesTo session source τ) :
    w.Goes session source τ σ ∨ w.Goes session source σ τ := by
  obtain ⟨d, hd, hσ⟩ := hσ
  obtain ⟨d', hd', hτ⟩ := hτ
  cases hd.symm.trans hd'
  rcases hτ.total hσ with h | h
  · exact .inl ⟨d, hd, h⟩
  · exact .inr ⟨d, hd, h⟩

theorem ComesTo.refl (hσ : w.ComesTo session source σ) : w.Goes session source σ σ := by
  obtain ⟨d, hd, -⟩ := hσ
  exact ⟨d, hd, .refl⟩

/-- After a failure there is nothing more. -/
theorem Goes.eq_of_fail {e : EvalError} (h : w.Goes session source σ τ)
    (hσ : σ.control = .fail e) : τ = σ := by
  obtain ⟨d, -, h⟩ := h
  refine h.eq_of_next?_none ?_
  unfold State.next?
  rw [hσ]

/-- After the guard has stopped a node there is nothing more. -/
theorem Goes.of_guard {node : Node} {frame : FrameId} (h : w.Goes session source σ τ)
    (hσ : σ.control = .evaluate 0 node frame) :
    τ = σ ∨ τ = State.refused session.limit node σ.machine := by
  obtain ⟨d, -, h⟩ := h
  rcases Relation.ReflTransGen.cases_head h with rfl | ⟨ρ, hρ, h⟩
  · exact .inl rfl
  · rw [State.next?_of_evaluate_zero hσ] at hρ
    cases hρ
    exact .inr (State.Steps.eq_of_next?_none h rfl)

/-- A failure is the answer to the command. -/
theorem ComesTo.evaluate_of_fail {e : EvalError} (h : w.ComesTo session source σ)
    (hσ : σ.control = .fail e) :
    w.evaluate session source = (.error (.eval e), { w with machine := σ.machine }) := by
  obtain ⟨d, hd, hsteps⟩ := h
  obtain ⟨r, hend, heval⟩ := w.evaluate_steps hd
  have hlast : State.finish [] r = σ := by
    rcases hsteps.total hend with h | h
    · exact Goes.eq_of_fail ⟨d, hd, h⟩ hσ
    · exact (h.eq_of_next?_none (State.next?_finish r)).symm
  rw [heval]
  cases r with
  | ok v m =>
    rw [← hlast] at hσ
    cases hσ
  | error e' m =>
    rw [← hlast] at hσ ⊢
    cases hσ
    rfl

theorem ComesTo.refused {node : Node} {frame : FrameId} (h : w.ComesTo session source σ)
    (hσ : σ.control = .evaluate 0 node frame) :
    w.ComesTo session source (State.refused session.limit node σ.machine) := by
  obtain ⟨d, hd, hsteps⟩ := h
  exact ⟨d, hd, hsteps.tail (State.next?_of_evaluate_zero hσ)⟩

theorem quietly_reading (w : World) (source : String) (d : Datum) :
    w.machine.Quietly (w.machine.reading source d) :=
  (Machine.Quietly.note w.machine fun _ => rfl).trans (.store _ _)

/-- **A command.** It is not refused and writes no warning, or it comes to a node at which the guard
stops it, without a warning before. -/
theorem evaluate_quiet_or_refused (w : World) (session : Session) (source : String) :
    (w.machine.Quietly (w.evaluate session source).2.machine ∧
      ∀ limit span, (w.evaluate session source).1 ≠ .error (.eval (.depthExceeded limit span))) ∨
    ∃ σ node frame, w.ComesTo session source σ ∧ σ.control = .evaluate 0 node frame ∧
      w.machine.Quietly σ.machine := by
  cases hd : parse session.limit source with
  | error e =>
    have hnote : w.machine.Quietly (w.machine.note fun _ => .evaluating source) :=
      .note w.machine fun _ => rfl
    rw [evaluate_of_error hd]
    exact .inl ⟨hnote, fun _ _ h => by cases h⟩
  | ok d =>
    obtain ⟨r, hsteps, heval⟩ := w.evaluate_steps hd
    have hreading := w.quietly_reading source d
    rcases hsteps.quiet_or_refused (fun _ h => by cases h) with
      hquiet | ⟨σ, node, frame, hσ, hcontrol, hquiet, -⟩
    · refine .inl ?_
      rw [heval]
      cases r with
      | ok v m => exact ⟨hreading.trans hquiet.machine, fun _ _ h => by cases h⟩
      | error e m =>
        refine ⟨hreading.trans hquiet.machine, fun limit span h => ?_⟩
        cases h
        exact hquiet.control _ rfl trivial
    · exact .inr ⟨σ, node, frame, ⟨d, hd, hσ⟩, hcontrol, hreading.trans hquiet⟩

end World

/-- **Evaluation stops at the first error, and the guard reports once.** What a command adds to the
log has a warning if and only if the command is refused by the guard. Then the warning is one, the
newest record of all, about the expression at which the guard stopped, and with the limit of the
error. Where an evaluation comes to an expression with no level left, this is the answer, with the
store as it was at that moment, and the evaluation comes to no further state but the failure. An
error of any other kind is the answer in the same way. -/
theorem evaluation_stops_at_the_guard (w : World) (session : Session) (source : String)
    (hrecording : w.machine.recording = true) :
    (∃ events, (w.evaluate session source).2.machine.log = events ++ w.machine.log ∧
      (∀ limit span,
        (w.evaluate session source).1 = .error (.eval (.depthExceeded limit span)) →
        limit = session.limit ∧
        ∃ σ node frame earlier, w.ComesTo session source σ ∧
          σ.control = .evaluate 0 node frame ∧ node.span = span ∧
          events = .limitReached limit (σ.machine.store.text node.value) :: earlier ∧
          ∀ event ∈ earlier, event.isWarning = false) ∧
      ((∀ limit span,
        (w.evaluate session source).1 ≠ .error (.eval (.depthExceeded limit span))) →
        ∀ event ∈ events, event.isWarning = false)) ∧
    (∀ σ node frame, w.ComesTo session source σ → σ.control = .evaluate 0 node frame →
      w.evaluate session source = (.error (.eval (.depthExceeded session.limit node.span)),
        { w with machine := σ.machine.note fun s =>
            .limitReached session.limit (s.text node.value) }) ∧
      ∀ τ, w.ComesTo session source τ → w.Goes session source τ σ ∨
        τ = State.refused session.limit node σ.machine) ∧
    ∀ σ e, w.ComesTo session source σ → σ.control = .fail e →
      w.evaluate session source = (.error (.eval e), { w with machine := σ.machine }) ∧
      ∀ τ, w.ComesTo session source τ → w.Goes session source τ σ := by
  refine ⟨?_, fun σ node frame hσ hcontrol => ⟨?_, fun τ hτ => ?_⟩,
    fun σ e hσ hcontrol => ⟨hσ.evaluate_of_fail hcontrol, fun τ hτ => ?_⟩⟩
  · rcases w.evaluate_quiet_or_refused session source with
      ⟨⟨-, events, hlog, hevents⟩, hnot⟩ | ⟨σ, node, frame, hσ, hcontrol, hquiet⟩
    · exact ⟨events, hlog, fun limit span h => absurd h (hnot limit span), fun _ => hevents⟩
    · obtain ⟨hrecorded, earlier, hlog, hearlier⟩ := hquiet
      have hnote : σ.machine.recording = true := hrecorded.trans hrecording
      rw [(hσ.refused hcontrol).evaluate_of_fail rfl]
      refine ⟨.limitReached session.limit (σ.machine.store.text node.value) :: earlier, ?_,
        fun limit span h => ?_, fun h => absurd rfl (h session.limit node.span)⟩
      · simp only [State.refused, State.failed, Machine.note, hnote, if_true, hlog,
          List.cons_append]
      · cases h
        exact ⟨rfl, σ, node, frame, earlier, hσ, hcontrol, rfl, rfl, hearlier⟩
  · exact (hσ.refused hcontrol).evaluate_of_fail rfl
  · rcases hσ.goes hτ with h | h
    · exact .inl h
    · rcases h.of_guard hcontrol with rfl | h
      · exact .inl hσ.refl
      · exact .inr h
  · rcases hσ.goes hτ with h | h
    · exact h
    · rw [h.eq_of_fail hcontrol]
      exact hσ.refl

/-- With three levels the operator of the product is too deep. The name before it is bound and the
one after it is not. -/
theorem guard_stops_a_sequence :
    let w := World.ofLimits true [3]
    let session : Session := ⟨⟨0⟩, 3, true⟩
    let source := "(begin (define a 1) (+ 1 (* a a)) (define b 2))"
    w.machine.recording = true ∧
      (w.evaluate session source).1 = .error (.eval (.depthExceeded 3 ⟨26, 27⟩)) ∧
      (∃ text earlier,
        (w.evaluate session source).2.machine.log = .limitReached 3 text :: earlier ∧
        ∀ event ∈ earlier, event.isWarning = false) ∧
      ((w.evaluate session source).2.store.lookup? session.global "a").isSome = true ∧
      ((w.evaluate session source).2.store.lookup? session.global "b").isSome = false := by
  intro w session source
  have hlog : w.machine.log = [] := rfl
  have hresult : (w.evaluate session source).1 = .error (.eval (.depthExceeded 3 ⟨26, 27⟩)) := by
    decide +kernel
  obtain ⟨⟨events, hevents, hwarning, -⟩, -⟩ := evaluation_stops_at_the_guard w session source rfl
  obtain ⟨-, σ, node, frame, earlier, -, -, -, hnew, hearlier⟩ := hwarning 3 _ hresult
  have hnewest : (w.evaluate session source).2.machine.log =
      .limitReached 3 (σ.machine.store.text node.value) :: earlier := by
    rw [hevents, hlog, hnew, List.append_nil]
  exact ⟨rfl, hresult, ⟨_, earlier, hnewest, hearlier⟩, by decide +kernel, by decide +kernel⟩

end MiniScheme
