import MiniScheme.Proofs.Operations
import MiniScheme.Session.Command

/-!
# Scripts

A script is a list of commands, each with the session it is for. `World.run` performs one and
collects the answers; a command that has no answer, because its session or its value does not
exist, leaves the world as it was.
-/

namespace MiniScheme

/-! ## One source -/

/-- The machine on which a source is evaluated once it is read. -/
def Machine.reading (m : Machine) (source : String) (d : Datum) : Machine :=
  { m.note fun _ => .evaluating source with store := (m.store.load d).2 }

/-- What a session makes of the end of an evaluation. -/
def Session.conclude : EStateM.Result EvalError Machine Node → Except Error Node × Machine
  | .ok v m => (.ok v, m)
  | .error e m => (.error (.eval e), m)

namespace Session

variable {session : Session} {source : String}

theorem evaluateWith_of_error {e : ReadError} (h : parse session.limit source = .error e)
    (split : Splitter) (held : List Ref) (m : Machine) :
    session.evaluateWith split held source m =
      (.error (.read e), m.note fun _ => .evaluating source) := by
  unfold evaluateWith
  rw [h]

theorem evaluateWith_of_ok {d : Datum} (h : parse session.limit source = .ok d)
    (split : Splitter) (held : List Ref) (m : Machine) :
    session.evaluateWith split held source m =
      conclude (evalWith split session.limit session.limit ((m.store.load d).1.refs ++ held)
        (m.store.load d).1 session.global (m.reading source d)) := by
  unfold evaluateWith
  simp only [h, Machine.store_note, Machine.reading]
  generalize evalWith split session.limit session.limit _ _ _ _ = r
  cases r <;> rfl

end Session

/-- The one-line answer to a result. -/
def Store.answer (s : Store) : Except Error Node → String
  | .ok v => s.text v.value
  | .error e => e.line s

/-- The answer to a result, errors rendered against a text. -/
def Store.rendering (s : Store) (text : String) : Except Error Node → Answer
  | .ok v => .outcome (.ok (s.shown v))
  | .error e => .rendered (e.render s text)

/-- Two results of which a host sees the same: values that are shown alike, or errors that agree in
all that is reported of them. -/
inductive Store.SeenAlike (s t : Store) : Except Error Node → Except Error Node → Prop
  | ok {v v' : Node} (h : s.shown v = t.shown v') : SeenAlike s t (.ok v) (.ok v')
  | error {e e' : Error} (hstage : e.stage = e'.stage) (hkind : e.kind = e'.kind)
      (hmessage : e.message s = e'.message t) (hspan : e.span? = e'.span?)
      (hlabel : ∀ start, e.label start = e'.label start) : SeenAlike s t (.error e) (.error e')

namespace Store.SeenAlike

variable {s t : Store} {r r' : Except Error Node}

theorem read (s t : Store) (e : ReadError) :
    SeenAlike s t (.error (.read e)) (.error (.read e)) :=
  .error rfl rfl rfl rfl fun _ => rfl

theorem outcome_eq (h : SeenAlike s t r r') : s.outcome r = t.outcome r' := by
  cases h with
  | ok h => exact congrArg Except.ok h
  | error hstage hkind hmessage hspan _ =>
    unfold Store.outcome Error.report
    dsimp only
    rw [hstage, hkind, hmessage, hspan]

theorem answer_eq (h : SeenAlike s t r r') : s.answer r = t.answer r' := by
  cases h with
  | ok h => exact congrArg Shown.text h
  | error _ hkind hmessage _ _ =>
    unfold Store.answer Error.line
    dsimp only
    rw [hkind, hmessage]

theorem rendering_eq (h : SeenAlike s t r r') (text : String) :
    s.rendering text r = t.rendering text r' := by
  cases h with
  | ok h => exact congrArg (fun shown => Answer.outcome (.ok shown)) h
  | error _ hkind hmessage hspan hlabel =>
    unfold Store.rendering Error.render
    dsimp only
    rw [hkind, hmessage, hspan, hlabel]

end Store.SeenAlike

/-! ## Commands in order -/

/-- Commands with the sessions they are for, in order. -/
abbrev Script := List (Nat × Command)

namespace World

/-- One command of a script. -/
def perform (w : World) (c : Nat × Command) : Option Answer × World :=
  match w.command c.1 c.2 with
  | some (answer, w) => (some answer, w)
  | none => (none, w)

/-- The answers to a script, and the world after it. -/
def run (w : World) : Script → List (Option Answer) × World
  | [] => ([], w)
  | c :: cs => ((w.perform c).1 :: ((w.perform c).2.run cs).1, ((w.perform c).2.run cs).2)

theorem run_append (w : World) (early late : Script) :
    (w.run (early ++ late)).2 = ((w.run early).2.run late).2 := by
  induction early generalizing w with
  | nil => rfl
  | cons c early ih => exact ih (w.perform c).2

/-- What every step of a script keeps is kept by the script. -/
theorem run_induction {P : World → Prop} {w : World} {cs : Script} (hstart : P w)
    (hstep : ∀ w, ∀ c ∈ cs, P w → P (w.perform c).2) : P (w.run cs).2 := by
  induction cs generalizing w with
  | nil => exact hstart
  | cons c cs ih =>
    exact ih (hstep w c List.mem_cons_self hstart) fun w d hd =>
      hstep w d (List.mem_cons_of_mem c hd)

/-- What opening a session keeps holds of sessions on which nothing has run yet. -/
theorem ofLimits_induction {P : World → Prop} (recording : Bool) (limits : List Nat)
    (hempty : P (empty recording)) (hopen : ∀ w limit, P w → P (w.openSession limit)) :
    P (ofLimits recording limits) := by
  unfold ofLimits
  generalize empty recording = w at hempty ⊢
  induction limits generalizing w with
  | nil => exact hempty
  | cons limit limits ih => exact ih _ (hopen w limit hempty)

/-! ## The commands one by one -/

section

variable {w : World} {i : Nat} {session : Session}

theorem session?_eq_some :
    w.session? i = some session ↔ w.sessions[i]? = some session ∧ session.isOpen = true :=
  Option.filter_eq_some_iff

theorem session?_of_length_le (h : w.sessions.length ≤ i) : w.session? i = none := by
  rw [session?, List.getElem?_eq_none h]
  rfl

theorem session?_of_closed (h : w.sessions[i]? = some session) (hclosed : session.isOpen = false) :
    w.session? i = none := by
  rw [session?, h, Option.filter_some, hclosed]
  rfl

theorem mem_of_session? (h : w.session? i = some session) : session ∈ w.sessions :=
  List.mem_of_getElem? (session?_eq_some.1 h).1

theorem mem_roots {r : Ref} :
    r ∈ w.roots ↔ ∃ (j : Nat) (session : Session), w.sessions[j]? = some session ∧
      session.isOpen = true ∧ r = .frame session.global := by
  unfold World.roots
  simp only [List.mem_map, List.mem_filter]
  constructor
  · rintro ⟨session, ⟨hmem, ho⟩, rfl⟩
    obtain ⟨j, hj⟩ := List.mem_iff_getElem?.1 hmem
    exact ⟨j, session, hj, ho, rfl⟩
  · rintro ⟨j, session, hj, ho, rfl⟩
    exact ⟨session, ⟨List.mem_of_getElem? hj, ho⟩, rfl⟩

theorem perform_of_none (h : w.session? i = none) (c : Command) :
    w.perform (i, c) = (none, w) := by
  simp [perform, command, h]

theorem perform_run (h : w.session? i = some session) (source : String) :
    w.perform (i, .run source) =
      (some (.line (w.runLine session source).1), (w.runLine session source).2) := by
  simp [perform, command, h]

theorem perform_eval (h : w.session? i = some session) (source : String) :
    w.perform (i, .eval source) =
      (some (.outcome
        ((w.evaluate session source).2.store.outcome (w.evaluate session source).1)),
        (w.evaluate session source).2) := by
  simp [perform, command, h]

theorem perform_render (h : w.session? i = some session) (source text : String) :
    w.perform (i, .render source text) =
      (some ((w.evaluate session source).2.store.rendering text (w.evaluate session source).1),
        (w.evaluate session source).2) := by
  unfold perform command
  simp only [h, Option.bind_eq_bind, Option.bind_some]
  generalize w.evaluate session source = r
  obtain ⟨r | r, w'⟩ := r <;> rfl

theorem perform_contains (h : w.session? i = some session) (name : String) :
    w.perform (i, .contains name) =
      (some (.flag ((w.store.frame session.global).bindings.contains name)), w) := by
  simp [perform, command, h]

theorem perform_get (h : w.session? i = some session) (name : String) (span : Span) :
    w.perform (i, .get name span) =
      (some (.outcome (w.store.outcome (w.lookup session name span))), w) := by
  simp [perform, command, h]

theorem perform_globals (h : w.session? i = some session) :
    w.perform (i, .globals) = (some (.line (w.store.frameText session.global)), w) := by
  simp [perform, command, h]

theorem perform_limit (h : w.session? i = some session) :
    w.perform (i, .limit) = (some (.limit session.limit), w) := by
  simp [perform, command, h]

theorem perform_share (h : w.session? i = some session) (name : String) (target : Nat) :
    w.perform (i, .share name target) =
      match w.session? target with
      | none => (none, w)
      | some other =>
        match w.lookup session name default with
        | .ok node => (some .done, w.mapStore fun s => s.bind other.global name node)
        | .error e => (some (.outcome (.error (e.report w.store))), w) := by
  unfold perform command
  simp only [h, Option.bind_eq_bind, Option.bind_some]
  cases w.session? target with
  | none => rfl
  | some other =>
    simp only [Option.bind_some]
    cases w.lookup session name default <;> rfl

theorem perform_close (h : w.session? i = some session) :
    w.perform (i, .close) = (some .done, w.close [] i session) := by
  simp [perform, command, h]

theorem evaluate_of_error {source : String} {e : ReadError}
    (h : parse session.limit source = .error e) :
    w.evaluate session source =
      (.error (.read e), { w with machine := w.machine.note fun _ => .evaluating source }) := by
  unfold evaluate Session.evaluate
  rw [Session.evaluateWith_of_error h]

theorem evaluate_of_ok {source : String} {d : Datum} (h : parse session.limit source = .ok d) :
    w.evaluate session source =
      match eval session.limit session.limit ((w.store.load d).1.refs ++ w.roots)
        (w.store.load d).1 session.global (w.machine.reading source d) with
      | .ok v m => (.ok v, { w with machine := m })
      | .error e m => (.error (.eval e), { w with machine := m }) := by
  unfold evaluate Session.evaluate eval World.store
  rw [Session.evaluateWith_of_ok h]
  generalize evalWith elements? session.limit session.limit _ _ _ _ = r
  cases r <;> rfl

/-- A name that is found has the value that its frames give it. -/
theorem lookup?_of_lookup {name : String} {span : Span} {node : Node}
    (h : w.lookup session name span = .ok node) :
    w.store.lookup? session.global name = some node := by
  unfold World.lookup at h
  cases hv : w.store.lookup? session.global name with
  | none =>
    rw [hv] at h
    cases h
  | some v =>
    rw [hv] at h
    cases h
    rfl

theorem sessions_evaluate (w : World) (session : Session) (source : String) :
    (w.evaluate session source).2.sessions = w.sessions := rfl

end

end World

/-! ## What a command can do -/

/-- The source text that a command has evaluated. -/
def Command.source? : Command → Option String
  | .run source | .eval source | .render source _ => some source
  | _ => none

/-- The command makes no value for the host: whatever it binds was read from a text or computed. -/
def Command.isTextual : Command → Bool
  | .define _ _ => false
  | _ => true

/-- The command concerns its session only, and the host gives it nothing but texts. -/
def Command.isOwn : Command → Bool
  | .define _ _ | .share _ _ | .close => false
  | _ => true

namespace World

/-- What the commands of a text-driven host do to the world: nothing, the evaluation of a source,
the binding of a value of one session in another, or the end of a session. -/
inductive Effect (w : World) (i : Nat) : Command → World → Prop
  | none (c : Command) (hc : ∀ session, w.session? i = some session → c.source? = .none) :
      Effect w i c w
  | evaluated {c : Command} {session : Session} {source : String} {w' : World}
      (hs : w.session? i = some session) (hc : c.source? = some source)
      (sessions : w'.sessions = w.sessions)
      (store : w'.store = (w.evaluate session source).2.store) : Effect w i c w'
  | shared {session other : Session} {name : String} {target : Nat} {node : Node}
      (hs : w.session? i = some session) (ho : w.session? target = some other)
      (hl : w.lookup session name default = .ok node) :
      Effect w i (.share name target) (w.mapStore fun s => s.bind other.global name node)
  | closed {session : Session} (hs : w.session? i = some session) :
      Effect w i .close (w.close [] i session)

theorem runLine_eq (w : World) (session : Session) (source : String) :
    (w.runLine session source).1 =
      (w.evaluate session source).2.store.answer (w.evaluate session source).1 := by
  unfold runLine
  generalize w.evaluate session source = r
  obtain ⟨r | r, w'⟩ := r <;> rfl

theorem runLine_effect (w : World) (session : Session) (source : String) :
    (w.runLine session source).2.sessions = w.sessions ∧
      (w.runLine session source).2.store = (w.evaluate session source).2.store := by
  unfold runLine
  have hs := sessions_evaluate w session source
  revert hs
  generalize w.evaluate session source = r
  obtain ⟨r | r, w'⟩ := r
  · exact fun hs => ⟨hs, Machine.store_note _ _⟩
  · exact fun hs => ⟨hs, rfl⟩

theorem perform_effect (w : World) (i : Nat) {c : Command} (hc : c.isTextual = true) :
    w.Effect i c (w.perform (i, c)).2 := by
  cases hi : w.session? i with
  | none =>
    rw [perform_of_none hi]
    exact .none c fun session hs => by rw [hi] at hs; cases hs
  | some session =>
    cases c with
    | run source =>
      rw [perform_run hi]
      have h := runLine_effect w session source
      exact .evaluated hi rfl h.1 h.2
    | eval source =>
      rw [perform_eval hi]
      exact .evaluated hi rfl rfl rfl
    | render source text =>
      rw [perform_render hi]
      exact .evaluated hi rfl rfl rfl
    | contains name =>
      rw [perform_contains hi]
      exact .none _ fun _ _ => rfl
    | get name span =>
      rw [perform_get hi]
      exact .none _ fun _ _ => rfl
    | define name spec => cases hc
    | limit =>
      rw [perform_limit hi]
      exact .none _ fun _ _ => rfl
    | globals =>
      rw [perform_globals hi]
      exact .none _ fun _ _ => rfl
    | share name target =>
      rw [perform_share hi]
      cases ho : w.session? target with
      | none => exact .none _ fun _ _ => rfl
      | some other =>
        dsimp only
        cases hl : w.lookup session name default with
        | ok node => exact .shared hi ho hl
        | error e => exact .none _ fun _ _ => rfl
    | close =>
      rw [perform_close hi]
      exact .closed hi

end World

end MiniScheme
