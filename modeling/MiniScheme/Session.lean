import MiniScheme.Eval
import MiniScheme.Report
import MiniScheme.Spec

/-!
# Sessions

A session is a global frame and a limit of nesting. Its commands are read and evaluated one at a
time in that frame, so each sees what the ones before it defined. A world is any number of
sessions over one machine; they share nothing until a value of one is bound in another.

* `Session.evaluate` reads and evaluates one command (`eval_str`).
* `World.runLine` gives the one-line answer of a command (`run_one`).
* `World.close` ends a session and empties its frames (`drop`).
-/

namespace MiniScheme

/-- A global frame and the limit of nesting for what runs in it. -/
structure Session where
  global : FrameId
  limit : Nat
  isOpen : Bool
deriving DecidableEq, Repr

/-- Reads one expression and evaluates it in the global frame, taking lists apart by `split`, while
`held` is held elsewhere. -/
def Session.evaluateWith (split : Splitter) (session : Session) (held : List Ref)
    (source : String) (m : Machine) : Except Error Node × Machine :=
  let m := m.note fun _ => .evaluating source
  match parse session.limit source with
  | .error e => (.error (.read e), m)
  | .ok d =>
    let (node, s) := m.store.load d
    match evalWith split session.limit session.limit (node.refs ++ held) node session.global
        { m with store := s } with
    | .ok v m => (.ok v, m)
    | .error e m => (.error (.eval e), m)

/-- Reads one expression and evaluates it in the global frame (`eval_str`), while `held` is held
elsewhere. -/
def Session.evaluate (session : Session) (held : List Ref) (source : String) (m : Machine) :
    Except Error Node × Machine :=
  session.evaluateWith elements? held source m

/-- The sessions of a host and the machine they run on. -/
structure World where
  machine : Machine
  sessions : List Session

namespace World

/-- No sessions. -/
def empty (recording : Bool) : World := ⟨.new recording, []⟩

/-- One more session, with a populated global frame of its own (`with_config`). -/
def openSession (w : World) (limit : Nat) : World :=
  let (f, s) := w.machine.store.newPopulated
  ⟨{ w.machine with store := s }, w.sessions ++ [⟨f, limit, true⟩]⟩

/-- Sessions with the given limits. -/
def ofLimits (recording : Bool) (limits : List Nat) : World :=
  limits.foldl openSession (empty recording)

/-- The store that the sessions share. -/
def store (w : World) : Store := w.machine.store

/-- Changes the store. -/
def mapStore (w : World) (g : Store → Store) : World :=
  { w with machine := { w.machine with store := g w.machine.store } }

/-- The objects that the open sessions hold on to: their global frames. -/
def roots (w : World) : List Ref :=
  (w.sessions.filter (·.isOpen)).map fun session => .frame session.global

/-- The session at an index, as long as it is open: one that has been closed is not used again. -/
def session? (w : World) (index : Nat) : Option Session := w.sessions[index]?.filter (·.isOpen)

/-- Reads and evaluates one command in a session. -/
def evaluate (w : World) (session : Session) (source : String) : Except Error Node × World :=
  let (result, m) := session.evaluate w.roots source w.machine
  (result, { w with machine := m })

/-- The one-line answer of a command (`run_one`): the printed value, or the kind and message of the
error. -/
def runLine (w : World) (session : Session) (source : String) : String × World :=
  match w.evaluate session source with
  | (.ok v, w) => (w.store.text v.value, w)
  | (.error e, w) =>
    (e.line w.store, { w with machine := w.machine.note fun s => .failed (e.message s) })

/-- The value of a name in the global frame of a session (`Environment::get`). -/
def lookup (w : World) (session : Session) (name : String) (span : Span) : Except Error Node :=
  match w.store.lookup? session.global name with
  | some node => .ok node
  | none => .error (.eval (.unbound name span))

/-- Binds a described value in the global frame of a session. Closures of the description are
made over a populated global frame of their own. -/
def define (w : World) (session : Session) (name : String) (spec : Spec) : Option World := do
  let (f, s) := w.store.newPopulated
  let (node, s) ← spec.build ⟨.empty, Table.empty.insert "global" f⟩ s
  return w.mapStore fun _ => s.bind session.global name node

/-- Ends a session (`drop`), while the host holds `held`: its global frame and the frames beneath it
are emptied. -/
def close (w : World) (held : List Ref) (index : Nat) (session : Session) : World :=
  let w := w.mapStore fun s => s.release (held ++ w.roots) session.global
  { w with sessions := w.sessions.set index { session with isOpen := false } }

end World

end MiniScheme
