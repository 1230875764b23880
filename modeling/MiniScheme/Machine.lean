import MiniScheme.Eval.Error
import MiniScheme.Log
import MiniScheme.Store.Scope

/-!
# The state of an evaluation

A machine is a store and a log. Evaluation is a state computation that may stop with an error; it
keeps the state it had reached, because what was bound or changed before an error stays so.
-/

namespace MiniScheme

/-- The store and the log. Events are kept only while recording, since printing a value for the
log can take longer than computing it. -/
structure Machine where
  store : Store
  recording : Bool
  log : List Event
deriving Inhabited

/-- A computation on a machine that may stop with an error. -/
abbrev EvalM := EStateM EvalError Machine

namespace Machine

/-- An empty store. -/
def new (recording : Bool) : Machine := ⟨.empty, recording, []⟩

/-- Adds an event to the log, the newest first. -/
def note (m : Machine) (event : Store → Event) : Machine :=
  if m.recording then { m with log := event m.store :: m.log } else m

/-- The same machine with nothing in its log. -/
def clearLog (m : Machine) : Machine := { m with log := [] }

/-- The lines of the log, the oldest first. -/
def logText (m : Machine) : List String := m.log.reverse.map Event.text

end Machine

namespace EvalM

/-- Reads from the store. -/
def view {α : Type} (f : Store → α) : EvalM α := do
  return f (← get).store

/-- Changes the store. -/
def update (f : Store → Store) : EvalM Unit :=
  modify fun m => { m with store := f m.store }

/-- Changes the store and gives what the change yields, such as the identifier of a new object. -/
def transform {α : Type} (f : Store → α × Store) : EvalM α :=
  modifyGet fun m =>
    let (a, s) := f m.store
    (a, { m with store := s })

/-- The result of a computation that needs no machine, or its error. -/
def attempt {α : Type} : Except EvalError α → EvalM α
  | .ok a => pure a
  | .error e => throw e

/-- Reports an event. -/
def note (event : Store → Event) : EvalM Unit :=
  modify fun m => m.note event

end EvalM

end MiniScheme
