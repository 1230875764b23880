import MiniScheme.Diagnostic
import MiniScheme.Session

/-!
# Commands to sessions

What a host asks of a session and what it is answered. A command that names a session that does
not exist or has been closed, or a value that cannot be built, has no answer.
-/

namespace MiniScheme

/-- What a host asks of a session. -/
inductive Command where
  /-- the one-line answer of a command -/
  | run (source : String)
  /-- the value or the error of a command -/
  | eval (source : String)
  /-- the value of a command, or its error rendered against a text -/
  | render (source text : String)
  /-- whether a name is bound in the global frame -/
  | contains (name : String)
  /-- the value of a name -/
  | get (name : String) (span : Span)
  /-- binds a value made by the host -/
  | define (name : String) (spec : Spec)
  /-- the limit of nesting -/
  | limit
  /-- the debug form of the global frame -/
  | globals
  /-- binds the value of a name in another session as well -/
  | share (name : String) (target : Nat)
  /-- ends the session -/
  | close

/-- What a host is answered. -/
inductive Answer where
  | line (text : String)
  | outcome (o : Outcome)
  | rendered (text : String)
  | flag (b : Bool)
  | limit (n : Nat)
  | done
deriving Repr

namespace World

/-- Answers a command to the session at `index`. -/
def command (w : World) (index : Nat) (c : Command) : Option (Answer × World) := do
  let session ← w.session? index
  match c with
  | .run source =>
    let (text, w) := w.runLine session source
    return (.line text, w)
  | .eval source =>
    let (result, w) := w.evaluate session source
    return (.outcome (w.store.outcome result), w)
  | .render source text =>
    match w.evaluate session source with
    | (.ok v, w) => return (.outcome (.ok (w.store.shown v)), w)
    | (.error e, w) => return (.rendered (e.render w.store text), w)
  | .contains name => return (.flag ((w.store.frame session.global).bindings.contains name), w)
  | .get name span => return (.outcome (w.store.outcome (w.lookup session name span)), w)
  | .define name spec => return (.done, ← w.define session name spec)
  | .limit => return (.limit session.limit, w)
  | .globals => return (.line (w.store.frameText session.global), w)
  | .share name target =>
    let other ← w.session? target
    match w.lookup session name default with
    | .ok node => return (.done, w.mapStore fun s => s.bind other.global name node)
    | .error e => return (.outcome (.error (e.report w.store)), w)
  | .close => return (.done, w.close [] index session)

/-- Answers a command with the lines that were logged meanwhile. -/
def loggedCommand (w : World) (index : Nat) (c : Command) :
    Option (Answer × List String × World) := do
  let (answer, w) ← { w with machine := w.machine.clearLog }.command index c
  return (answer, w.machine.logText, w)

end World

end MiniScheme
