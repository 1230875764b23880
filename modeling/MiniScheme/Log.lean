import MiniScheme.Text.Quoted

/-!
# The log

What an evaluation reports while it runs. Events hold texts, because a value printed later could
look different. They are the calls of `trace!`, `debug!` and `warn!` in `apply`, `evaluate_define`,
`evaluate`, `eval_str` and `run_one`.

Out of scope: the target and the time of a record, which a logger adds.
-/

namespace MiniScheme

/-- Something worth reporting. -/
inductive Event where
  /-- a session starts on a source text -/
  | evaluating (source : String)
  /-- a command failed with a message -/
  | failed (message : String)
  /-- a name is about to be bound to a value -/
  | defining (name value : String)
  /-- a closure is about to be called -/
  | applying (name : String) (count : Nat)
  /-- an expression would be evaluated deeper than the limit allows -/
  | limitReached (limit : Nat) (expression : String)
deriving DecidableEq, Repr

/-- The line of the log: the level and the report. -/
def Event.text : Event → String
  | evaluating source => "DEBUG evaluating " ++ quoted source
  | failed message => "DEBUG command failed: " ++ message
  | defining name value => "DEBUG define " ++ name ++ " = " ++ value
  | applying name count =>
    "TRACE applying " ++ name ++ " to " ++ toString count ++ " argument(s)"
  | limitReached limit expression =>
    "WARN recursion depth limit of " ++ toString limit ++ " reached while evaluating " ++ expression

end MiniScheme
