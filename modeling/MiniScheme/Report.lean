import MiniScheme.Error

/-!
# Reports

What a host is shown of a result: the printed form, type and range of a value, or the kind,
message and range of a failure (`kind` and `span` of `Error`, and its display).
-/

namespace MiniScheme

/-- A value as a host sees it. -/
structure Shown where
  text : String
  typeName : String
  span : Span
deriving DecidableEq, Repr

/-- The stage at which a command failed. -/
inductive Stage where
  | reading
  | evaluating
deriving DecidableEq, Repr

/-- A failure as a host sees it. -/
structure Failure where
  kind : ErrorKind
  message : String
  stage : Stage
  span : Option Span
deriving DecidableEq, Repr

/-- A value as a host sees it. -/
def Store.shown (s : Store) (node : Node) : Shown :=
  ⟨s.text node.value, node.value.typeName, node.span⟩

/-- The stage at which an error arises. -/
def Error.stage : Error → Stage
  | read _ => .reading
  | eval _ => .evaluating

/-- An error as a host sees it. -/
def Error.report (s : Store) (e : Error) : Failure :=
  ⟨e.kind, e.message s, e.stage, e.span?⟩

/-- What a host sees of a result. -/
abbrev Outcome := Except Failure Shown

/-- What a host sees of a result in a store. -/
def Store.outcome (s : Store) : Except Error Node → Outcome
  | .ok node => .ok (s.shown node)
  | .error e => .error (e.report s)

end MiniScheme
