import MiniScheme.Datum.Reader
import MiniScheme.Eval.Error

/-!
# Errors of a command

A command fails in reading or in evaluating. Either way the failure has a kind, a message, a
label for the place it points at and mostly a range of text (`kind`, `label` and `span` of
`Error`).
-/

namespace MiniScheme

/-- The coarse classification of failures. -/
inductive ErrorKind where
  | malformed
  | unboundVariable
  | arity
  | type
  | notAProcedure
  | arithmetic
  | recursionLimit
deriving DecidableEq, Repr

/-- The name of a kind. -/
def ErrorKind.text : ErrorKind → String
  | malformed => "SyntaxError"
  | unboundVariable => "UnboundVariable"
  | arity => "ArityError"
  | type => "TypeError"
  | notAProcedure => "NotAProcedure"
  | arithmetic => "ArithmeticError"
  | recursionLimit => "RecursionLimit"

/-- Why a command failed. -/
inductive Error where
  | read (e : ReadError)
  | eval (e : EvalError)
deriving DecidableEq, Repr

namespace Error

/-- The kind of a failure. -/
def kind : Error → ErrorKind
  | read (.tooDeep _ _) => .recursionLimit
  | read _ => .malformed
  | eval (.unbound _ _) => .unboundVariable
  | eval (.arity _ _ _ _) => .arity
  | eval (.mismatch _ _ _ _ _) => .type
  | eval (.notAProcedure _ _) => .notAProcedure
  | eval (.malformed _ _) => .malformed
  | eval (.divisionByZero _) => .arithmetic
  | eval (.overflow _ _) => .arithmetic
  | eval (.depthExceeded _ _) => .recursionLimit

/-- Where the failure is; an input that ended early has no place to point at. -/
def span? : Error → Option Span
  | read e => e.span?
  | eval e => some e.span

/-- What went wrong, in words. -/
def message (s : Store) : Error → String
  | read e => e.message
  | eval e => e.message s

/-- The one-line form of a failure. -/
def line (s : Store) (e : Error) : String := e.kind.text ++ ": " ++ e.message s

/-- What is written next to the place that the failure points at, which starts at byte `start`. -/
def label (start : Nat) : Error → String
  | read (.unexpected _ wanted) => "expected " ++ wanted.text
  | read (.endOfInput wanted) =>
    "input ends at byte " ++ toString start ++ ", expected " ++ wanted.text
  | read (.lexical e) => e.message
  | read (.tooDeep _ _) => "nesting limit reached here"
  | eval (.unbound _ _) => "this symbol is not defined in the current scope"
  | eval (.arity _ _ _ _) => "called with the wrong number of arguments"
  | eval (.notAProcedure found _) => "this " ++ found.typeName ++ " cannot be called as a procedure"
  | eval (.mismatch _ _ found _ _) => "found " ++ found.typeName ++ " here"
  | eval (.malformed _ _) => "this special form is malformed or incomplete"
  | eval (.divisionByZero _) => "arithmetic failed here"
  | eval (.overflow _ _) => "arithmetic failed here"
  | eval (.depthExceeded _ _) => "evaluation nested too deeply here"

end Error

end MiniScheme
