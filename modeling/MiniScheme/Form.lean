/-!
# Special forms

The lists that are not procedure calls, told by the symbol they start with. The symbol decides
before any look-up, so a binding of that name does not change the form. They are the literals of
the match in `evaluate_inner`.
-/

namespace MiniScheme

/-- A kind of special form. -/
inductive Form where
  /-- `(quote datum)` -/
  | quote
  /-- `(if condition consequent alternate)` -/
  | conditional
  /-- `(define name value)` -/
  | define
  /-- `(set! name value)` -/
  | assign
  /-- `(lambda (name ...) body)` -/
  | lambda
  /-- `(let ((name value) ...) body ...)` -/
  | bind
  /-- `(begin body ...)` -/
  | sequence
  /-- `(cond (test body ...) ...)` -/
  | clauses
  /-- `(and test ...)` -/
  | conjunction
  /-- `(or test ...)` -/
  | disjunction
deriving DecidableEq, Repr

namespace Form

/-- The symbol that a form starts with. -/
def keyword : Form → String
  | quote => "quote"
  | conditional => "if"
  | define => "define"
  | assign => "set!"
  | lambda => "lambda"
  | bind => "let"
  | sequence => "begin"
  | clauses => "cond"
  | conjunction => "and"
  | disjunction => "or"

/-- Every form. -/
def all : List Form :=
  [quote, conditional, define, assign, lambda, bind, sequence, clauses, conjunction, disjunction]

/-- The form that a symbol starts. -/
def ofKeyword? (word : String) : Option Form :=
  all.find? fun form => form.keyword == word

end Form

/-- The symbol of the last clause of a `cond`, which is taken without a test. -/
def elseKeyword : String := "else"

end MiniScheme
