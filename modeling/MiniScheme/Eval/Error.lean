import MiniScheme.Form
import MiniScheme.Store.Printer

/-!
# Why an evaluation fails

`EvalError` lists the causes, each with the range of text to point at. `message` puts a cause in
words; it needs the store, because one message prints the value it is about.

The causes are the cases of `EvalError` and `EnvError`; the two cases `ArityMismatch` of these are
one cause here. A text that is put together of others (`expected`, the operator of an overflow) is
kept as what it is put together of.
-/

namespace MiniScheme

/-- What is wrong with a special form. -/
inductive Fault where
  | improperList
  | quoteOperands
  | conditionalOperands
  /-- `define` or `set!` without exactly a name and a value -/
  | nameAndValue (form : Form)
  /-- something other than a symbol where `form` binds a name -/
  | notASymbol (form : Form) (found : Value)
  | lambdaOperands
  | parameterList
  | duplicateParameter (name : String)
  | bindOperands
  | bindBody
  | bindingList
  | bindingShape
  | duplicateBinding (name : String)
  | sequenceEmpty
  | clausesEmpty
  | clauseShape
  | misplacedElse
deriving DecidableEq, Repr

/-- What is wrong with a special form, in words. -/
def Fault.text : Fault → String
  | improperList => "cannot evaluate an improper list"
  | quoteOperands => "quote expects exactly one argument"
  | conditionalOperands => "if expects condition, consequent, and optional alternate"
  | nameAndValue form => form.keyword ++ " expects a name and exactly one value expression"
  | notASymbol form found => form.keyword ++ " expects a symbol, but got " ++ found.typeName
  | lambdaOperands => "lambda expects a parameter list and a single body expression"
  | parameterList => "lambda parameters must be a list of symbols"
  | duplicateParameter name => "duplicate parameter '" ++ name ++ "'"
  | bindOperands => "let expects a binding list and a body"
  | bindBody => "let expects at least one body expression"
  | bindingList => "let bindings must be a list of (name expr) pairs"
  | bindingShape => "let binding must have the form (name expr)"
  | duplicateBinding name => "duplicate binding '" ++ name ++ "'"
  | sequenceEmpty => "begin expects at least one expression"
  | clausesEmpty => "cond expects at least one clause"
  | clauseShape => "cond clause must be a non-empty list"
  | misplacedElse => "else must be the last cond clause and have a body"

/-- How many arguments a procedure takes. -/
inductive Arity where
  /-- a primitive with a fixed number -/
  | exactly (n : Nat)
  /-- a primitive with a least number -/
  | atLeast (n : Nat)
  /-- a closure, one for each parameter -/
  | parameters (n : Nat)
deriving DecidableEq, Repr

namespace Arity

/-- A number of arguments in words. -/
def countText (n : Nat) : String :=
  if n = 1 then "1 argument" else toString n ++ " arguments"

/-- The demand in words. -/
def text : Arity → String
  | exactly n => "exactly " ++ countText n
  | atLeast n => "at least " ++ countText n
  | parameters n => countText n

end Arity

/-- What a primitive wants an argument to be. -/
inductive Expected where
  | integer
  | pair
deriving DecidableEq, Repr

/-- The wanted type in words. -/
def Expected.text : Expected → String
  | integer => "an integer"
  | pair => "a pair"

/-- Why an evaluation fails, with the range of text to point at. -/
inductive EvalError where
  | unbound (name : String) (span : Span)
  | arity (procedure : String) (expected : Arity) (actual : Nat) (span : Span)
  | mismatch (operator : Primitive) (expected : Expected) (found : Value) (position : Nat)
      (span : Span)
  | notAProcedure (found : Value) (span : Span)
  | malformed (fault : Fault) (span : Span)
  | divisionByZero (span : Span)
  | overflow (operator : Arithmetic) (span : Span)
  | depthExceeded (limit : Nat) (span : Span)
deriving DecidableEq, Repr

namespace EvalError

/-- Where the error is. -/
def span : EvalError → Span
  | unbound _ s | arity _ _ _ s | mismatch _ _ _ _ s | notAProcedure _ s | malformed _ s
  | divisionByZero s | overflow _ s | depthExceeded _ s => s

/-- What went wrong, in words. -/
def message (s : Store) : EvalError → String
  | unbound name _ => "unbound variable '" ++ name ++ "'"
  | arity procedure expected actual _ =>
    "procedure '" ++ procedure ++ "' expects " ++ expected.text ++ ", got " ++ toString actual
  | mismatch operator expected found position _ =>
    operator.name ++ " expects " ++ expected.text ++ " for argument " ++ toString position ++
      ", got " ++ found.typeName
  | notAProcedure found _ => "expected a procedure, but got: " ++ s.text found
  | malformed fault _ => "invalid special form: " ++ fault.text
  | divisionByZero _ => "division by zero"
  | overflow operator _ => "integer overflow in '" ++ operator.name ++ "'"
  | depthExceeded limit _ => "recursion depth limit of " ++ toString limit ++ " exceeded"

end EvalError

end MiniScheme
