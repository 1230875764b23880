import MiniScheme.Machine
import MiniScheme.Store.Lists

/-!
# The primitives

A primitive is given evaluated arguments and the span of the call. Arithmetic is exact: each step
is done on integers of any size and has to fit in 64 bits again. Faults are found from left to
right, the first one is reported.

* `Arithmetic.foldIntegers` is the loop of `fold_numbers` and of `prim_div`.
* `Comparison.compareFrom` is the loop of `compare_numbers`: a comparison that is false already
  still looks at every argument.
* `applyPrimitive` is the call, one equation for each of the functions `prim_add` to
  `prim_is_procedure`. That a failed call has changed nothing is a theorem (`applyPrimitive_run`).

`Primitive.wrongArity`, `Primitive.expectInteger` and `Primitive.expectPair` are the complaints of
`check_arity`, `expect_number` and `pair_mismatch`. A call with a wrong number of arguments comes to
the last equation.
-/

namespace MiniScheme

/-- How many arguments an operation takes. -/
def Arithmetic.arity : Arithmetic → Arity
  | add | mul => .atLeast 0
  | sub => .atLeast 1
  | div => .atLeast 2

/-- How many arguments a primitive takes. -/
def Primitive.arity : Primitive → Arity
  | arithmetic op => op.arity
  | comparison _ => .atLeast 2
  | list => .atLeast 0
  | cons | setHalf _ => .exactly 2
  | half _ | test _ => .exactly 1

/-- The complaint about a call with the wrong number of arguments. -/
def Primitive.wrongArity (p : Primitive) (args : List Node) (span : Span) : EvalError :=
  .arity p.name p.arity args.length span

/-- The integer that an argument is, or a complaint about the argument at `position`. -/
def Primitive.expectInteger (p : Primitive) (position : Nat) (arg : Node) :
    Except EvalError Int64 :=
  match arg.value with
  | .atom (.integer n) => .ok n
  | found => .error (.mismatch p .integer found position arg.span)

/-- The pair that the first argument is, or a complaint about it. -/
def Primitive.expectPair (p : Primitive) (arg : Node) : Except EvalError CellId :=
  match arg.value with
  | .pair c => .ok c
  | found => .error (.mismatch p .pair found 1 arg.span)

/-! ## Arithmetic -/

namespace Arithmetic

/-- The word of an exact result, or overflow in the call at `span`. -/
def expectWord (op : Arithmetic) (span : Span) (z : Int) : Except EvalError Int64 :=
  match narrow? z with
  | some n => .ok n
  | none => .error (.overflow op span)

/-- One step (`checked_add` and its kin, before the check): the result so far and an argument,
exactly. Only division fails, at the divisor; its quotients are rounded toward zero. -/
def combine (op : Arithmetic) (arg : Node) (a b : Int) : Except EvalError Int :=
  match op with
  | add => .ok (a + b)
  | sub => .ok (a - b)
  | mul => .ok (a * b)
  | div => if b = 0 then .error (.divisionByZero arg.span) else .ok (a.tdiv b)

/-- The loop of `fold_numbers`: combines the arguments with `acc` from left to right, the first of
them being the argument at `position`. -/
def foldIntegers (op : Arithmetic) (span : Span) :
    Nat → Int64 → List Node → Except EvalError Int64
  | _, acc, [] => .ok acc
  | position, acc, arg :: args => do
    let n ← (Primitive.arithmetic op).expectInteger position arg
    let z ← op.combine arg acc.toInt n.toInt
    let acc ← op.expectWord span z
    foldIntegers op span (position + 1) acc args

/-- Starts with the first argument and combines the others with it. -/
def foldFrom (op : Arithmetic) (span : Span) (arg : Node) (args : List Node) :
    Except EvalError Int64 := do
  let n ← (Primitive.arithmetic op).expectInteger 1 arg
  op.foldIntegers span 2 n args

/-- The integer that an operation computes (`prim_add`, `prim_sub`, `prim_mul`, `prim_div`): sums
start at zero and products at one, a difference of one argument is its negation. -/
def compute (op : Arithmetic) (args : List Node) (span : Span) : Except EvalError Int64 :=
  match op, args with
  | add, args => add.foldIntegers span 1 0 args
  | mul, args => mul.foldIntegers span 1 1 args
  | sub, [arg] => do
    let n ← (Primitive.arithmetic sub).expectInteger 1 arg
    sub.expectWord span (-n.toInt)
  | sub, arg :: args => sub.foldFrom span arg args
  | div, arg :: next :: args => div.foldFrom span arg (next :: args)
  | op, args => .error ((Primitive.arithmetic op).wrongArity args span)

end Arithmetic

/-! ## Comparison -/

namespace Comparison

/-- Whether the relation holds. -/
def holds : Comparison → Int64 → Int64 → Bool
  | equal, a, b => a == b
  | less, a, b => decide (a < b)
  | lessEqual, a, b => decide (a ≤ b)
  | greater, a, b => decide (b < a)
  | greaterEqual, a, b => decide (b ≤ a)

/-- The loop of `compare_numbers`: compares each argument with the one before it. `last` is the
value before the first of `args`, which is the argument at `position`; `result` tells whether all
were in order so far. -/
def compareFrom (r : Comparison) :
    Nat → Int64 → Bool → List Node → Except EvalError Bool
  | _, _, result, [] => .ok result
  | position, last, result, arg :: args => do
    let n ← (Primitive.comparison r).expectInteger position arg
    compareFrom r (position + 1) n (result && r.holds last n) args

/-- The truth value of a comparison of two or more arguments. -/
def compute (r : Comparison) (args : List Node) (span : Span) : Except EvalError Bool :=
  match args with
  | arg :: next :: args => do
    let n ← (Primitive.comparison r).expectInteger 1 arg
    r.compareFrom 2 n true (next :: args)
  | args => .error ((Primitive.comparison r).wrongArity args span)

end Comparison

/-! ## Types -/

/-- Whether a value is of the type asked for (`is_type`). -/
def TypeTest.accepts : TypeTest → Value → Bool
  | null, .nil => true
  | pair, .pair _ => true
  | number, .atom (.integer _) => true
  | boolean, .atom (.boolean _) => true
  | symbol, .atom (.symbol _) => true
  | procedure, .procedure _ => true
  | _, _ => false

/-! ## Calls -/

/-- Applies a primitive to evaluated arguments in the call at `span`. -/
def applyPrimitive (p : Primitive) (args : List Node) (span : Span) : EvalM Node :=
  match p, args with
  | .arithmetic op, args => do
    let n ← EvalM.attempt (op.compute args span)
    return .integer n span
  | .comparison r, args => do
    let b ← EvalM.attempt (r.compute args span)
    return .boolean b span
  | .list, args => EvalM.transform fun s => s.newList args span
  | .cons, [a, b] => do
    let c ← EvalM.transform fun s => s.newCell a b
    return ⟨.pair c, span⟩
  | .half h, [a] => do
    let c ← EvalM.attempt ((Primitive.half h).expectPair a)
    EvalM.view fun s => (s.cell c).half h
  | .setHalf h, [a, b] => do
    let c ← EvalM.attempt ((Primitive.setHalf h).expectPair a)
    EvalM.update fun s => s.setHalf c h b
    return .unspecified span
  | .test t, [a] => return .boolean (t.accepts a.value) span
  | p, args => throw (p.wrongArity args span)

end MiniScheme
