/-!
# The names of the primitive procedures

The procedures that every populated global frame starts with, by what they are about: arithmetic,
comparison, pairs and the types of values. What they compute is in `MiniScheme.Eval.Primitive`;
here they are only named, in the order in which `new_global_populated` adds them.
-/

namespace MiniScheme

/-- An operation on integers. -/
inductive Arithmetic where
  | add
  | sub
  | mul
  | div
deriving DecidableEq, Repr

/-- A relation between integers. -/
inductive Comparison where
  | equal
  | less
  | lessEqual
  | greater
  | greaterEqual
deriving DecidableEq, Repr

/-- One of the two halves of a pair. -/
inductive Half where
  | car
  | cdr
deriving DecidableEq, Repr

/-- A question about the type of a value. -/
inductive TypeTest where
  | null
  | pair
  | number
  | boolean
  | symbol
  | procedure
deriving DecidableEq, Repr

/-- A built-in procedure. -/
inductive Primitive where
  | arithmetic (op : Arithmetic)
  | comparison (r : Comparison)
  /-- makes a pair -/
  | cons
  /-- a half of a pair -/
  | half (h : Half)
  /-- makes a list of its arguments -/
  | list
  /-- replaces a half of a pair -/
  | setHalf (h : Half)
  | test (t : TypeTest)
deriving DecidableEq, Repr

/-- The sign of an operation. -/
def Arithmetic.name : Arithmetic → String
  | add => "+"
  | sub => "-"
  | mul => "*"
  | div => "/"

/-- The sign of a relation. -/
def Comparison.name : Comparison → String
  | equal => "="
  | less => "<"
  | lessEqual => "<="
  | greater => ">"
  | greaterEqual => ">="

/-- The name of a question. -/
def TypeTest.name : TypeTest → String
  | null => "null?"
  | pair => "pair?"
  | number => "number?"
  | boolean => "boolean?"
  | symbol => "symbol?"
  | procedure => "procedure?"

namespace Primitive

/-- The name under which a global frame binds the primitive. -/
def name : Primitive → String
  | arithmetic op => op.name
  | comparison r => r.name
  | cons => "cons"
  | half .car => "car"
  | half .cdr => "cdr"
  | list => "list"
  | setHalf .car => "set-car!"
  | setHalf .cdr => "set-cdr!"
  | test t => t.name

/-- Every primitive. -/
def all : List Primitive :=
  [arithmetic .add, arithmetic .sub, arithmetic .mul, arithmetic .div, comparison .equal,
    comparison .less, comparison .lessEqual, comparison .greater, comparison .greaterEqual, cons,
    half .car, half .cdr, list, setHalf .car, setHalf .cdr, test .null, test .pair, test .number,
    test .boolean, test .symbol, test .procedure]

/-- The primitive of a name. -/
def ofName? (n : String) : Option Primitive :=
  all.find? fun p => p.name == n

theorem mem_all (p : Primitive) : p ∈ all := by
  match p with
  | arithmetic op => cases op <;> simp [all]
  | comparison r => cases r <;> simp [all]
  | half h => cases h <;> simp [all]
  | setHalf h => cases h <;> simp [all]
  | test t => cases t <;> simp [all]
  | cons => simp [all]
  | list => simp [all]

end Primitive

end MiniScheme
