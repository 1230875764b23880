import MiniScheme.Atom
import MiniScheme.Primitive
import MiniScheme.Span

/-!
# Values

A value is an atom, the empty list, a pair, a procedure or the unspecified value. Pairs, frames
and closures live in a store and are named by identifiers, because two references to one of them
see each other's changes. A `Node` is a value with the range of text it came from; code is made
of nodes too, so what the reader builds can be evaluated and what is evaluated can be quoted.

* `Value.refs` and `Node.refs` are the objects of the store that a value holds on to.

`Value` is `Sexpr` and `Procedure` is `Procedure`; an identifier is what a counted reference is.
-/

namespace MiniScheme

/-- Names a pair in a store. -/
structure CellId where
  index : Nat
deriving DecidableEq, Repr, Inhabited

/-- Names a frame of bindings in a store. -/
structure FrameId where
  index : Nat
deriving DecidableEq, Repr, Inhabited

/-- Names a closure in a store. -/
structure ClosureId where
  index : Nat
deriving DecidableEq, Repr, Inhabited

/-- An object of a store. -/
inductive Ref where
  | cell (c : CellId)
  | frame (f : FrameId)
  | closure (k : ClosureId)
deriving DecidableEq, Repr

/-- Something that can be applied to arguments. -/
inductive Procedure where
  | primitive (p : Primitive)
  | closure (k : ClosureId)
deriving DecidableEq, Repr

/-- A value of the language. -/
inductive Value where
  | atom (a : Atom)
  | nil
  | pair (c : CellId)
  | procedure (p : Procedure)
  | unspecified
deriving DecidableEq, Repr

instance : Inhabited Value := ⟨.nil⟩

/-- A value and the range of text it came from. -/
structure Node where
  value : Value
  span : Span
deriving DecidableEq, Repr, Inhabited

namespace Procedure

/-- The objects a procedure holds on to. -/
def refs : Procedure → List Ref
  | primitive _ => []
  | closure k => [.closure k]

end Procedure

namespace Value

/-- The name of the value's type. -/
def typeName : Value → String
  | atom a => a.typeName
  | nil => "nil"
  | pair _ => "pair"
  | procedure _ => "procedure"
  | unspecified => "unspecified"

/-- The symbol's name, when the value is a symbol. -/
def symbol? : Value → Option String
  | atom (.symbol name) => some name
  | _ => none

theorem eq_of_symbol? {v : Value} {name : String} (h : v.symbol? = some name) :
    v = atom (.symbol name) := by
  match v, h with
  | atom (.symbol _), rfl => rfl

/-- Everything but `#f` counts as true. -/
def isTrue (v : Value) : Bool := v != .atom (.boolean false)

/-- The objects a value holds on to. -/
def refs : Value → List Ref
  | pair c => [.cell c]
  | procedure p => p.refs
  | _ => []

end Value

namespace Node

/-- An integer. -/
def integer (n : Int64) (span : Span) : Node := ⟨.atom (.integer n), span⟩

/-- A boolean. -/
def boolean (b : Bool) (span : Span) : Node := ⟨.atom (.boolean b), span⟩

/-- A symbol. -/
def symbol (name : String) (span : Span) : Node := ⟨.atom (.symbol name), span⟩

/-- The unspecified value. -/
def unspecified (span : Span) : Node := ⟨.unspecified, span⟩

/-- The objects a node holds on to. -/
def refs (n : Node) : List Ref := n.value.refs

end Node

end MiniScheme
