import MiniScheme.Datum.Reader
import MiniScheme.Store.Lists

/-!
# Values made by the host

A host describes a value instead of running a program for it: `Spec` is the description and
`Spec.build` makes the value in a store. Descriptions may mention values and frames that the host
has given names to; one that mentions a name nobody has given, or a text that cannot be read,
describes nothing.
-/

namespace MiniScheme

/-- The limit of nesting where none is given. -/
def defaultLimit : Nat := 256

/-- What a host has given names to. -/
structure Names where
  values : Table Node
  scopes : Table FrameId

/-- The description of a value. -/
inductive Spec where
  | leaf (a : Atom) (span : Span)
  | nil (span : Span)
  | unspecified (span : Span)
  | primitive (p : Primitive) (span : Span)
  | pair (car cdr : Spec) (span : Span)
  | list (items : List Spec) (span : Span)
  /-- a value that the host has a name for -/
  | named (name : String)
  /-- a closure over a frame that the host has a name for -/
  | closure (name : Option String) (params : List String) (body : Spec) (scope : String)
      (span : Span)
  /-- what a text reads as -/
  | source (text : String)

namespace Spec

mutual

/-- Makes the described value. -/
def build (names : Names) : Spec → Store → Option (Node × Store)
  | leaf a span, s => some (⟨.atom a, span⟩, s)
  | nil span, s => some (⟨.nil, span⟩, s)
  | unspecified span, s => some (⟨.unspecified, span⟩, s)
  | primitive p span, s => some (⟨.procedure (.primitive p), span⟩, s)
  | pair a d span, s => do
    let (car, s) ← build names a s
    let (cdr, s) ← build names d s
    let (c, s) := s.newCell car cdr
    return (⟨.pair c, span⟩, s)
  | list items span, s => do
    let (nodes, s) ← buildAll names items s
    return s.newList nodes span
  | named name, s => do
    let node ← names.values.get? name
    return (node, s)
  | closure name params body scope span, s => do
    let frame ← names.scopes.get? scope
    let (body, s) ← build names body s
    let (k, s) := s.newClosure ⟨name, params, body, frame⟩
    return (⟨.procedure (.closure k), span⟩, s)
  | source text, s =>
    match parse defaultLimit text with
    | .ok d => some (s.load d)
    | .error _ => none

/-- Makes several described values, in order. -/
def buildAll (names : Names) : List Spec → Store → Option (List Node × Store)
  | [], s => some ([], s)
  | spec :: specs, s => do
    let (node, s) ← build names spec s
    let (nodes, s) ← buildAll names specs s
    return (node :: nodes, s)

end

end Spec

end MiniScheme
