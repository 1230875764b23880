import MiniScheme.Store
import MiniScheme.Text.Quoted

/-!
# Scopes

The frames that are visible from a frame form a chain, from the frame itself outwards to its
global frame. A frame is always made after the frame around it, so the chain goes down in the
identifiers and ends.

* `chain` lists the frames, innermost first, and `root` is the last of them.
* `lookup?` and `assign` find the first frame of the chain that binds the name.
* `defineGlobal` binds a name in the root.
* `newGlobal` and `newPopulated` make global frames (`Environment::new`, `new_global_populated`).
-/

namespace MiniScheme.Store

/-- The frames visible from `f`, innermost first. -/
def chain (s : Store) (f : FrameId) : List FrameId :=
  match (s.frame f).outer with
  | some g => if g.index < f.index then f :: s.chain g else [f]
  | none => [f]
termination_by f.index

theorem chain_ne_nil (s : Store) (f : FrameId) : s.chain f ≠ [] := by
  rw [chain]
  split
  · split <;> simp
  · simp

/-- The global frame of the chain of `f`. -/
def root (s : Store) (f : FrameId) : FrameId := (s.chain f).getLast?.getD f

/-- The first frame of the chain that binds a name. -/
def owner? (s : Store) (f : FrameId) (name : String) : Option FrameId :=
  (s.chain f).find? fun g => (s.frame g).bindings.contains name

/-- The value of a name as seen from a frame. -/
def lookup? (s : Store) (f : FrameId) (name : String) : Option Node :=
  (s.chain f).findSome? fun g => (s.frame g).bindings.get? name

/-- Replaces the value of a name in the first frame of the chain that binds it. Tells whether some
frame does; if none does, nothing is changed. -/
def assign (s : Store) (f : FrameId) (name : String) (node : Node) : Bool × Store :=
  match s.owner? f name with
  | some g => (true, s.bind g name node)
  | none => (false, s)

/-- Binds a name in the global frame of the chain. -/
def defineGlobal (s : Store) (f : FrameId) (name : String) (node : Node) : Store :=
  s.bind (s.root f) name node

/-- A new global frame with no names. -/
def newGlobal (s : Store) : FrameId × Store := s.newFrame none .empty

/-- The names of a populated global frame: every primitive. -/
def primitiveBindings : Bindings :=
  Table.empty.insertAll (Primitive.all.map fun p => (p.name, ⟨.procedure (.primitive p), default⟩))

/-- A new global frame that binds the primitives. -/
def newPopulated (s : Store) : FrameId × Store := s.newFrame none primitiveBindings

/-- The debug form of a frame: its names in the order of their code points, and whether it is
beneath another frame. -/
def frameText (s : Store) (f : FrameId) : String :=
  let fr := s.frame f
  "Environment \x7b bindings: " ++ quotedList (sortedNames fr.bindings.names) ++ ", has_outer: " ++
    toString fr.outer.isSome ++ " \x7d"

end MiniScheme.Store
