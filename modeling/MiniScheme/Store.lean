import MiniScheme.Registry
import MiniScheme.Table
import MiniScheme.Value

/-!
# The store

Three growing arrays hold the mutable objects: the cells of pairs, the frames of bindings and the
closures. Objects are only ever added, at the end, so an identifier names the same object for
ever; what changes is the content of cells, the bindings of frames and the names of closures.
Reading an identifier that names nothing gives an empty object, which makes every operation
total. The store also knows how far the closures go that some object has ever referred to: the
later ones can only be held by an evaluation that is under way.

* `Bindings` are the names of one frame with their values.
* `newCell`, `newFrame` and `newClosure` add an object and give its identifier.
* `setHalf`, `bind` and `nameClosure` change one object and no other.
-/

namespace MiniScheme

/-- The content of a pair. -/
structure Cell where
  car : Node
  cdr : Node
deriving DecidableEq, Repr, Inhabited

namespace Cell

/-- One half of a pair. -/
def half (c : Cell) : Half → Node
  | .car => c.car
  | .cdr => c.cdr

/-- The pair with one half replaced. -/
def setHalf (c : Cell) (h : Half) (node : Node) : Cell :=
  match h with
  | .car => { c with car := node }
  | .cdr => { c with cdr := node }

/-- A replaced half is the new node, the other half is what it was. -/
theorem half_setHalf (c : Cell) (h k : Half) (node : Node) :
    (c.setHalf h node).half k = if k = h then node else c.half k := by
  cases h <;> cases k <;> rfl

end Cell

/-- The names bound in one frame with their values. -/
abbrev Bindings := Table Node

/-- One frame of bindings. A frame without an outer one is a global frame. -/
structure Frame where
  outer : Option FrameId
  bindings : Bindings
deriving DecidableEq, Repr, Inhabited

/-- A user-defined procedure with the frame it was made in. -/
structure Closure where
  name : Option String
  params : List String
  body : Node
  frame : FrameId
deriving DecidableEq, Repr, Inhabited

/-- The name of a closure in messages. -/
def Closure.displayName (k : Closure) : String := k.name.getD "#<lambda>"

/-- All mutable objects. -/
structure Store where
  cells : Array Cell
  frames : Array Frame
  closures : Array Closure
  /-- No object has ever referred to a closure with this index or a later one. -/
  settled : Nat
  /-- The frames that global frames keep track of. -/
  registries : Registries
deriving Inhabited

/-- One more than the index of the closure that a node refers to, and zero for any other node. -/
def Node.closureBound (node : Node) : Nat :=
  match node.value with
  | .procedure (.closure k) => k.index + 1
  | _ => 0

namespace Store

/-- No objects. -/
def empty : Store := ⟨#[], #[], #[], 0, .empty⟩

/-- Takes note that objects refer to what these nodes refer to. -/
def settle (s : Store) (nodes : List Node) : Store :=
  { s with settled := nodes.foldl (fun n node => max n node.closureBound) s.settled }

/-! ## Cells -/

/-- The content of a pair. -/
def cell (s : Store) (c : CellId) : Cell := s.cells[c.index]?.getD default

/-- A name that no cell has stands for a pair of empty lists. -/
theorem cell_of_size_le {s : Store} {c : CellId} (hc : s.cells.size ≤ c.index) :
    s.cell c = default := by
  rw [cell, Array.getElem?_eq_none hc]
  rfl

/-- A new pair. -/
def newCell (s : Store) (car cdr : Node) : CellId × Store :=
  (⟨s.cells.size⟩, settle { s with cells := s.cells.push ⟨car, cdr⟩ } [car, cdr])

/-- Replaces a half of a pair. -/
def setHalf (s : Store) (c : CellId) (h : Half) (node : Node) : Store :=
  settle { s with cells := s.cells.modify c.index fun cell => cell.setHalf h node } [node]

/-! ## Frames -/

/-- The content of a frame. -/
def frame (s : Store) (f : FrameId) : Frame := s.frames[f.index]?.getD default

/-- A new frame, global when it has no outer frame. -/
def newFrame (s : Store) (outer : Option FrameId) (bindings : Bindings) : FrameId × Store :=
  (⟨s.frames.size⟩,
    settle { s with frames := s.frames.push ⟨outer, bindings⟩ } bindings.values)

/-- Changes the bindings of one frame. -/
def modifyBindings (s : Store) (f : FrameId) (g : Bindings → Bindings) : Store :=
  { s with frames := s.frames.modify f.index fun fr => { fr with bindings := g fr.bindings } }

/-- Binds a name in one frame. -/
def bind (s : Store) (f : FrameId) (name : String) (node : Node) : Store :=
  (s.modifyBindings f fun b => b.insert name node).settle [node]

/-- Unbinds every name of one frame. -/
def clear (s : Store) (f : FrameId) : Store :=
  s.modifyBindings f fun _ => .empty

/-! ## Closures -/

/-- The content of a closure. -/
def closure (s : Store) (k : ClosureId) : Closure := s.closures[k.index]?.getD default

/-- A new closure. -/
def newClosure (s : Store) (k : Closure) : ClosureId × Store :=
  (⟨s.closures.size⟩, settle { s with closures := s.closures.push k } [k.body])

/-- Gives a closure a name. -/
def nameClosure (s : Store) (k : ClosureId) (name : String) : Store :=
  { s with closures := s.closures.modify k.index fun c => { c with name := some name } }

/-! ## What a change leaves as it was

Each operation in terms of `cell`, `frame` and `closure`. An object that is changed has to exist;
a new object gets an identifier that named nothing before. -/

theorem getD_getElem?_modify {α : Type} (xs : Array α) (i j : Nat) (f : α → α) (d : α) :
    (xs.modify i f)[j]?.getD d =
      if i = j ∧ i < xs.size then f (xs[j]?.getD d) else xs[j]?.getD d := by
  rw [Array.getElem?_modify]
  by_cases hij : i = j
  · subst hij
    by_cases hi : i < xs.size
    · simp [hi]
    · simp [hi]
  · simp [hij]

theorem getD_getElem?_push {α : Type} (xs : Array α) (a : α) (i : Nat) (d : α) :
    (xs.push a)[i]?.getD d = if i = xs.size then a else xs[i]?.getD d := by
  rw [Array.getElem?_push]
  split <;> rfl

theorem cell_setHalf (s : Store) (c d : CellId) (h : Half) (node : Node) :
    (s.setHalf c h node).cell d =
      if c = d ∧ c.index < s.cells.size then (s.cell d).setHalf h node else s.cell d := by
  obtain ⟨i⟩ := c
  obtain ⟨j⟩ := d
  simp [setHalf, settle, cell, getD_getElem?_modify]

theorem cell_newCell (s : Store) (car cdr : Node) (d : CellId) :
    (s.newCell car cdr).2.cell d =
      if d = (s.newCell car cdr).1 then ⟨car, cdr⟩ else s.cell d := by
  obtain ⟨j⟩ := d
  simp [newCell, settle, cell, getD_getElem?_push]

theorem frame_modifyBindings (s : Store) (f g : FrameId) (b : Bindings → Bindings) :
    (s.modifyBindings f b).frame g =
      if f = g ∧ f.index < s.frames.size then
        { s.frame g with bindings := b (s.frame g).bindings }
      else s.frame g := by
  obtain ⟨i⟩ := f
  obtain ⟨j⟩ := g
  simp [modifyBindings, frame, getD_getElem?_modify]

theorem frame_newFrame (s : Store) (outer : Option FrameId) (b : Bindings) (g : FrameId) :
    (s.newFrame outer b).2.frame g =
      if g = (s.newFrame outer b).1 then ⟨outer, b⟩ else s.frame g := by
  obtain ⟨j⟩ := g
  simp [newFrame, settle, frame, getD_getElem?_push]

theorem closure_nameClosure (s : Store) (k l : ClosureId) (name : String) :
    (s.nameClosure k name).closure l =
      if k = l ∧ k.index < s.closures.size then { s.closure l with name := some name }
      else s.closure l := by
  obtain ⟨i⟩ := k
  obtain ⟨j⟩ := l
  simp [nameClosure, closure, getD_getElem?_modify]

theorem closure_newClosure (s : Store) (k : Closure) (l : ClosureId) :
    (s.newClosure k).2.closure l =
      if l = (s.newClosure k).1 then k else s.closure l := by
  obtain ⟨j⟩ := l
  simp [newClosure, settle, closure, getD_getElem?_push]

end Store

end MiniScheme
