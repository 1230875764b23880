import MiniScheme.Store

/-!
# Who holds an object

An object of the store refers to others: a cell to what its halves hold, a frame to the frame
around it and to its values, a closure to its body and its frame. An object is *dropped* when no
root refers to it and every object that refers to it is dropped; a ring of objects that refer to
each other is never dropped, even if nothing else refers to it.

`holders` counts the references to an object from roots and from objects that are not dropped. It
counts all references and then takes away those of the dropped objects, one object at a time:
`peel` works off a list of objects that nobody holds.

`isOnlyHeldHere` asks whether a value is the only reference to a closure. A closure that is not
settled yet needs no count, since no object refers to it.
-/

namespace MiniScheme

namespace Store

/-- The objects that an object refers to, once for each reference. -/
def references (s : Store) : Ref → List Ref
  | .cell c => (s.cell c).car.refs ++ (s.cell c).cdr.refs
  | .frame f =>
    ((s.frame f).outer.map Ref.frame).toList ++
      (s.frame f).bindings.entries.flatMap fun e => e.2.refs
  | .closure k => (s.closure k).body.refs ++ [.frame (s.closure k).frame]

/-- All objects of the store. -/
def objects (s : Store) : List Ref :=
  (List.range s.cells.size).map (fun i => .cell ⟨i⟩) ++
    ((List.range s.frames.size).map (fun i => .frame ⟨i⟩) ++
      (List.range s.closures.size).map (fun i => .closure ⟨i⟩))

end Store

/-- A number for each object. -/
structure Census where
  cells : Array Nat
  frames : Array Nat
  closures : Array Nat

namespace Census

/-- Nothing counted yet. -/
def zero (s : Store) : Census :=
  ⟨.replicate s.cells.size 0, .replicate s.frames.size 0, .replicate s.closures.size 0⟩

/-- The number of an object. -/
def count (n : Census) : Ref → Nat
  | .cell c => n.cells[c.index]?.getD 0
  | .frame f => n.frames[f.index]?.getD 0
  | .closure k => n.closures[k.index]?.getD 0

/-- Changes the number of one object. -/
def modify (n : Census) (g : Nat → Nat) : Ref → Census
  | .cell c => { n with cells := n.cells.modify c.index g }
  | .frame f => { n with frames := n.frames.modify f.index g }
  | .closure k => { n with closures := n.closures.modify k.index g }

/-- One more reference to each of `refs`. -/
def addAll (n : Census) (refs : List Ref) : Census :=
  refs.foldl (fun n r => n.modify (· + 1) r) n

/-- One reference less to each of several objects; those among them that nobody holds then are
put in front of `work`. -/
def dropAll (n : Census) (work : List Ref) : List Ref → List Ref × Census
  | [] => (work, n)
  | r :: refs =>
    let n := n.modify (· - 1) r
    if n.count r = 0 then n.dropAll (r :: work) refs else n.dropAll work refs

/-- Takes away the references of the objects in `work`, which nobody holds, and of the objects
that nobody holds because of that. -/
def peel (s : Store) : Nat → List Ref → Census → Census
  | 0, _, n => n
  | _ + 1, [], n => n
  | fuel + 1, r :: work, n =>
    let (work, n) := n.dropAll work (s.references r)
    peel s fuel work n

end Census

namespace Store

/-- The references to each object from `roots` and from all objects. -/
def census (s : Store) (roots : List Ref) : Census :=
  s.objects.foldl (fun n r => n.addAll (s.references r)) ((Census.zero s).addAll roots)

/-- The number of references to each object from `roots` and from objects that are not dropped. -/
def tally (s : Store) (roots : List Ref) : Census :=
  let n := s.census roots
  let unheld := s.objects.filter fun o => n.count o == 0
  Census.peel s s.objects.length unheld n

/-- The number of references to an object from `roots` and from objects that are not dropped. -/
def holders (s : Store) (roots : List Ref) (r : Ref) : Nat := (s.tally roots).count r

/-- Whether nothing refers to a closure but one value, `held` being what is held besides it. -/
def isOnlyHeldHere (s : Store) (held : List Ref) (k : ClosureId) : Bool :=
  if s.settled ≤ k.index then !held.contains (.closure k)
  else s.holders (.closure k :: held) (.closure k) == 1

end Store

end MiniScheme
