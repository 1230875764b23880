import MiniScheme.CellSet
import MiniScheme.Store

/-!
# Equality of values

Two nodes are equal when no difference can be reached by following the halves of pairs on both
sides in step: spans, types and leaves agree everywhere. A comparison remembers the pairs of cells
it has met, takes a pair that it meets again for equal, and never goes back on that, so cyclic
structure is no obstacle. It calls itself for the first halves and goes along the second halves in
a loop. One set of met pairs serves the whole comparison.

The fuel of the three functions is the number of calls and rounds that may be open at a time. A
comparison that runs out of it has no answer.

* `ifEqual` goes on with a comparison that has found no difference so far.
* `nodesMatch` stands for `nodes_equal`, `pairsMatch` for `pairs_equal` and `restsMatch` for the
  loop in it.
* `compareNodes` and `compareValues` are the derived equality of nodes and of values.
* `nodesEqual` and `valuesEqual` compare with fuel that is enough.
-/

namespace MiniScheme.Store

/-- Goes on with the pairs of cells met so far, unless there is a difference or no answer. -/
def ifEqual (found : Option (Bool × CellPairSet))
    (next : CellPairSet → Option (Bool × CellPairSet)) : Option (Bool × CellPairSet) :=
  match found with
  | some (true, seen) => next seen
  | unequal => unequal

mutual

/-- Compares two nodes. -/
def nodesMatch (s : Store) : Nat → CellPairSet → Node → Node → Option (Bool × CellPairSet)
  | 0, _, _, _ => none
  | fuel + 1, seen, a, b =>
    if a.span ≠ b.span then some (false, seen)
    else
      match a.value, b.value with
      | .pair c, .pair d => if c = d then some (true, seen) else s.pairsMatch fuel seen c d
      | v, w => some (decide (v = w), seen)

/-- Compares two cells: the first halves, and then what follows in the second halves. -/
def pairsMatch (s : Store) : Nat → CellPairSet → CellId → CellId → Option (Bool × CellPairSet)
  | 0, _, _, _ => none
  | fuel + 1, seen, c, d =>
    if seen.contains (c, d) then some (true, seen)
    else
      ifEqual (s.nodesMatch fuel (seen.insert (c, d)) (s.cell c).car (s.cell d).car) fun seen =>
        s.restsMatch fuel seen (s.cell c).cdr (s.cell d).cdr

/-- Goes along two chains of second halves. -/
def restsMatch (s : Store) : Nat → CellPairSet → Node → Node → Option (Bool × CellPairSet)
  | 0, _, _, _ => none
  | fuel + 1, seen, a, b =>
    if a.span ≠ b.span then some (false, seen)
    else
      match a.value, b.value with
      | .pair c, .pair d =>
        if c = d ∨ seen.contains (c, d) then some (true, seen)
        else
          ifEqual (s.nodesMatch fuel (seen.insert (c, d)) (s.cell c).car (s.cell d).car) fun seen =>
            s.restsMatch fuel seen (s.cell c).cdr (s.cell d).cdr
      | v, w => some (decide (v = w), seen)

end

/-- Equality of values, with fuel. Two pairs are compared from scratch, also a pair with itself. -/
def compareValues (s : Store) (fuel : Nat) (v w : Value) : Option Bool :=
  match v, w with
  | .pair c, .pair d => (s.pairsMatch fuel .empty c d).map Prod.fst
  | v, w => some (decide (v = w))

/-- Equality of nodes, with fuel: the values and then the spans. -/
def compareNodes (s : Store) (fuel : Nat) (a b : Node) : Option Bool :=
  (s.compareValues fuel a.value b.value).map fun equal => equal && a.span == b.span

/-- Enough fuel to compare any two nodes: two for each pair of cells that the two nodes or the
halves of the cells name, and one more. -/
def compareFuel (s : Store) : Nat := 2 * (2 * s.cells.size + 1) * (2 * s.cells.size + 1) + 1

/-- Equality of nodes, spans included. -/
def nodesEqual (s : Store) (a b : Node) : Bool := (s.compareNodes s.compareFuel a b).getD false

/-- Equality of values: as for nodes, without the outermost spans. -/
def valuesEqual (s : Store) (v w : Value) : Bool := (s.compareValues s.compareFuel v w).getD false

end MiniScheme.Store
