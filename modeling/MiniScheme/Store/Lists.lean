import MiniScheme.Datum
import MiniScheme.Store

/-!
# Lists in the store

Lists are chains of pairs that end in the empty list. `newList` builds one from the end, so that
each inner cell reaches from its item to the end of the whole list; `elements?` takes one apart.
`load` builds the pairs of a datum.

* `newList` is `new_list`: cells are made from the last item to the first.
* `elements?` is `list_elements`, which goes along the second halves.

Out of scope: a chain that never ends, on which `list_elements` does not return. Here it has no
elements, as any list that is not proper.
-/

namespace MiniScheme.Store

/-- The chain of cells for `items`, in a list that ends at `stop`. -/
def newTail (s : Store) (stop : Nat) : List Node → Node × Store
  | [] => (⟨.nil, .point stop⟩, s)
  | item :: items =>
    let (rest, s) := s.newTail stop items
    let (c, s) := s.newCell item rest
    (⟨.pair c, ⟨item.span.start, stop⟩⟩, s)

/-- A proper list of `items` with a range of its own. -/
def newList (s : Store) (items : List Node) (span : Span) : Node × Store :=
  let (node, s) := s.newTail span.stop items
  (⟨node.value, span⟩, s)

/-- The elements of the chain that starts at `v`, `none` when it does not end in the empty list
within `fuel` cells. -/
def elementsWithin (s : Store) : Nat → Value → Option (List Node)
  | _, .nil => some []
  | fuel + 1, .pair c => (s.elementsWithin fuel (s.cell c).cdr.value).map ((s.cell c).car :: ·)
  | _, _ => none

/-- The elements of a proper list, `none` for any other value. A chain longer than the number of
cells has no end. -/
def elements? (s : Store) (v : Value) : Option (List Node) :=
  s.elementsWithin s.cells.size v

mutual

/-- Builds a datum out of pairs. -/
def load (s : Store) : Datum → Node × Store
  | .atom a span => (⟨.atom a, span⟩, s)
  | .list items span =>
    let (nodes, s) := s.loadAll items
    s.newList nodes span

/-- Builds several data, in order. -/
def loadAll (s : Store) : List Datum → List Node × Store
  | [] => ([], s)
  | d :: ds =>
    let (node, s) := s.load d
    let (nodes, s) := s.loadAll ds
    (node :: nodes, s)

end

end MiniScheme.Store
