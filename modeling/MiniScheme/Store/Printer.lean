import MiniScheme.CellSet
import MiniScheme.Store
import MiniScheme.Text.Quoted

/-!
# The printed form of values

A pair is printed as a list, with a dot before a tail that is no list. A printer has one set of the
pairs whose printing is in progress, and a pair that is reached again while it is in that set is
printed as a mark. The chain of second halves is walked in a loop, which fills the set; only when
the whole list is written are the pairs of the chain taken out again. The fuel is the number of
calls and rounds that may be open at a time.

* `Store.writeSexpr`, `Store.writePair` and `Store.writeList` stand for `Printer::write_sexpr`,
  `write_pair` and `write_list`, and `Store.writeRest` for the loop in the last of them;
  `Printer.enter` stands for `enter`.
* `Store.text` is the printed form of a value.
* `Store.outline` lists a value's cells and leaves with their ranges, in preorder.

Out of scope: a writer that fails. The text is written to a string, which takes all of it.
-/

namespace MiniScheme.Store

/-- Printed in the place of a cell that contains the place it is printed at. -/
def cycleMark : List Char := "#<cycle>".toList

/-- The printed form of a procedure. -/
def procedureChars (s : Store) : Procedure → List Char
  | .primitive p => "#<primitive:".toList ++ p.name.toList ++ ['>']
  | .closure k =>
    match (s.closure k).name with
    | some name => "#<procedure:".toList ++ name.toList ++ ['>']
    | none => "#<procedure>".toList

/-- The printed form of a value that is no pair. -/
def leafChars (s : Store) : Value → List Char
  | .atom a => a.chars
  | .nil => ['(', ')']
  | .procedure p => s.procedureChars p
  | .unspecified => "#<unspecified>".toList
  | .pair _ => []

/-- A printer at work: the pairs whose printing is in progress, and what has been written so far,
the last character first. -/
structure Printer where
  active : CellSet := .empty
  written : List Char := []

namespace Printer

/-- Writes some text. -/
def write (p : Printer) (text : List Char) : Printer :=
  { p with written := text.reverseAux p.written }

/-- Starts to print a pair, unless its printing is in progress; a pair that is started is put among
those that have been entered. -/
def enter (p : Printer) (c : CellId) (entered : List CellId) : Bool × Printer × List CellId :=
  if p.active.contains c then (false, p, entered)
  else (true, { p with active := p.active.insert c }, c :: entered)

/-- The pairs that have been entered are no longer in progress. -/
def leave (p : Printer) (entered : List CellId) : Printer :=
  { p with active := entered.foldl (fun active c => active.erase c) p.active }

end Printer

mutual

/-- Writes a value. -/
def writeSexpr (s : Store) : Nat → Value → Printer → Option Printer
  | 0, _, _ => none
  | fuel + 1, .pair c, p => s.writePair fuel c p
  | _ + 1, v, p => some (p.write (s.leafChars v))

/-- Writes a pair, and takes the pairs back that it has entered on the way. -/
def writePair (s : Store) : Nat → CellId → Printer → Option Printer
  | 0, _, _ => none
  | fuel + 1, c, p => do
    let (p, entered) ← s.writeList fuel c p []
    return p.leave entered

/-- Writes the list that a pair starts. Only first elements are written by a call. -/
def writeList (s : Store) : Nat → CellId → Printer → List CellId → Option (Printer × List CellId)
  | 0, _, _, _ => none
  | fuel + 1, c, p, entered =>
    match p.enter c entered with
    | (false, p, entered) => some (p.write cycleMark, entered)
    | (true, p, entered) => do
      let p ← s.writeSexpr fuel (s.cell c).car.value (p.write ['('])
      let (p, entered) ← s.writeRest fuel (s.cell c).cdr.value p entered
      return (p.write [')'], entered)

/-- Goes along the chain of second halves. -/
def writeRest (s : Store) : Nat → Value → Printer → List CellId → Option (Printer × List CellId)
  | 0, _, _, _ => none
  | _ + 1, .nil, p, entered => some (p, entered)
  | fuel + 1, .pair c, p, entered =>
    match p.enter c entered with
    | (false, p, entered) => some (p.write (" . ".toList ++ cycleMark), entered)
    | (true, p, entered) => do
      let p ← s.writeSexpr fuel (s.cell c).car.value (p.write [' '])
      s.writeRest fuel (s.cell c).cdr.value p entered
  | fuel + 1, v, p, entered => do
    let p ← s.writeSexpr fuel v (p.write " . ".toList)
    return (p, entered)

end

/-- The printed form of a value, with fuel. -/
def print (s : Store) (fuel : Nat) (v : Value) : Option (List Char) := do
  let p ← s.writeSexpr fuel v {}
  return p.written.reverse

/-- Enough fuel to print any value: three calls for each cell, and for a leaf and a name that no
cell has. -/
def printFuel (s : Store) : Nat := 3 * s.cells.size + 6

/-- The printed form of a value. -/
def chars (s : Store) (v : Value) : List Char := (s.print s.printFuel v).getD []

/-- The printed form of a value. -/
def text (s : Store) (v : Value) : String := String.ofList (s.chars v)

/-! ## Outlines -/

/-- The outline of a node down to a depth of `fuel` cells, in front of `rest`. -/
def outlineOnto (s : Store) : Nat → Node → List String → List String
  | 0, _, rest => rest
  | fuel + 1, node, rest =>
    let head := node.value.typeName ++ " " ++ node.span.text
    match node.value with
    | .pair c => head :: s.outlineOnto fuel (s.cell c).car (s.outlineOnto fuel (s.cell c).cdr rest)
    | .nil | .unspecified => head :: rest
    | v => (head ++ " " ++ String.ofList (s.leafChars v)) :: rest

/-- The cells and leaves of a node, each with its type and range, in preorder. -/
def outline (s : Store) (node : Node) : List String := s.outlineOnto (s.cells.size + 2) node []

/-- The form of a value that shows what a procedure is made of. -/
def debugText (s : Store) : Value → String
  | .procedure (.primitive p) => "Primitive(" ++ p.name ++ ")"
  | .procedure (.closure k) =>
    let c := s.closure k
    "Lambda(" ++ c.displayName ++ ", params: " ++ quotedList c.params ++ ", body: " ++
      s.text c.body.value ++ ")"
  | .pair c => "Pair" ++ s.text (.pair c)
  | v => s.text v

end MiniScheme.Store
