import Std.Data.TreeSet.Lemmas
import MiniScheme.Value

/-!
# Sets of cells

Sets of cells and of pairs of cells, as search trees ordered by the cells' indices. A walk
through pairs remembers in such a set where it has been.

* `CellSet.contains_insert` and `CellPairSet.contains_insert` say what a look-up finds after
  `insert`, `CellSet.contains_erase` what it finds after `erase`.

They stand for hash sets of addresses (`active` of `Printer`, `seen` of `pairs_equal`), of which
only the membership is ever asked.
-/

namespace MiniScheme

/-- A set of cells. -/
abbrev CellSet := Std.TreeSet CellId (compareOn CellId.index)

/-- A set of pairs of cells. -/
abbrev CellPairSet :=
  Std.TreeSet (CellId × CellId) (compareLex (compareOn (·.1.index)) (compareOn (·.2.index)))

/-- A cell that was inserted is there, the others are there if they were. -/
theorem CellSet.contains_insert (t : CellSet) (c d : CellId) :
    (t.insert c).contains d = (decide (c = d) || t.contains d) := by
  obtain ⟨i⟩ := c
  obtain ⟨j⟩ := d
  rw [Std.TreeSet.contains_insert]
  by_cases h : i = j <;> simp [compareOn, h]

/-- A cell that was taken out is not there, the others are there if they were. -/
theorem CellSet.contains_erase (t : CellSet) (c d : CellId) :
    (t.erase c).contains d = (decide (c ≠ d) && t.contains d) := by
  obtain ⟨i⟩ := c
  obtain ⟨j⟩ := d
  rw [Std.TreeSet.contains_erase]
  by_cases h : i = j <;> simp [compareOn, h]

/-- A pair that was inserted is there, the others are there if they were. -/
theorem CellPairSet.contains_insert (t : CellPairSet) (p q : CellId × CellId) :
    (t.insert p).contains q = (decide (p = q) || t.contains q) := by
  obtain ⟨⟨i⟩, ⟨j⟩⟩ := p
  obtain ⟨⟨k⟩, ⟨l⟩⟩ := q
  rw [Std.TreeSet.contains_insert]
  by_cases h : i = k <;> by_cases h' : j = l <;> simp [compareLex, compareOn, h, h']

end MiniScheme
