import MiniScheme.Proofs.Rereading
import MiniScheme.Proofs.Unfolding
import MiniScheme.Proofs.Updates

/-!
# Printed forms are normal forms

A text that is read is built out of pairs, and the printed form of those pairs is a text again.
The printer sees a loaded datum as it was written: a cell is made after the cells inside it and
after those that follow it in its list, so no cell is met twice on the way down. With what the
reader makes of written data this gives the round trip.

## Results

* `text_load`: a datum that was built of pairs is printed as it is written.
* `printing_is_normal`: the printed form of what was read is read again, and printed alike.
-/

namespace MiniScheme

namespace Store

/-- As long as no cell below `bound` is on the path, the value is printed as the datum is
written. -/
def PrintsAs (t : Store) (bound : Nat) (v : Value) (d : Datum) : Prop :=
  ∀ path : List CellId, (∀ c ∈ path, bound ≤ c.index) →
    ∃ u, t.Unfolds path v u ∧ ∀ rest, u.chars t ++ rest = d.writeOnto rest

variable {t : Store}

theorem PrintsAs.mono {bound bound' : Nat} {v : Value} {d : Datum} (h : t.PrintsAs bound v d)
    (hle : bound ≤ bound') : t.PrintsAs bound' v d :=
  fun path hpath => h path fun c hc => hle.trans (hpath c hc)

/-- The rest of a list is printed as the rest of the data is written. -/
def PrintsAsTail (t : Store) (bound : Nat) (v : Value) (ds : List Datum) : Prop :=
  ∀ path : List CellId, (∀ c ∈ path, bound ≤ c.index) →
    ∃ u, t.Unfolds path v u ∧ ∀ rest, u.tailChars t ++ rest = Datum.writeItemsOnto ds rest

/-- A cell whose halves are printed below it unfolds, and the cells below it are as free as they
were. -/
theorem exists_unfolds_pair {c : CellId} {d : Datum} {ds : List Datum}
    (hcar : t.PrintsAs c.index (t.cell c).car.value d)
    (hcdr : t.PrintsAsTail c.index (t.cell c).cdr.value ds) {path : List CellId}
    (hpath : ∀ d ∈ path, c.index + 1 ≤ d.index) :
    ∃ car cdr, t.Unfolds path (.pair c) (.pair car cdr) ∧
      ∀ rest, car.chars t ++ (cdr.tailChars t ++ rest) =
        d.writeOnto (Datum.writeItemsOnto ds rest) := by
  have hbelow : ∀ d ∈ c :: path, c.index ≤ d.index :=
    List.forall_mem_cons.2 ⟨le_rfl, fun d hd => Nat.le_of_succ_le (hpath d hd)⟩
  obtain ⟨car, hcar, hchars⟩ := hcar _ hbelow
  obtain ⟨cdr, hcdr, htail⟩ := hcdr _ hbelow
  refine ⟨car, cdr, .pair (fun hc => ?_) hcar hcdr, fun rest => by rw [htail, hchars]⟩
  exact absurd (hpath c hc) (Nat.not_succ_le_self _)

/-- A cell whose halves are printed below it is printed as a list. -/
theorem printsAs_pair {c : CellId} {d : Datum} {ds : List Datum} {span : Span}
    (hcar : t.PrintsAs c.index (t.cell c).car.value d)
    (hcdr : t.PrintsAsTail c.index (t.cell c).cdr.value ds) :
    t.PrintsAs (c.index + 1) (.pair c) (.list (d :: ds) span) := by
  intro path hpath
  obtain ⟨car, cdr, hu, hchars⟩ := exists_unfolds_pair hcar hcdr hpath
  exact ⟨_, hu, fun rest => by simp [Unfolding.chars, Datum.writeOnto, hchars]⟩

theorem printsAsTail_pair {c : CellId} {d : Datum} {ds : List Datum}
    (hcar : t.PrintsAs c.index (t.cell c).car.value d)
    (hcdr : t.PrintsAsTail c.index (t.cell c).cdr.value ds) :
    t.PrintsAsTail (c.index + 1) (.pair c) (d :: ds) := by
  intro path hpath
  obtain ⟨car, cdr, hu, hchars⟩ := exists_unfolds_pair hcar hcdr hpath
  exact ⟨_, hu, fun rest => by simp [Unfolding.tailChars, Datum.writeItemsOnto, hchars]⟩

/-! ## Loaded data -/

/-- The first cell of a chain holds the first item and leads to the chain of the others. -/
theorem exists_cell_newTail {u : Store} {stop : Nat} {node : Node} {nodes : List Node}
    (ht : Grows (u.newTail stop (node :: nodes)).2 t) :
    ∃ c, (u.newTail stop (node :: nodes)).1.value = .pair c ∧
      c.index = u.cells.size + nodes.length ∧ t.cell c = ⟨node, (u.newTail stop nodes).1⟩ := by
  obtain ⟨hvalue, hcell⟩ := u.newTail_cons stop node nodes
  refine ⟨_, hvalue, rfl, ?_⟩
  rw [ht.cell _ (by simp), hcell]

theorem printsAsTail_newTail {u : Store} {stop : Nat} {nodes : List Node} {ds : List Datum}
    (ht : Grows (u.newTail stop nodes).2 t)
    (h : List.Forall₂ (fun n d => t.PrintsAs u.cells.size n.value d) nodes ds) :
    t.PrintsAsTail (u.cells.size + nodes.length) (u.newTail stop nodes).1.value ds := by
  induction h with
  | nil => exact fun path _ => ⟨_, .leaf nofun, fun rest => rfl⟩
  | @cons node d nodes ds hd _ ih =>
    have htail := ih ((grows_newCell _ _ _).trans ht)
    obtain ⟨c, hvalue, hindex, hcell⟩ := exists_cell_newTail ht
    rw [hvalue, List.length_cons, ← Nat.add_assoc, ← hindex]
    rw [← hindex] at htail
    refine printsAsTail_pair ?_ ?_
    · rw [hcell]
      exact hd.mono (by omega)
    · rw [hcell]
      exact htail

theorem printsAs_newTail {u : Store} {stop : Nat} {nodes : List Node} {ds : List Datum}
    (span : Span) (ht : Grows (u.newTail stop nodes).2 t)
    (h : List.Forall₂ (fun n d => t.PrintsAs u.cells.size n.value d) nodes ds) :
    t.PrintsAs (u.cells.size + nodes.length) (u.newTail stop nodes).1.value (.list ds span) := by
  cases h with
  | nil => exact fun path _ => ⟨_, .leaf nofun, fun rest => rfl⟩
  | @cons node d nodes ds hd hds =>
    have htail := printsAsTail_newTail ((grows_newCell _ _ _).trans ht) hds
    obtain ⟨c, hvalue, hindex, hcell⟩ := exists_cell_newTail ht
    rw [hvalue, List.length_cons, ← Nat.add_assoc, ← hindex]
    rw [← hindex] at htail
    refine printsAs_pair ?_ ?_
    · rw [hcell]
      exact hd.mono (by omega)
    · rw [hcell]
      exact htail

mutual

theorem printsAs_load : ∀ (s : Store) (d : Datum), Grows (s.load d).2 t →
    t.PrintsAs (s.load d).2.cells.size (s.load d).1.value d
  | s, .atom a span, _ => fun path _ => ⟨_, .leaf nofun, fun rest => rfl⟩
  | s, .list items span, ht => by
    have hitems := printsAs_loadAll s items ((grows_newTail _ span.stop _).trans ht)
    have hsize := size_cells_newTail (s.loadAll items).2 span.stop (s.loadAll items).1
    have hlist := printsAs_newTail span ht hitems
    rw [← hsize] at hlist
    exact hlist

theorem printsAs_loadAll : ∀ (s : Store) (ds : List Datum), Grows (s.loadAll ds).2 t →
    List.Forall₂ (fun n d => t.PrintsAs (s.loadAll ds).2.cells.size n.value d) (s.loadAll ds).1 ds
  | s, [], _ => .nil
  | s, d :: ds, ht => by
    have hgrows := grows_loadAll (s.load d).2 ds
    have hd := printsAs_load s d (hgrows.trans ht)
    exact .cons (hd.mono hgrows.size) (printsAs_loadAll (s.load d).2 ds ht)

end

/-- **A loaded datum is printed as it is written.** -/
theorem text_load (s : Store) (d : Datum) : (s.load d).2.text (s.load d).1.value = d.text := by
  obtain ⟨u, hu, hchars⟩ := printsAs_load s d (.refl _) [] nofun
  rw [hu.text_eq, Datum.text, Datum.chars, ← hchars [], List.append_nil]

end Store

/-- **Printing gives a normal form.** Whatever text was read, the printed form of the pairs built
for it is read again with the same limit; the result is printed alike, and it is what was read
first, except for the ranges and for symbols spelt like booleans, which are booleans now. -/
theorem printing_is_normal {limit : Nat} {source : String} {d : Datum}
    (h : parse limit source = .ok d) (s : Store) :
    ∃ d', parse limit ((s.load d).2.text (s.load d).1.value) = .ok d' ∧
      (∀ t : Store, (t.load d').2.text (t.load d').1.value =
        (s.load d).2.text (s.load d).1.value) ∧
      d'.unplaced = d.reread := by
  obtain ⟨d', hparse, hd'⟩ := parse_text (fits_of_parse h)
  rw [Store.text_load]
  refine ⟨d', hparse, fun t => ?_, hd'⟩
  rw [Store.text_load, Datum.text_of_reread hd']

/-- A padded integer, a symbol spelt like a boolean and a list at the limit. -/
theorem printing_is_normal_of_quirk :
    ∃ d', parse 2 "(7 #t ())" = .ok d' ∧
      d'.unplaced = .list [.atom (.integer 7) default, .atom (.boolean true) default,
        .list [] default] default := by
  have hread : parse 2 "(+007 #t\u00a0())" = .ok (.list [.atom (.integer 7) ⟨1, 5⟩,
      .atom (.symbol "#t") ⟨6, 8⟩, .list [] ⟨10, 12⟩] ⟨0, 13⟩) := by decide +kernel
  obtain ⟨d', hparse, -, hd'⟩ := printing_is_normal hread .empty
  rw [Store.text_load] at hparse
  exact ⟨d', by rw [← hparse]; exact congrArg (parse 2) (by decide +kernel), hd'⟩

end MiniScheme
