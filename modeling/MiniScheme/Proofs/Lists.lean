import Mathlib.Data.List.Nodup
import Mathlib.Data.List.Perm.Subperm
import MiniScheme.Store.Lists

/-!
# Lists that end

`elements?` walks a chain of cells for as many steps as there are cells. `IsList` is the walk
without a bound: it holds of a chain that reaches the empty list, however long it takes. A chain
that ends visits no cell twice, so the bound is never what stops the walk.

## Results

* `IsList.elements?_eq`: the elements of a chain that ends are found.
-/

namespace MiniScheme.Store

variable {s : Store} {v : Value} {items : List Node}

/-- Elements of a list are first halves of cells. -/
theorem exists_car_of_mem {fuel : Nat} (h : s.elementsWithin fuel v = some items) :
    ∀ x ∈ items, ∃ c, x = (s.cell c).car := by
  fun_induction elementsWithin s fuel v generalizing items with
  | case1 =>
    cases h
    exact nofun
  | case2 fuel c ih =>
    obtain ⟨rest, hrest, rfl⟩ := Option.map_eq_some_iff.1 h
    exact List.forall_mem_cons.2 ⟨⟨c, rfl⟩, ih hrest⟩
  | case3 => cases h

/-- The value is a chain of existing cells that ends in the empty list. -/
inductive IsList (s : Store) : Value → List Node → Prop
  | nil : IsList s .nil []
  | pair {c : CellId} {items : List Node} (hc : c.index < s.cells.size)
      (tail : IsList s (s.cell c).cdr.value items) :
      IsList s (.pair c) ((s.cell c).car :: items)

theorem IsList.unique {items' : List Node} (h : s.IsList v items) (h' : s.IsList v items') :
    items = items' := by
  induction h generalizing items' with
  | nil =>
    cases h'
    rfl
  | pair _ _ ih =>
    cases h' with
    | pair _ tail => rw [ih tail]

/-- The cells of a chain that ends. From each of them the way is no longer than from the first,
so none of them comes twice. -/
theorem IsList.exists_cells (h : s.IsList v items) :
    ∃ cs : List CellId, cs.length = items.length ∧ cs.Nodup ∧
      ∀ c ∈ cs, c.index < s.cells.size ∧
        ∃ rest, s.IsList (.pair c) rest ∧ rest.length ≤ items.length := by
  induction h with
  | nil => exact ⟨[], rfl, List.nodup_nil, fun c hc => absurd hc List.not_mem_nil⟩
  | @pair c items hc tail ih =>
    obtain ⟨cs, hlen, hnodup, hcs⟩ := ih
    refine ⟨c :: cs, by simp [hlen], List.nodup_cons.2 ⟨fun hmem => ?_, hnodup⟩, fun d hd => ?_⟩
    · obtain ⟨-, rest, hrest, hle⟩ := hcs c hmem
      rw [hrest.unique (.pair hc tail), List.length_cons] at hle
      omega
    · rcases List.mem_cons.1 hd with rfl | hd
      · exact ⟨hc, _, .pair hc tail, Nat.le_refl _⟩
      · obtain ⟨hlt, rest, hrest, hle⟩ := hcs d hd
        exact ⟨hlt, rest, hrest, Nat.le_succ_of_le hle⟩

/-- A chain that ends is no longer than the number of cells. -/
theorem IsList.length_le (h : s.IsList v items) : items.length ≤ s.cells.size := by
  obtain ⟨cs, hlen, hnodup, hcs⟩ := h.exists_cells
  have hinj : (cs.map CellId.index).Nodup := by
    refine List.Nodup.map (fun a b hab => ?_) hnodup
    cases a
    cases b
    exact congrArg CellId.mk hab
  have hsub : cs.map CellId.index ⊆ List.range s.cells.size := by
    intro i hi
    obtain ⟨c, hc, rfl⟩ := List.mem_map.1 hi
    exact List.mem_range.2 (hcs c hc).1
  have hle := (hinj.subperm hsub).length_le
  rwa [List.length_map, List.length_range, hlen] at hle

theorem IsList.elementsWithin_eq (h : s.IsList v items) {fuel : Nat}
    (hfuel : items.length ≤ fuel) : s.elementsWithin fuel v = some items := by
  induction h generalizing fuel with
  | nil => cases fuel <;> rfl
  | pair hc tail ih =>
    cases fuel with
    | zero => exact absurd hfuel (Nat.not_succ_le_zero _)
    | succ fuel =>
      rw [elementsWithin, ih (Nat.le_of_succ_le_succ hfuel)]
      rfl

/-- **The bound is enough**: the elements of a chain that ends are found. -/
theorem IsList.elements?_eq (h : s.IsList v items) : s.elements? v = some items :=
  h.elementsWithin_eq h.length_le

/-- What is no pair has no elements at all, and only the empty list is a list then. -/
theorem elements?_leaf (h : ∀ c, v ≠ .pair c) (hi : s.elements? v = some items) :
    v = .nil ∧ items = [] := by
  unfold elements? elementsWithin at hi
  split at hi
  · cases hi
    exact ⟨rfl, rfl⟩
  · exact absurd rfl (h _)
  · cases hi

/-- A pair has an element at least. -/
theorem elements?_ne_nil {c : CellId} (h : s.elements? (.pair c) = some items) : items ≠ [] := by
  unfold elements? at h
  cases hn : s.cells.size with
  | zero =>
    rw [hn, elementsWithin] at h
    · cases h
    · nofun
    · nofun
  | succ n =>
    rw [hn, elementsWithin] at h
    obtain ⟨rest, -, rfl⟩ := Option.map_eq_some_iff.1 h
    exact List.cons_ne_nil _ _

end MiniScheme.Store
