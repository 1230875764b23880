import Mathlib.Data.Finset.Card
import Mathlib.Logic.Relation
import MiniScheme.Store.Printer

/-!
# Printing marks the cycles

A value unfolds to a tree: a pair to a node over what its halves unfold to, and a pair that is on
the path from the value down to its place to a mark. A tree is written as a list, without looking at
the store for more than the names of closures. `Store.Unfolds` and `Unfolding.chars` together are
what printing should be; neither of them has fuel, or a set that is carried from one element of a
list to the next.

The printer has one set for everything. What carries the argument is that this set is the path to
what is written next (`Printer.Below`): an element of a list gives it back as it was, the walk along
a list adds the pairs of the chain, all of them new, and the end of the list takes out just those.
Since a pair on the path is not entered again, no path is longer than the number of cells, and the
unfolding of a value is no higher than that.

A mark stands below a pair that it refers to, so there is a cycle of pairs. Without a mark the tree
is finite although no path was looked at, and then the value cannot have a cycle below it.

## Results

* `Unfolds.unique`, `exists_unfolds`: a value has one unfolding.
* `Unfolds.printsTo`: the printer writes it and has the same pairs in progress as before.
* `Unfolds.print_eq`, `Unfolds.text_eq`: what is printed.
* `Unfolds.marked_iff`: what a mark says.
* `printing_marks_cycles`: the printed form of a value.
-/

namespace MiniScheme

/-- What a value is written as: a leaf, a mark for a pair that is being written already, or a
pair. -/
inductive Unfolding where
  | leaf (v : Value)
  | cycle
  | pair (car cdr : Unfolding)

namespace Unfolding

mutual

/-- The text of an unfolding. -/
def chars (s : Store) : Unfolding → List Char
  | .leaf v => s.leafChars v
  | .cycle => Store.cycleMark
  | .pair car cdr => '(' :: (chars s car ++ tailChars s cdr)

/-- The text of an unfolding that follows the first element of a list, with the end of the list. -/
def tailChars (s : Store) : Unfolding → List Char
  | .leaf .nil => [')']
  | .leaf v => " . ".toList ++ s.leafChars v ++ [')']
  | .cycle => " . ".toList ++ Store.cycleMark ++ [')']
  | .pair car cdr => ' ' :: (chars s car ++ tailChars s cdr)

end

/-- There is a mark in the unfolding. -/
def Marked : Unfolding → Prop
  | .leaf _ => False
  | .cycle => True
  | .pair car cdr => car.Marked ∨ cdr.Marked

/-- The number of pairs on the longest way down. -/
def height : Unfolding → Nat
  | .leaf _ | .cycle => 0
  | .pair car cdr => max car.height cdr.height + 1

end Unfolding

namespace Store

variable {s : Store} {v : Value} {c d : CellId} {path : List CellId} {t : Unfolding}

/-- What a value unfolds to below the cells of `path`: a pair that is on the path to a mark, any
other pair to a pair, with its cell on the path to both halves. -/
inductive Unfolds (s : Store) : List CellId → Value → Unfolding → Prop
  | leaf {path : List CellId} {v : Value} (h : ∀ c, v ≠ .pair c) : Unfolds s path v (.leaf v)
  | cycle {path : List CellId} {c : CellId} (h : c ∈ path) : Unfolds s path (.pair c) .cycle
  | pair {path : List CellId} {c : CellId} {car cdr : Unfolding} (h : c ∉ path)
      (hcar : Unfolds s (c :: path) (s.cell c).car.value car)
      (hcdr : Unfolds s (c :: path) (s.cell c).cdr.value cdr) :
      Unfolds s path (.pair c) (.pair car cdr)

/-- The plain tree of a value: every pair unfolds, wherever it stands. -/
inductive Tree (s : Store) : Value → Unfolding → Prop
  | leaf {v : Value} (h : ∀ c, v ≠ .pair c) : Tree s v (.leaf v)
  | pair {c : CellId} {car cdr : Unfolding} (hcar : Tree s (s.cell c).car.value car)
      (hcdr : Tree s (s.cell c).cdr.value cdr) : Tree s (.pair c) (.pair car cdr)

/-- One half of the first cell is a pair, with the second cell. -/
def Links (s : Store) (c d : CellId) : Prop := ∃ half, ((s.cell c).half half).value = .pair d

/-- A cycle of pairs can be reached from the value. -/
def CycleBelow (s : Store) (v : Value) : Prop :=
  ∃ c d, v = .pair c ∧ Relation.ReflTransGen s.Links c d ∧ Relation.TransGen s.Links d d

/-! ## One unfolding -/

/-- A value has no two unfoldings. -/
theorem Unfolds.unique {t' : Unfolding} (h : s.Unfolds path v t) (h' : s.Unfolds path v t') :
    t = t' := by
  induction h generalizing t' with
  | leaf hv =>
    cases h' with
    | leaf => rfl
    | cycle | pair => exact absurd rfl (hv _)
  | cycle hc =>
    cases h' with
    | leaf hv => exact absurd rfl (hv _)
    | cycle => rfl
    | pair hc' => exact absurd hc hc'
  | pair hc _ _ ihcar ihcdr =>
    cases h' with
    | leaf hv => exact absurd rfl (hv _)
    | cycle hc' => exact absurd hc' hc
    | pair _ hcar hcdr => rw [ihcar hcar, ihcdr hcdr]

/-- The number of cells of the store that are not on the path. -/
def free (s : Store) (path : List CellId) : Nat :=
  {i ∈ Finset.range s.cells.size | ⟨i⟩ ∉ path}.card

theorem free_le (s : Store) (path : List CellId) : s.free path ≤ s.cells.size := by
  have := Finset.card_filter_le (Finset.range s.cells.size) fun i => ⟨i⟩ ∉ path
  rwa [Finset.card_range] at this

/-- A cell that is put on the path is free no longer. -/
theorem free_cons_lt (hc : c.index < s.cells.size) (hpath : c ∉ path) :
    s.free (c :: path) < s.free path := by
  refine Finset.card_lt_card (Finset.ssubset_iff_of_subset ?_ |>.2 ⟨c.index, ?_, ?_⟩)
  · exact Finset.monotone_filter_right _ fun i _ hi hmem => hi (List.mem_cons_of_mem _ hmem)
  · exact Finset.mem_filter.2 ⟨Finset.mem_range.2 hc, hpath⟩
  · rw [Finset.mem_filter]
    exact fun h => h.2 List.mem_cons_self

/-- **A value has an unfolding** below the cells of any path, no higher than the number of free
cells and one name without a cell. -/
theorem exists_unfolds (s : Store) (path : List CellId) (v : Value) :
    ∃ t, s.Unfolds path v t ∧ t.height ≤ s.free path + 1 := by
  induction hn : s.free path using Nat.strong_induction_on generalizing path v with
  | h n ih =>
    by_cases hv : ∀ c, v ≠ .pair c
    · exact ⟨.leaf v, .leaf hv, Nat.zero_le _⟩
    obtain ⟨c, rfl⟩ : ∃ c, v = .pair c := by simpa using hv
    by_cases hc : c ∈ path
    · exact ⟨.cycle, .cycle hc, Nat.zero_le _⟩
    have hhalf (half : Half) :
        ∃ t, s.Unfolds (c :: path) ((s.cell c).half half).value t ∧ t.height ≤ n := by
      by_cases hsize : c.index < s.cells.size
      · have hless : s.free (c :: path) < n := hn ▸ free_cons_lt hsize hc
        obtain ⟨t, ht, hheight⟩ := ih _ hless (c :: path) ((s.cell c).half half).value rfl
        exact ⟨t, ht, by omega⟩
      · -- a name without a cell is a pair of empty lists
        refine ⟨_, .leaf fun d hd => ?_, Nat.zero_le _⟩
        rw [cell_of_size_le (Nat.le_of_not_lt hsize)] at hd
        cases half <;> cases hd
    obtain ⟨car, hcar, hheight⟩ := hhalf .car
    obtain ⟨cdr, hcdr, hheight'⟩ := hhalf .cdr
    refine ⟨.pair car cdr, .pair hc hcar hcdr, ?_⟩
    exact Nat.succ_le_succ (Nat.max_le.2 ⟨hheight, hheight'⟩)

/-! ## What the printer writes -/

namespace Printer

@[simp] theorem written_write (p : Printer) (text : List Char) :
    (p.write text).written = text.reverse ++ p.written := by
  rw [write, List.reverseAux_eq]

/-- The pairs in progress are those of the path. -/
def Below (p : Printer) (path : List CellId) : Prop :=
  ∀ c, p.active.contains c = true ↔ c ∈ path

theorem Below.write {p : Printer} (h : p.Below path) (text : List Char) :
    (p.write text).Below path := h

/-- A pair on the path is not entered. -/
theorem Below.enter_of_mem {p : Printer} (h : p.Below path) (hc : c ∈ path)
    (entered : List CellId) : p.enter c entered = (false, p, entered) :=
  if_pos ((h c).2 hc)

/-- A pair that is not on the path is entered, and put on the path. -/
theorem Below.exists_enter {p : Printer} (h : p.Below path) (hc : c ∉ path)
    (entered : List CellId) :
    ∃ p', p.enter c entered = (true, p', c :: entered) ∧ p'.Below (c :: path) ∧
      p'.written = p.written := by
  refine ⟨_, if_neg (mt (h c).1 hc), fun d => ?_, rfl⟩
  rw [CellSet.contains_insert, Bool.or_eq_true, decide_eq_true_eq, h d, List.mem_cons, eq_comm]

theorem contains_leave (p : Printer) (entered : List CellId) (c : CellId) :
    (p.leave entered).active.contains c = true ↔ c ∉ entered ∧ p.active.contains c = true := by
  induction entered generalizing p with
  | nil => simp [leave]
  | cons d entered ih =>
    have hstep : p.leave (d :: entered) = { p with active := p.active.erase d }.leave entered := rfl
    rw [hstep, ih, CellSet.contains_erase, Bool.and_eq_true, decide_eq_true_eq, List.mem_cons,
      not_or, ← and_assoc, and_comm (a := c ∉ entered), ne_comm]

/-- At the end of a list the pairs of its chain leave the path, and nothing else does. -/
theorem Below.leave {p : Printer} {entered : List CellId} (h : p.Below (entered ++ path))
    (hnew : ∀ c ∈ entered, c ∉ path) : (p.leave entered).Below path := by
  intro c
  rw [p.contains_leave, h c, List.mem_append]
  constructor
  · rintro ⟨hc, hmem⟩
    exact hmem.resolve_left hc
  · exact fun hc => ⟨fun hmem => hnew c hmem hc, .inr hc⟩

end Printer

/-- With enough fuel, and with the pairs of the path in progress, the value is written as `t`, and
the same pairs are in progress afterwards. -/
def PrintsTo (s : Store) (path : List CellId) (v : Value) (t : Unfolding) : Prop :=
  ∀ fuel p, p.Below path → 3 * t.height + 3 ≤ fuel →
    ∃ p', s.writeSexpr fuel v p = some p' ∧ p'.Below path ∧
      p'.written = (t.chars s).reverse ++ p.written

/-- With enough fuel, and with the pairs of the path in progress, what follows in a list is written
as `t`, but for the parenthesis at the end; the pairs of the chain are entered, and none of them
was in progress. -/
def PrintsRestTo (s : Store) (path : List CellId) (v : Value) (t : Unfolding) : Prop :=
  ∀ fuel p entered, p.Below path → 3 * t.height + 2 ≤ fuel →
    ∃ p' added, s.writeRest fuel v p entered = some (p', added ++ entered) ∧
      p'.Below (added ++ path) ∧ (∀ c ∈ added, c ∉ path) ∧
      ')' :: p'.written = (t.tailChars s).reverse ++ p.written

theorem printsTo_leaf (path : List CellId) (hv : ∀ c, v ≠ .pair c) :
    s.PrintsTo path v (.leaf v) := by
  intro fuel p hp hfuel
  obtain ⟨fuel, rfl⟩ : ∃ n, fuel = n + 1 := ⟨fuel - 1, by omega⟩
  have hwrite : s.writeSexpr (fuel + 1) v p = some (p.write (s.leafChars v)) := by
    cases v with
    | pair c => exact absurd rfl (hv c)
    | atom | nil | procedure | unspecified => rfl
  exact ⟨_, hwrite, hp.write _, p.written_write _⟩

theorem printsRestTo_leaf (path : List CellId) (hv : ∀ c, v ≠ .pair c) :
    s.PrintsRestTo path v (.leaf v) := by
  intro fuel p entered hp hfuel
  obtain ⟨fuel, rfl⟩ : ∃ n, fuel = n + 2 := ⟨fuel - 2, by omega⟩
  cases v with
  | pair c => exact absurd rfl (hv c)
  | nil => exact ⟨p, [], rfl, hp, nofun, rfl⟩
  | atom | procedure | unspecified =>
    exact ⟨_, [], rfl, (hp.write _).write _, nofun, by simp [Unfolding.tailChars]⟩

theorem printsTo_cycle (hc : c ∈ path) : s.PrintsTo path (.pair c) .cycle := by
  intro fuel p hp hfuel
  obtain ⟨fuel, rfl⟩ : ∃ n, fuel = n + 3 := ⟨fuel - 3, by omega⟩
  refine ⟨p.write cycleMark, ?_, hp.write _, p.written_write _⟩
  simp only [writeSexpr, writePair, writeList, hp.enter_of_mem hc]
  rfl

theorem printsRestTo_cycle (hc : c ∈ path) : s.PrintsRestTo path (.pair c) .cycle := by
  intro fuel p entered hp hfuel
  obtain ⟨fuel, rfl⟩ : ∃ n, fuel = n + 1 := ⟨fuel - 1, by omega⟩
  refine ⟨p.write (" . ".toList ++ cycleMark), [], ?_, hp.write _, nofun, ?_⟩
  · simp [writeRest, hp.enter_of_mem hc]
  · simp [Unfolding.tailChars]

/-- What is written for a pair that has been entered, after the character in front of it. -/
theorem exists_printed_halves {car cdr : Unfolding} {p : Printer} (fuel : Nat)
    (hcar : s.PrintsTo (c :: path) (s.cell c).car.value car)
    (hcdr : s.PrintsRestTo (c :: path) (s.cell c).cdr.value cdr) (hp : p.Below (c :: path))
    (hfuel : 3 * max car.height cdr.height + 3 ≤ fuel) (ch : Char) (entered : List CellId) :
    ∃ p₁ p₂ added, s.writeSexpr fuel (s.cell c).car.value (p.write [ch]) = some p₁ ∧
      s.writeRest fuel (s.cell c).cdr.value p₁ entered = some (p₂, added ++ entered) ∧
      p₂.Below (added ++ c :: path) ∧ (∀ d ∈ added, d ∉ c :: path) ∧
      ')' :: p₂.written = (ch :: (car.chars s ++ cdr.tailChars s)).reverse ++ p.written := by
  obtain ⟨p₁, hwrite, hp₁, htext⟩ := hcar fuel (p.write [ch]) (hp.write _) (by omega)
  obtain ⟨p₂, added, hwrite', hp₂, hnew, htext'⟩ := hcdr fuel p₁ entered hp₁ (by omega)
  exact ⟨p₁, p₂, added, hwrite, hwrite', hp₂, hnew, by simp [htext', htext]⟩

theorem printsTo_pair {car cdr : Unfolding} (hc : c ∉ path)
    (hcar : s.PrintsTo (c :: path) (s.cell c).car.value car)
    (hcdr : s.PrintsRestTo (c :: path) (s.cell c).cdr.value cdr) :
    s.PrintsTo path (.pair c) (.pair car cdr) := by
  intro fuel p hp hfuel
  rw [Unfolding.height] at hfuel
  obtain ⟨fuel, rfl⟩ : ∃ n, fuel = n + 3 := ⟨fuel - 3, by omega⟩
  obtain ⟨p₀, henter, hp₀, htext₀⟩ := hp.exists_enter hc []
  obtain ⟨p₁, p₂, added, hwrite, hwrite', hp₂, hnew, htext⟩ :=
    exists_printed_halves fuel hcar hcdr hp₀ (by omega) '(' [c]
  refine ⟨(p₂.write [')']).leave (added ++ [c]), ?_, ?_, ?_⟩
  · simp [writeSexpr, writePair, writeList, henter, hwrite, hwrite']
  · refine Printer.Below.leave ?_ ?_
    · simpa using hp₂.write [')']
    · intro d hd
      rcases List.mem_append.1 hd with hd | hd
      · exact fun hmem => hnew d hd (List.mem_cons_of_mem _ hmem)
      · exact List.mem_singleton.1 hd ▸ hc
  · exact htext.trans (by rw [Unfolding.chars, htext₀])

theorem printsRestTo_pair {car cdr : Unfolding} (hc : c ∉ path)
    (hcar : s.PrintsTo (c :: path) (s.cell c).car.value car)
    (hcdr : s.PrintsRestTo (c :: path) (s.cell c).cdr.value cdr) :
    s.PrintsRestTo path (.pair c) (.pair car cdr) := by
  intro fuel p entered hp hfuel
  rw [Unfolding.height] at hfuel
  obtain ⟨fuel, rfl⟩ : ∃ n, fuel = n + 1 := ⟨fuel - 1, by omega⟩
  obtain ⟨p₀, henter, hp₀, htext₀⟩ := hp.exists_enter hc entered
  obtain ⟨p₁, p₂, added, hwrite, hwrite', hp₂, hnew, htext⟩ :=
    exists_printed_halves fuel hcar hcdr hp₀ (by omega) ' ' (c :: entered)
  refine ⟨p₂, added ++ [c], ?_, by simpa using hp₂, ?_, ?_⟩
  · simp [writeRest, henter, hwrite, hwrite']
  · intro d hd
    rcases List.mem_append.1 hd with hd | hd
    · exact fun hmem => hnew d hd (List.mem_cons_of_mem _ hmem)
    · exact List.mem_singleton.1 hd ▸ hc
  · exact htext.trans (by rw [Unfolding.tailChars, htext₀])

/-- **The printer writes the unfolding** of a value below the cells of the path, and what it has in
progress is the path and nothing else: elements of a list that are written already are not in it. -/
theorem Unfolds.printsTo (h : s.Unfolds path v t) :
    s.PrintsTo path v t ∧ s.PrintsRestTo path v t := by
  induction h with
  | leaf hv => exact ⟨printsTo_leaf _ hv, printsRestTo_leaf _ hv⟩
  | cycle hc => exact ⟨printsTo_cycle hc, printsRestTo_cycle hc⟩
  | pair hc _ _ ihcar ihcdr =>
    exact ⟨printsTo_pair hc ihcar.1 ihcdr.2, printsRestTo_pair hc ihcar.1 ihcdr.2⟩

/-- **Printing ends**, with the text of the unfolding. -/
theorem Unfolds.print_eq (h : s.Unfolds [] v t) {fuel : Nat} (hfuel : s.printFuel ≤ fuel) :
    s.print fuel v = some (t.chars s) := by
  have hheight : 3 * t.height + 3 ≤ fuel := by
    obtain ⟨t', ht', hheight⟩ := s.exists_unfolds [] v
    have hfree := s.free_le []
    rw [h.unique ht']
    unfold printFuel at hfuel
    omega
  have hempty (c : CellId) : ({} : Printer).active.contains c = true ↔ c ∈ ([] : List CellId) := by
    simp
  obtain ⟨p, hwrite, -, htext⟩ := h.printsTo.1 fuel {} hempty hheight
  rw [print, hwrite]
  simp [htext]

theorem Unfolds.chars_eq (h : s.Unfolds [] v t) : s.chars v = t.chars s := by
  rw [chars, h.print_eq le_rfl, Option.getD_some]

theorem Unfolds.text_eq (h : s.Unfolds [] v t) : s.text v = String.ofList (t.chars s) := by
  rw [text, h.chars_eq]

/-! ## What a mark says -/

/-- A cycle below one half of a pair is below the pair. -/
theorem CycleBelow.of_half (half : Half) (h : s.CycleBelow ((s.cell c).half half).value) :
    s.CycleBelow (.pair c) := by
  obtain ⟨d, e, hd, hreach, hcycle⟩ := h
  exact ⟨c, e, rfl, .head ⟨half, hd⟩ hreach, hcycle⟩

/-- A cycle below a pair is below one of its halves, also when the pair is on it. -/
theorem CycleBelow.exists_half (h : s.CycleBelow (.pair c)) :
    ∃ half, s.CycleBelow ((s.cell c).half half).value := by
  obtain ⟨_, d, ⟨⟩, hreach, hcycle⟩ := h
  obtain ⟨e, ⟨half, he⟩, hrest⟩ : ∃ e, s.Links c e ∧ Relation.ReflTransGen s.Links e d := by
    rcases hreach.cases_head with rfl | hstep
    · exact Relation.TransGen.head'_iff.1 hcycle
    · exact hstep
  exact ⟨half, e, d, he, hrest, hcycle⟩

/-- A value that has a plain tree has no cycle below it. -/
theorem Tree.not_cycleBelow (h : s.Tree v t) : ¬ s.CycleBelow v := by
  induction h with
  | leaf hv =>
    rintro ⟨c, _, rfl, -⟩
    exact hv c rfl
  | pair _ _ ihcar ihcdr =>
    intro hcycle
    obtain ⟨half, hhalf⟩ := hcycle.exists_half
    cases half with
    | car => exact ihcar hhalf
    | cdr => exact ihcdr hhalf

/-- An unfolding without a mark is the plain tree. -/
theorem Unfolds.tree (h : s.Unfolds path v t) (ht : ¬ t.Marked) : s.Tree v t := by
  induction h with
  | leaf hv => exact .leaf hv
  | cycle => exact absurd trivial ht
  | pair _ _ _ ihcar ihcdr =>
    rw [Unfolding.Marked, not_or] at ht
    exact .pair (ihcar ht.1) (ihcdr ht.2)

/-- The cells of a path lead to the value that is below them. -/
def LeadTo (s : Store) (path : List CellId) (v : Value) : Prop :=
  ∀ c ∈ path, ∀ d, v = .pair d → Relation.TransGen s.Links c d

/-- A pair that is put on the path leads to its halves, and so does what led to the pair. -/
theorem LeadTo.half (h : s.LeadTo path (.pair c)) (half : Half) :
    s.LeadTo (c :: path) ((s.cell c).half half).value := by
  intro e he d hd
  have hstep : s.Links c d := ⟨half, hd⟩
  rcases List.mem_cons.1 he with rfl | he
  · exact .single hstep
  · exact (h e he c rfl).tail hstep

/-- **A mark** stands for a pair that leads to itself. -/
theorem Unfolds.cycleBelow (h : s.Unfolds path v t) (hpath : s.LeadTo path v) (ht : t.Marked) :
    s.CycleBelow v := by
  induction h with
  | leaf => exact ht.elim
  | cycle hc => exact ⟨_, _, rfl, .refl, hpath _ hc _ rfl⟩
  | pair _ _ _ ihcar ihcdr =>
    rcases ht with ht | ht
    · exact CycleBelow.of_half .car (ihcar (hpath.half .car) ht)
    · exact CycleBelow.of_half .cdr (ihcdr (hpath.half .cdr) ht)

/-- **What a mark says**: a cycle of pairs can be reached. -/
theorem Unfolds.marked_iff (h : s.Unfolds [] v t) : t.Marked ↔ s.CycleBelow v := by
  constructor
  · exact h.cycleBelow nofun
  · intro hcycle
    by_contra ht
    exact (h.tree ht).not_cycleBelow hcycle

end Store

/-- **Printing marks the cycles.** In every store, however its pairs are linked, a value has one
unfolding, with a mark exactly where a pair stands that is on the path from the value to that place.
The printer ends, and what it writes is the text of the unfolding. There is a mark if and only if a
cycle of pairs can be reached from the value. Without a cycle the unfolding is the plain tree,
whatever is shared. -/
theorem printing_marks_cycles (s : Store) (v : Value) :
    ∃ t : Unfolding, s.Unfolds [] v t ∧ (∀ t', s.Unfolds [] v t' → t' = t) ∧
      (∀ fuel, s.printFuel ≤ fuel → s.print fuel v = some (t.chars s)) ∧
      s.text v = String.ofList (t.chars s) ∧
      (t.Marked ↔ s.CycleBelow v) ∧ (¬ s.CycleBelow v → s.Tree v t) := by
  obtain ⟨t, ht, -⟩ := s.exists_unfolds [] v
  exact ⟨t, ht, fun t' ht' => ht'.unique ht, fun fuel hfuel => ht.print_eq hfuel, ht.text_eq,
    ht.marked_iff, fun hcycle => ht.tree (mt ht.marked_iff.1 hcycle)⟩

/-- A list of which every element is the same pair, and the tail is the list itself. -/
example :
    let list (i : Nat) : Node := ⟨.pair ⟨i⟩, default⟩
    let s : Store := { Store.empty with cells :=
      #[⟨.integer 7 default, ⟨.nil, default⟩⟩, ⟨list 0, list 2⟩, ⟨list 0, list 1⟩] }
    s.text (list 1).value = "((7) (7) . #<cycle>)" := by
  decide +kernel

end MiniScheme
