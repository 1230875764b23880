import MiniScheme.Proofs.Lists
import MiniScheme.Proofs.Simulation
import MiniScheme.Proofs.Updates

/-!
# Which cells are code

A text is read into pairs, and evaluation hands some of them out as data: those inside a quoted
datum. The others are code. Which is which follows from the text alone, because every special
form fixes the role in which it reads each of its operands (`Role.item`).

* `Datum.marks` says for each cell that a datum is built of whether it is code.
* A `Layout` records for cells of a store that they are data, or that they are code and what the
  reader put in them. It can only grow.
* `Layout.Reads` says that a node can be read in a role: following its structure one meets cells
  of code, and from quoted places on cells of data.

## Results

* `Layout.reads_load`: the node that the reader builds can be read as an expression.
-/

namespace MiniScheme

namespace Datum

/-- The form that a list of data names with its first item. -/
def headForm : List Datum → Option Form
  | .atom a _ :: _ => (Value.atom a).symbol?.bind Form.ofKeyword?
  | _ => none

mutual

/-- For the cells of a datum that is read in a role, in the order in which they are built, whether
they are code. -/
def marks (r : Role) : Datum → List Bool
  | atom _ _ => []
  | list items _ =>
    marksAll (r.item (headForm items)) items ++ List.replicate items.length (r != .datum)

/-- The same for several data, each in the role that `roles` gives to its index. -/
def marksAll (roles : Nat → Role) : List Datum → List Bool
  | [] => []
  | d :: ds => d.marks (roles 0) ++ marksAll (fun i => roles (i + 1)) ds

end

end Datum

/-- What a cell is used for: as code, with the content that the reader gave it, or as data. -/
inductive Mark where
  | code (content : Cell)
  | data

/-- What is known of the use of cells. -/
structure Layout where
  mark : CellId → Option Mark

namespace Layout

instance : Preorder Layout where
  le L L' := ∀ c k, L.mark c = some k → L'.mark c = some k
  le_refl _ _ _ h := h
  le_trans _ _ _ h h' c k hk := h' c k (h c k hk)

/-- The value is no pair of which something else than its use as data is known. -/
def Data (L : Layout) (v : Value) : Prop := ∀ c, v = .pair c → L.mark c = some .data

/-- The value is a proper list of cells of code. -/
inductive Chain (L : Layout) : Value → List Node → Prop
  | nil : Chain L .nil []
  | pair {c : CellId} {k : Cell} {items : List Node} (hc : L.mark c = some (.code k))
      (tail : Chain L k.cdr.value items) : Chain L (.pair c) (k.car :: items)

/-- The node can be read in the role. -/
inductive Reads (L : Layout) : Role → Node → Prop
  | leaf {r : Role} {n : Node} (h : ∀ c, n.value ≠ .pair c) : Reads L r n
  | datum {n : Node} (h : L.Data n.value) : Reads L .datum n
  | list {r : Role} {n : Node} {items : List Node} (hr : r ≠ .datum) (hc : L.Chain n.value items)
      (hi : ∀ i x, items[i]? = some x → Reads L (r.item (headForm items) i) x) : Reads L r n

variable {L L' : Layout}

theorem Data.mono (h : L ≤ L') {v : Value} (hv : L.Data v) : L'.Data v :=
  fun c hc => h c .data (hv c hc)

theorem data_of_leaf {v : Value} (h : ∀ c, v ≠ .pair c) : L.Data v := fun c hc => absurd hc (h c)

theorem Chain.mono (h : L ≤ L') {v : Value} {items : List Node} (hc : L.Chain v items) :
    L'.Chain v items := by
  induction hc with
  | nil => exact .nil
  | pair hc _ ih => exact .pair (h _ _ hc) ih

theorem Reads.mono (h : L ≤ L') {r : Role} {n : Node} (hn : L.Reads r n) : L'.Reads r n := by
  induction hn with
  | leaf hl => exact .leaf hl
  | datum hd => exact .datum (hd.mono h)
  | list hr hc _ ih => exact .list hr (hc.mono h) ih

theorem Reads.data {n : Node} (h : L.Reads .datum n) : L.Data n.value := by
  cases h with
  | leaf hl => exact data_of_leaf hl
  | datum hd => exact hd
  | list hr => exact absurd rfl hr

/-- A pair that is read as code is a list of cells of code. -/
theorem Reads.items {r : Role} {n : Node} {c : CellId} (h : L.Reads r n) (hr : r ≠ .datum)
    (hn : n.value = .pair c) :
    ∃ items, L.Chain n.value items ∧
      ∀ i x, items[i]? = some x → L.Reads (r.item (headForm items) i) x := by
  cases h with
  | leaf hl => exact absurd hn (hl c)
  | datum _ => exact absurd rfl hr
  | list _ hc hi => exact ⟨_, hc, hi⟩

/-! ## What the reader builds -/

/-- The cells from index `start` on have the marks `bs`, with their content in `t` as code. -/
def Marked (L : Layout) (t : Store) (start : Nat) (bs : List Bool) : Prop :=
  ∀ i b, bs[i]? = some b →
    L.mark ⟨start + i⟩ = some (if b then .code (t.cell ⟨start + i⟩) else .data)

/-- The cells of data among them hold nothing but data. -/
def Sealed (L : Layout) (t : Store) (start : Nat) (bs : List Bool) : Prop :=
  ∀ i, bs[i]? = some false →
    L.Data (t.cell ⟨start + i⟩).car.value ∧ L.Data (t.cell ⟨start + i⟩).cdr.value

variable {t : Store} {start : Nat} {bs cs : List Bool}

theorem marked_append :
    L.Marked t start (bs ++ cs) ↔ L.Marked t start bs ∧ L.Marked t (start + bs.length) cs := by
  constructor
  · intro h
    refine ⟨fun i b hb => h i b ?_, fun i b hb => ?_⟩
    · rw [List.getElem?_append_left (List.getElem?_eq_some_iff.1 hb).1, hb]
    · rw [Nat.add_assoc]
      exact h _ b (by rw [List.getElem?_append_right (Nat.le_add_right _ _),
        Nat.add_sub_cancel_left, hb])
  · rintro ⟨h, h'⟩ i b hb
    by_cases hi : i < bs.length
    · rw [List.getElem?_append_left hi] at hb
      exact h i b hb
    · rw [List.getElem?_append_right (by omega)] at hb
      have := h' _ b hb
      rwa [Nat.add_assoc, Nat.add_sub_cancel' (by omega)] at this

theorem sealed_append (h : L.Sealed t start bs) (h' : L.Sealed t (start + bs.length) cs) :
    L.Sealed t start (bs ++ cs) := by
  intro i hb
  by_cases hi : i < bs.length
  · rw [List.getElem?_append_left hi] at hb
    exact h i hb
  · rw [List.getElem?_append_right (by omega)] at hb
    have := h' _ hb
    rwa [Nat.add_assoc, Nat.add_sub_cancel' (by omega)] at this

theorem marked_replicate_succ {b : Bool} {n : Nat}
    (h : L.Marked t start (List.replicate (n + 1) b)) :
    L.Marked t start (List.replicate n b) ∧
      L.mark ⟨start + n⟩ = some (if b then .code (t.cell ⟨start + n⟩) else .data) := by
  rw [List.replicate_succ', marked_append] at h
  obtain ⟨h, hlast⟩ := h
  have := hlast 0 b rfl
  rw [List.length_replicate] at this
  exact ⟨h, this⟩

theorem chain_newTail {s : Store} {stop : Nat} {items : List Node}
    (ht : Store.Grows (s.newTail stop items).2 t)
    (hm : L.Marked t s.cells.size (List.replicate items.length true)) :
    L.Chain (s.newTail stop items).1.value items := by
  induction items with
  | nil => exact .nil
  | cons item items ih =>
    obtain ⟨hm, hlast⟩ := marked_replicate_succ hm
    obtain ⟨hvalue, hcell⟩ := s.newTail_cons stop item items
    rw [ht.cell _ (by simp), hcell] at hlast
    rw [hvalue]
    exact .pair hlast (ih ((Store.grows_newCell _ _ _).trans ht) hm)

theorem data_newTail {s : Store} {stop : Nat} {items : List Node}
    (hm : L.Marked t s.cells.size (List.replicate items.length false)) :
    L.Data (s.newTail stop items).1.value := by
  cases items with
  | nil => exact data_of_leaf nofun
  | cons item items =>
    obtain ⟨-, hlast⟩ := marked_replicate_succ hm
    rw [(s.newTail_cons stop item items).1]
    rintro _ ⟨⟩
    exact hlast

theorem sealed_newTail {s : Store} {stop : Nat} {items : List Node}
    (ht : Store.Grows (s.newTail stop items).2 t)
    (hm : L.Marked t s.cells.size (List.replicate items.length false))
    (hi : ∀ x ∈ items, L.Data x.value) :
    L.Sealed t s.cells.size (List.replicate items.length false) := by
  induction items with
  | nil => exact fun i h => absurd h (by simp)
  | cons item items ih =>
    have hlow := (marked_replicate_succ hm).1
    have hcell := (s.newTail_cons stop item items).2
    rw [List.length_cons, List.replicate_succ']
    refine sealed_append (ih ((Store.grows_newCell _ _ _).trans ht) hlow
      fun x hx => hi x (List.mem_cons_of_mem _ hx)) fun i h => ?_
    obtain rfl : i = 0 := by
      have := (List.getElem?_eq_some_iff.1 h).1
      simpa using this
    rw [List.length_replicate, Nat.add_zero, ht.cell _ (by simp), hcell]
    exact ⟨hi item List.mem_cons_self, data_newTail hlow⟩

/-- The first item of a loaded list names the form that the datum names. -/
theorem headForm_loadAll (s : Store) (ds : List Datum) :
    headForm (s.loadAll ds).1 = Datum.headForm ds := by
  match ds with
  | [] => rfl
  | .atom a span :: ds => rfl
  | .list items span :: ds =>
    change Likeness.formOf (s.load (.list items span)).1 = none
    change (Value.symbol? ((s.loadAll items).2.newTail span.stop (s.loadAll items).1).1.value).bind
      Form.ofKeyword? = none
    cases (s.loadAll items).1 with
    | nil => rfl
    | cons item nodes =>
      rw [(Store.newTail_cons _ _ item nodes).1]
      rfl

mutual

theorem size_cells_load : ∀ (s : Store) (r : Role) (d : Datum),
    (s.load d).2.cells.size = s.cells.size + (d.marks r).length
  | s, r, .atom _ _ => rfl
  | s, r, .list items span => by
    change ((s.loadAll items).2.newTail span.stop (s.loadAll items).1).2.cells.size = _
    rw [Store.size_cells_newTail, size_cells_loadAll s (r.item (Datum.headForm items)) items,
      Store.length_loadAll, Datum.marks, List.length_append, List.length_replicate, Nat.add_assoc]

theorem size_cells_loadAll : ∀ (s : Store) (roles : Nat → Role) (ds : List Datum),
    (s.loadAll ds).2.cells.size = s.cells.size + (Datum.marksAll roles ds).length
  | s, roles, [] => rfl
  | s, roles, d :: ds => by
    change ((s.load d).2.loadAll ds).2.cells.size = _
    rw [size_cells_loadAll _ (fun i => roles (i + 1)) ds, size_cells_load s (roles 0) d,
      Datum.marksAll, List.length_append, Nat.add_assoc]

end

mutual

/-- **What the reader builds can be read.** A layout that has the marks of a datum lets the node
of the datum be read, and its cells of data hold nothing but data. -/
theorem reads_load : ∀ (s : Store) (r : Role) (d : Datum), Store.Grows (s.load d).2 t →
    L.Marked t s.cells.size (d.marks r) →
    L.Reads r (s.load d).1 ∧ L.Sealed t s.cells.size (d.marks r)
  | s, r, .atom a span, _, _ => ⟨.leaf nofun, fun i h => by simp [Datum.marks] at h⟩
  | s, r, .list items span, ht, hm => by
    rw [Datum.marks, marked_append] at hm
    obtain ⟨hitems, htail⟩ := hm
    rw [← size_cells_loadAll] at htail
    obtain ⟨hreads, hsealed⟩ := reads_loadAll s _ items
      ((Store.grows_newTail _ _ _).trans ht) hitems
    rw [← Store.length_loadAll s items] at htail
    rw [Datum.marks, ← Store.length_loadAll s items]
    by_cases hr : r = .datum
    · subst hr
      have hdata : ∀ x ∈ (s.loadAll items).1, L.Data x.value := by
        intro x hx
        obtain ⟨i, hi⟩ := List.mem_iff_getElem?.1 hx
        have := hreads i x hi
        rw [Role.item_datum] at this
        exact this.data
      refine ⟨.datum (data_newTail htail), sealed_append hsealed ?_⟩
      rw [← size_cells_loadAll]
      exact sealed_newTail ht htail hdata
    · have hb : (r != .datum) = true := bne_iff_ne.2 hr
      rw [hb] at htail ⊢
      refine ⟨.list hr (chain_newTail ht htail) fun i x hx => ?_, sealed_append hsealed ?_⟩
      · rw [headForm_loadAll]
        exact hreads i x hx
      · intro i h
        rw [List.getElem?_replicate] at h
        split at h <;> simp at h

theorem reads_loadAll : ∀ (s : Store) (roles : Nat → Role) (ds : List Datum),
    Store.Grows (s.loadAll ds).2 t → L.Marked t s.cells.size (Datum.marksAll roles ds) →
    (∀ i x, (s.loadAll ds).1[i]? = some x → L.Reads (roles i) x) ∧
      L.Sealed t s.cells.size (Datum.marksAll roles ds)
  | s, roles, [], _, _ => by
    refine ⟨fun i x h => ?_, fun i h => ?_⟩
    · simp [Store.loadAll] at h
    · simp [Datum.marksAll] at h
  | s, roles, d :: ds, ht, hm => by
    rw [Datum.marksAll, marked_append] at hm
    obtain ⟨hd, hds⟩ := hm
    obtain ⟨hreads, hsealed⟩ := reads_load s (roles 0) d ((Store.grows_loadAll _ ds).trans ht) hd
    rw [← size_cells_load] at hds
    obtain ⟨hall, hrest⟩ := reads_loadAll (s.load d).2 (fun i => roles (i + 1)) ds ht hds
    rw [size_cells_load s (roles 0)] at hrest
    refine ⟨fun i x h => ?_, sealed_append hsealed hrest⟩
    cases i with
    | zero =>
      cases h
      exact hreads
    | succ i => exact hall i x h

end

end Layout

end MiniScheme
