import MiniScheme.Store.Lists
import MiniScheme.Store.Registration

/-!
# What an operation leaves alone

Each operation on the store works on one of its arrays. The lemmas here say so for the other two,
and how many objects there are afterwards; what happens in the array itself is said beside the
operations.
-/

namespace MiniScheme

theorem Table.mem_entries_of_get? {α : Type} {t : Table α} {name : String} {a : α}
    (h : t.get? name = some a) : (name, a) ∈ t.entries := by
  obtain ⟨before, after, heq, -⟩ := List.lookup_eq_some_iff.1 h
  rw [heq]
  exact List.mem_append_right _ List.mem_cons_self

/-- What a table has after several insertions was inserted or there before. -/
theorem Table.mem_of_get?_insertAll {α : Type} {entries : List (String × α)} {t : Table α}
    {name : String} {a : α} (h : (t.insertAll entries).get? name = some a) :
    (name, a) ∈ entries ∨ t.get? name = some a := by
  induction entries generalizing t with
  | nil => exact .inr h
  | cons e entries ih =>
    rcases ih h with hmem | hget
    · exact .inl (List.mem_cons_of_mem e hmem)
    · rw [get?_insert] at hget
      split at hget
      · rename_i hname
        cases hget
        exact .inl (hname ▸ List.mem_cons_self)
      · exact .inr hget

namespace Store

variable (s : Store)

/-! ## New objects -/

@[simp] theorem index_newCell (car cdr : Node) : (s.newCell car cdr).1.index = s.cells.size := rfl

@[simp] theorem size_cells_newCell (car cdr : Node) :
    (s.newCell car cdr).2.cells.size = s.cells.size + 1 := Array.size_push _

@[simp] theorem frames_newCell (car cdr : Node) : (s.newCell car cdr).2.frames = s.frames := rfl

@[simp] theorem closures_newCell (car cdr : Node) :
    (s.newCell car cdr).2.closures = s.closures := rfl

@[simp] theorem cells_newFrame (o : Option FrameId) (b : Bindings) :
    (s.newFrame o b).2.cells = s.cells := rfl

@[simp] theorem closures_newFrame (o : Option FrameId) (b : Bindings) :
    (s.newFrame o b).2.closures = s.closures := rfl

@[simp] theorem size_frames_newFrame (o : Option FrameId) (b : Bindings) :
    (s.newFrame o b).2.frames.size = s.frames.size + 1 := Array.size_push _

/-- What a frame beneath another one starts with. -/
theorem frame_enclose (held : List Ref) (f g : FrameId) (entries : List (String × Node)) :
    (s.enclose held f entries).2.frame g =
      if g = (s.enclose held f entries).1 then ⟨some f, Table.empty.insertAll entries⟩
      else s.frame g :=
  s.frame_newFrame (some f) (Table.empty.insertAll entries) g

@[simp] theorem cells_newClosure (k : Closure) : (s.newClosure k).2.cells = s.cells := rfl

@[simp] theorem frames_newClosure (k : Closure) : (s.newClosure k).2.frames = s.frames := rfl

@[simp] theorem size_closures_newClosure (k : Closure) :
    (s.newClosure k).2.closures.size = s.closures.size + 1 := Array.size_push _

/-! ## Changes -/

@[simp] theorem size_cells_setHalf (c : CellId) (h : Half) (n : Node) :
    (s.setHalf c h n).cells.size = s.cells.size := Array.size_modify

@[simp] theorem frames_setHalf (c : CellId) (h : Half) (n : Node) :
    (s.setHalf c h n).frames = s.frames := rfl

@[simp] theorem closures_setHalf (c : CellId) (h : Half) (n : Node) :
    (s.setHalf c h n).closures = s.closures := rfl

@[simp] theorem cells_bind (f : FrameId) (name : String) (n : Node) :
    (s.bind f name n).cells = s.cells := rfl

@[simp] theorem closures_bind (f : FrameId) (name : String) (n : Node) :
    (s.bind f name n).closures = s.closures := rfl

@[simp] theorem size_frames_bind (f : FrameId) (name : String) (n : Node) :
    (s.bind f name n).frames.size = s.frames.size := Array.size_modify

theorem frame_bind (f g : FrameId) (name : String) (n : Node) :
    (s.bind f name n).frame g =
      if f = g ∧ f.index < s.frames.size then
        { s.frame g with bindings := (s.frame g).bindings.insert name n }
      else s.frame g :=
  s.frame_modifyBindings f g fun b => b.insert name n

theorem frame_clear (f g : FrameId) :
    (s.clear f).frame g =
      if f = g ∧ f.index < s.frames.size then { s.frame g with bindings := .empty }
      else s.frame g :=
  s.frame_modifyBindings f g fun _ => .empty

@[simp] theorem cells_nameClosure (k : ClosureId) (name : String) :
    (s.nameClosure k name).cells = s.cells := rfl

@[simp] theorem frames_nameClosure (k : ClosureId) (name : String) :
    (s.nameClosure k name).frames = s.frames := rfl

@[simp] theorem size_closures_nameClosure (k : ClosureId) (name : String) :
    (s.nameClosure k name).closures.size = s.closures.size := Array.size_modify

/-! ## Release -/

variable {s} in
/-- What does not depend on the registries and stays when a frame is emptied is there after a
release. -/
theorem release_induction {P : Store → Prop}
    (hregistries : ∀ {t}, P t → ∀ r, P { t with registries := r })
    (hclear : ∀ {t}, P t → ∀ f, P (t.clear f)) (hs : P s) (roots : List Ref) (f : FrameId) :
    P (s.release roots f) := by
  have hfold (below : List FrameId) {t : Store} (ht : P t) :
      P (below.foldl (fun t g => t.releaseFrame roots g) t) := by
    induction below generalizing t with
    | nil => exact ht
    | cons g below ih =>
      refine ih (t := t.releaseFrame roots g) ?_
      unfold releaseFrame
      split
      · exact ht
      · exact hclear ht g
  rw [release, ← Array.foldl_toList]
  exact hfold _ (hclear (hregistries hs _) f)

/-! ## Where a node can come from -/

variable {s} in
/-- A value of a frame is the one that was bound, or it was there before. -/
theorem of_get?_bind {f g : FrameId} {name name' : String} {n v : Node}
    (h : ((s.bind f name n).frame g).bindings.get? name' = some v) :
    v = n ∨ (s.frame g).bindings.get? name' = some v := by
  rw [frame_bind] at h
  split at h
  · rw [Table.get?_insert] at h
    split at h
    · cases h
      exact .inl rfl
    · exact .inr h
  · exact .inr h

variable {s} in
/-- A value of a frame is one of the new frame, or it was there before. -/
theorem of_get?_newFrame {o : Option FrameId} {entries : List (String × Node)} {f : FrameId}
    {name : String} {v : Node}
    (h : ((s.newFrame o (Table.empty.insertAll entries)).2.frame f).bindings.get? name = some v) :
    (name, v) ∈ entries ∨ (s.frame f).bindings.get? name = some v := by
  rw [frame_newFrame] at h
  split at h
  · rcases Table.mem_of_get?_insertAll h with hmem | hnone
    · exact .inl hmem
    · cases hnone
  · exact .inr h

theorem half_newCell (car cdr : Node) (c : CellId) (half : Half) :
    ((s.newCell car cdr).2.cell c).half half = car ∨
      ((s.newCell car cdr).2.cell c).half half = cdr ∨
      ((s.newCell car cdr).2.cell c).half half = (s.cell c).half half := by
  rw [cell_newCell]
  split
  · cases half with
    | car => exact .inl rfl
    | cdr => exact .inr (.inl rfl)
  · exact .inr (.inr rfl)

theorem half_setHalf (c d : CellId) (half half' : Half) (n : Node) :
    ((s.setHalf c half n).cell d).half half' = n ∨
      ((s.setHalf c half n).cell d).half half' = (s.cell d).half half' := by
  rw [cell_setHalf]
  split
  · rw [Cell.half_setHalf]
    split
    · exact .inl rfl
    · exact .inr rfl
  · exact .inr rfl

/-! ## Lists and data -/

/-- The store has only got more cells: the earlier ones and everything else is as it was. -/
structure Grows (s t : Store) : Prop where
  frames : t.frames = s.frames
  closures : t.closures = s.closures
  size : s.cells.size ≤ t.cells.size
  cell : ∀ c : CellId, c.index < s.cells.size → t.cell c = s.cell c

theorem Grows.refl : Grows s s := ⟨rfl, rfl, Nat.le_refl _, fun _ _ => rfl⟩

variable {s}

theorem Grows.trans {t u : Store} (h : Grows s t) (h' : Grows t u) : Grows s u where
  frames := h'.frames.trans h.frames
  closures := h'.closures.trans h.closures
  size := Nat.le_trans h.size h'.size
  cell c hc := (h'.cell c (Nat.lt_of_lt_of_le hc h.size)).trans (h.cell c hc)

variable (s)

theorem grows_newCell (car cdr : Node) : Grows s (s.newCell car cdr).2 where
  frames := rfl
  closures := rfl
  size := by simp
  cell c hc := by
    rw [cell_newCell, if_neg]
    rintro rfl
    simp at hc

theorem grows_newTail (stop : Nat) (items : List Node) : Grows s (s.newTail stop items).2 := by
  induction items with
  | nil => exact .refl s
  | cons item items ih => exact ih.trans (grows_newCell _ _ _)

@[simp] theorem size_cells_newTail (stop : Nat) (items : List Node) :
    (s.newTail stop items).2.cells.size = s.cells.size + items.length := by
  induction items with
  | nil => rfl
  | cons item items ih => simp [newTail, ih, Nat.add_assoc]

/-- The cell in front of an item is made after the cells of the items behind it. -/
theorem newTail_cons (stop : Nat) (item : Node) (items : List Node) :
    (s.newTail stop (item :: items)).1.value = .pair ⟨s.cells.size + items.length⟩ ∧
      (s.newTail stop (item :: items)).2.cell ⟨s.cells.size + items.length⟩ =
        ⟨item, (s.newTail stop items).1⟩ := by
  have hc : ((s.newTail stop items).2.newCell item (s.newTail stop items).1).1 =
      ⟨s.cells.size + items.length⟩ := by
    rw [← s.size_cells_newTail stop items]
    rfl
  refine ⟨congrArg Value.pair hc, ?_⟩
  change ((s.newTail stop items).2.newCell item (s.newTail stop items).1).2.cell _ = _
  rw [cell_newCell, if_pos hc.symm]

mutual

theorem grows_load : ∀ (s : Store) (d : Datum), Grows s (s.load d).2
  | s, .atom _ _ => .refl s
  | s, .list items _ => (grows_loadAll s items).trans (grows_newTail _ _ _)

theorem grows_loadAll : ∀ (s : Store) (ds : List Datum), Grows s (s.loadAll ds).2
  | s, [] => .refl s
  | s, d :: ds => (grows_load s d).trans (grows_loadAll _ ds)

end

theorem length_loadAll (ds : List Datum) : (s.loadAll ds).1.length = ds.length := by
  induction ds generalizing s with
  | nil => rfl
  | cons d ds ih => simp [loadAll, ih]

end Store

end MiniScheme
