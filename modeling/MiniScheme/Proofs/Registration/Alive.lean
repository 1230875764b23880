import MiniScheme.Proofs.Holding
import MiniScheme.Proofs.Whole

/-!
# What is alive

An object is alive if somebody holds it: it exists and is not dropped. A program gets at objects by
what is held, and everything that it gets at in this way is alive. So it never gives a reference to
an object that has been dropped, and what has been dropped is not held again.

## Results

* `Alive.reference`, `alive_lookup`, `alive_elements`: what can be got at is alive.
* `alive_before`: what is alive after an operation is new or was alive before.
-/

namespace MiniScheme

namespace Store

variable {s t : Store} {roots roots' : List Ref} {o r r₀ : Ref}

/-- The object exists, and it is not dropped. -/
def Alive (s : Store) (roots : List Ref) (r : Ref) : Prop := s.Has r ∧ ¬s.Dropped roots r

theorem alive_of_mem (hr : s.Has r) (hmem : r ∈ roots) : s.Alive roots r := by
  refine ⟨hr, ?_⟩
  rintro ⟨hroot, -⟩
  exact hroot hmem

/-! ## What can be got at -/

/-- What an object that is alive refers to is alive. -/
theorem Alive.reference (h : s.Alive roots o) (hs : s.Whole) (hr : r ∈ s.references o) :
    s.Alive roots r := by
  refine ⟨hs.closed o h.1 r hr, ?_⟩
  rintro ⟨-, hall⟩
  exact h.2 (hall o h.1 hr)

theorem alive_half {c : CellId} (hs : s.Whole) (h : s.Alive roots (.cell c)) (half : Half)
    (hr : r ∈ ((s.cell c).half half).refs) : s.Alive roots r := by
  refine h.reference hs (List.mem_append.2 ?_)
  cases half with
  | car => exact .inl hr
  | cdr => exact .inr hr

/-- The elements of a list. -/
theorem alive_elements (hs : s.Whole) {fuel : Nat} {v : Value} {items : List Node}
    (hi : s.elementsWithin fuel v = some items) (h : ∀ r ∈ v.refs, s.Alive roots r) :
    ∀ r ∈ refsOf items, s.Alive roots r := by
  fun_induction elementsWithin s fuel v generalizing items with
  | case1 =>
    cases hi
    exact List.forall_mem_nil _
  | case2 fuel c ih =>
    obtain ⟨rest, hrest, rfl⟩ := Option.map_eq_some_iff.1 hi
    have hc : s.Alive roots (.cell c) := h _ List.mem_cons_self
    refine List.forall_mem_append.2 ⟨fun r hr => alive_half hs hc .car hr, ?_⟩
    exact ih hrest fun r hr => alive_half hs hc .cdr hr
  | case3 => cases hi

/-- The frames of a chain. -/
theorem alive_chain (hs : s.Whole) {f : FrameId} (h : s.Alive roots (.frame f)) :
    ∀ g ∈ s.chain f, s.Alive roots (.frame g) := by
  induction f using hs.forest.outward_induction with
  | global f ho =>
    rw [chain_of_global ho]
    exact List.forall_mem_singleton.2 h
  | inner f o ho hlt ih =>
    rw [chain_of_outer ho hlt]
    refine List.forall_mem_cons.2 ⟨h, ih (h.reference hs ?_)⟩
    rw [references, ho]
    exact List.mem_cons_self

/-- The value of a name. -/
theorem alive_lookup (hs : s.Whole) {f : FrameId} {name : String} {v : Node}
    (hv : s.lookup? f name = some v) (h : s.Alive roots (.frame f)) :
    ∀ r ∈ v.refs, s.Alive roots r := by
  obtain ⟨g, hg, hv⟩ := List.exists_of_findSome?_eq_some hv
  intro r hr
  refine (alive_chain hs h g hg).reference hs (List.mem_append_right _ ?_)
  exact List.mem_flatMap.2 ⟨(name, v), Table.mem_entries_of_get? hv, hr⟩

/-! ## What was alive before -/

/-- **What is dropped stays dropped**, as long as new references lead to what is alive. -/
theorem alive_before (hroots : ∀ q ∈ roots', s.Has q → s.Alive roots q)
    (hrefs : ∀ o q, t.Has o → q ∈ t.references o → s.Has q →
      (s.Has o ∧ q ∈ s.references o) ∨ s.Alive roots q)
    (h : t.Alive roots' r) (hr : s.Has r) : s.Alive roots r := by
  refine ⟨hr, fun hdropped => h.2 ?_⟩
  clear h
  induction hdropped with
  | @intro r hroot hall ih =>
    have hdead : ¬s.Alive roots r := fun halive => halive.2 (.intro hroot hall)
    refine .intro (fun hmem => hdead (hroots r hmem hr)) fun o ho hro => ?_
    rcases hrefs o r ho hro hr with ⟨hold, hro⟩ | halive
    · exact ih o hold hro hold
    · exact absurd halive hdead

/-- The same store, with roots that are alive. -/
theorem Alive.of_roots (h : s.Alive roots' r) (hroots : ∀ q ∈ roots', s.Alive roots q) :
    s.Alive roots r :=
  alive_before (fun q hq _ => hroots q hq) (fun _ _ ho hq _ => .inl ⟨ho, hq⟩) h h.1

/-- One more object, which is held and refers to what is alive. -/
theorem Adds.alive (ha : s.Adds t r₀) (hrefs : ∀ q ∈ t.references r₀, s.Alive roots q)
    (hroots : ∀ q ∈ roots', s.Alive roots q) (h : t.Alive (r₀ :: roots') r) (hr : s.Has r) :
    s.Alive roots r := by
  refine alive_before (List.forall_mem_cons.2 ⟨fun hold => absurd hold ha.new, fun q hq _ =>
    hroots q hq⟩) (fun o q ho hq _ => ?_) h hr
  rcases (ha.has o).1 ho with hold | rfl
  · rw [(ha.same o hold).references] at hq
    exact .inl ⟨hold, hq⟩
  · exact .inr (hrefs q hq)

/-- One object with other content, which refers to what it did and to what is alive. -/
theorem Changes.alive (hc : s.Changes t r₀)
    (hrefs : ∀ q ∈ t.references r₀, q ∈ s.references r₀ ∨ s.Alive roots q)
    (h : t.Alive roots r) : s.Alive roots r := by
  refine alive_before (fun q hq hhas => alive_of_mem hhas hq) (fun o q ho hq _ => ?_) h
    ((hc.has r).1 h.1)
  by_cases heq : o = r₀
  · subst heq
    exact (hrefs q hq).imp_left fun hold => ⟨(hc.has o).1 ho, hold⟩
  · rw [(hc.same o heq).references] at hq
    exact .inl ⟨(hc.has o).1 ho, hq⟩

/-- Emptying a frame gives no references. -/
theorem alive_clear {f : FrameId} (h : (s.clear f).Alive roots r) : s.Alive roots r :=
  (Whole.changes_clear s f).alive (fun _ hq => .inl (Whole.references_clear hq)) h

end Store

end MiniScheme
