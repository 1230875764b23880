import MiniScheme.Proofs.Operations
import MiniScheme.Proofs.Primitives
import MiniScheme.Proofs.Whole

/-!
# What an application touches

A primitive decides by its arguments alone whether it fails, and a closure counts them before it
makes a frame. So an application that fails at once has not touched the store. One of a primitive
that succeeds adds cells at most; the exception are the two primitives that replace half of a pair,
and they replace that half and nothing else (`Store.Replaces`). A pair is its cell, so whoever
refers to the cell sees the new half.

## Results

* `Primitive.Change.grows`: a primitive that replaces nothing.
* `Primitive.exists_of_call_setHalf`, `Store.replaces_setHalf`: one that does.
* `applications_touch_what_they_name`: both, and the applications that fail.
-/

namespace MiniScheme

/-- Of everything that there was only one half of one pair is another, and it is this node. -/
structure Store.Replaces (s t : Store) (c : CellId) (half : Half) (node : Node) : Prop where
  has : s.Has (.cell c)
  frames : t.frames = s.frames
  closures : t.closures = s.closures
  size : t.cells.size = s.cells.size
  half : ∀ d k, (t.cell d).half k = if d = c ∧ k = half then node else (s.cell d).half k

theorem Store.replaces_setHalf {s : Store} {c : CellId} (h : s.Has (.cell c)) (half : Half)
    (node : Node) : s.Replaces (s.setHalf c half node) c half node where
  has := h
  frames := s.frames_setHalf c half node
  closures := s.closures_setHalf c half node
  size := s.size_cells_setHalf c half node
  half d k := by
    have hlt : c.index < s.cells.size := h
    rw [cell_setHalf]
    by_cases hd : c = d
    · subst hd
      simp [hlt, Cell.half_setHalf]
    · simp [hd, Ne.symm hd]

namespace Primitive

variable {V : Node → Prop} {span : Span} {p : Primitive} {args : List Node}
  {change : Store → Node × Store}

/-- A primitive that replaces no half of a pair adds cells at most. -/
theorem Change.grows (h : Change V span p change) (hp : ∀ half, p ≠ .setHalf half) (s : Store) :
    s.Grows (change s).2 := by
  cases h with
  | integer | boolean | half => exact .refl s
  | list => exact s.grows_newTail _ _
  | cons => exact s.grows_newCell _ _
  | setHalf half _ _ _ heq => exact absurd heq (hp half)

theorem exists_change (h : p.call args span = .ok change) :
    Change (fun _ => True) span p change := by
  have hends : (∃ change, p.call args span = .ok change ∧ Change (fun _ => True) span p change) ∨
      ∃ e, p.call args span = .error e ∧ True :=
    call_change (by simp) (by simp) (by simp) (by simp)
  obtain ⟨change', hcall, hchange⟩ | ⟨e, hcall, -⟩ := hends
  · cases hcall.symm.trans h
    exact hchange
  · cases hcall.symm.trans h

theorem expectPair_eq_ok_iff {a : Node} {c : CellId} :
    p.expectPair a = .ok c ↔ a.value = .pair c := by
  unfold expectPair
  cases a.value <;> simp

/-- A replacement takes a pair and the node that is to be its half. -/
theorem exists_of_call_setHalf {half : Half} (h : (setHalf half).call args span = .ok change) :
    ∃ a b c, args = [a, b] ∧ a.value = .pair c ∧
      change = fun s => (.unspecified span, s.setHalf c half b) := by
  match args, h with
  | [a, b], h =>
    simp only [call] at h
    cases hc : (setHalf half).expectPair a with
    | error e => simp [hc, bind, Except.bind] at h
    | ok c =>
      rw [hc] at h
      cases h
      exact ⟨a, b, c, rfl, expectPair_eq_ok_iff.1 hc, rfl⟩
  | [], h | [_], h | _ :: _ :: _ :: _, h => cases h

end Primitive

/-! ## Applications -/

variable {ev : Evaluator} {held : List Ref} {p : Primitive} {args : List Node} {span : Span}
  {m m' : Machine}

theorem apply_error {e : EvalError} (h : apply ev held (.primitive p) args span m = .error e m') :
    m' = m := by
  rw [apply, applyPrimitive_run] at h
  cases hcall : p.call args span with
  | ok change => simp [hcall] at h
  | error e' =>
    simp only [hcall, EStateM.Result.error.injEq] at h
    exact h.2.symm

theorem exists_of_apply_ok {r : Node} (h : apply ev held (.primitive p) args span m = .ok r m') :
    ∃ change, p.call args span = .ok change ∧ m'.store = (change m.store).2 := by
  rw [apply, applyPrimitive_run] at h
  cases hcall : p.call args span with
  | error e => simp [hcall] at h
  | ok change =>
    simp only [hcall, EStateM.Result.ok.injEq] at h
    exact ⟨change, rfl, by rw [← h.2]⟩

/-- A half of a pair, as whoever refers to the pair sees it. -/
theorem apply_half {node : Node} {c : CellId} (hnode : node.value = .pair c) (half : Half)
    (ev : Evaluator) (held : List Ref) (span : Span) (m : Machine) :
    apply ev held (.primitive (.half half)) [node] span m =
      .ok ((m.store.cell c).half half) m := by
  rw [apply, applyPrimitive_run]
  simp [Primitive.call, Primitive.expectPair_eq_ok_iff.2 hnode, bind, Except.bind, pure,
    Except.pure]

theorem apply_closure_error (ev : Evaluator) (held : List Ref) (span : Span) {k : ClosureId}
    (hcount : (m.store.closure k).params.length ≠ args.length) :
    ∃ log, apply ev held (.closure k) args span m =
      .error (.arity (m.store.closure k).displayName
        (.parameters (m.store.closure k).params.length) args.length span)
        ⟨m.store, m.recording, log⟩ := by
  obtain ⟨log, hrun⟩ := enterClosure_run held k args span m
  rw [if_neg hcount] at hrun
  refine ⟨log, ?_⟩
  simp only [apply, bind, EStateM.bind, hrun]

/-- **Applications fail atomically and touch only what they name.** A primitive that fails has
changed nothing, and a closure that is given the wrong number of arguments no object of the store.
A primitive that succeeds has left all frames and all pairs as they were, with one exception: the
first argument of a replacement is a pair, and if it is one of the store the named half of it is
the second argument now; that is what everyone who refers to the pair finds there, and the other
half is what it was. -/
theorem applications_touch_what_they_name (ev : Evaluator) (held : List Ref) (args : List Node)
    (span : Span) (m : Machine) :
    (∀ p e m', apply ev held (.primitive p) args span m = .error e m' → m' = m) ∧
      (∀ k, (m.store.closure k).params.length ≠ args.length →
        ∃ m', apply ev held (.closure k) args span m =
            .error (.arity (m.store.closure k).displayName
              (.parameters (m.store.closure k).params.length) args.length span) m' ∧
          m'.store = m.store) ∧
      ∀ p r m', apply ev held (.primitive p) args span m = .ok r m' →
        ((∀ half, p ≠ .setHalf half) → m.store.Grows m'.store) ∧
        ∀ half, p = .setHalf half → (∀ a ∈ args, a.Refers m.store) →
          ∃ a b c, args = [a, b] ∧ a.value = .pair c ∧ m.store.Replaces m'.store c half b ∧
            ∀ other place k, other.value = a.value →
              apply ev held (.primitive (.half k)) [other] place m' =
                .ok (if k = half then b else (m.store.cell c).half k) m' := by
  refine ⟨fun p e m' h => apply_error h, fun k hcount => ?_, fun p r m' h => ?_⟩
  · obtain ⟨log, hrun⟩ := apply_closure_error ev held span hcount
    exact ⟨_, hrun, rfl⟩
  · obtain ⟨change, hcall, hstore⟩ := exists_of_apply_ok h
    rw [hstore]
    constructor
    · intro hp
      exact (Primitive.exists_change hcall).grows hp m.store
    · rintro half rfl hargs
      obtain ⟨a, b, c, rfl, ha, rfl⟩ := Primitive.exists_of_call_setHalf hcall
      have hhas : m.store.Has (.cell c) := by
        refine hargs a (by simp) _ ?_
        simp [Node.refs, ha, Value.refs]
      have hreplaces := Store.replaces_setHalf hhas half b
      refine ⟨a, b, c, rfl, ha, hreplaces, ?_⟩
      intro other place k hother
      rw [apply_half (hother.trans ha), hstore, hreplaces.half]
      simp

/-- A pair that is its own rest becomes its own first item as well; its rest stays what it was. -/
theorem ring_is_replaced_by_itself :
    ∃ (m m' : Machine) (ring : Node), (m.store.cell ⟨0⟩).cdr = ring ∧ ring.value = .pair ⟨0⟩ ∧
      apply (eval 8 8) [] (.primitive (.setHalf .car)) [ring, ring] ⟨0, 14⟩ m =
        .ok (.unspecified ⟨0, 14⟩) m' ∧
      m.store.Replaces m'.store ⟨0⟩ .car ring ∧
      apply (eval 8 8) [] (.primitive (.half .cdr)) [ring] ⟨15, 20⟩ m' = .ok ring m' := by
  let ring : Node := ⟨.pair ⟨0⟩, ⟨3, 4⟩⟩
  let m : Machine :=
    ⟨{ Store.empty with cells := #[⟨.integer 1 ⟨1, 2⟩, ring⟩] }, false, []⟩
  have hargs : ∀ a ∈ [ring, ring], a.Refers m.store := by
    intro a ha r hr
    obtain rfl : a = ring := by simpa using ha
    obtain rfl : r = .cell ⟨0⟩ := by simpa [Node.refs, Value.refs, ring] using hr
    exact Nat.zero_lt_one
  obtain ⟨-, -, hok⟩ := applications_touch_what_they_name (eval 8 8) [] [ring, ring] ⟨0, 14⟩ m
  obtain ⟨a, b, c, heq, ha, hreplaces, hseen⟩ := (hok (.setHalf .car) _ _ rfl).2 .car rfl hargs
  cases heq
  cases ha
  exact ⟨m, _, ring, rfl, rfl, rfl, hreplaces, hseen ring ⟨15, 20⟩ .cdr rfl⟩

end MiniScheme
