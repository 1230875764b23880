import MiniScheme.Proofs.Registration.Scenes

/-!
# Closing a session

The end of a session takes the names out of its global frame and out of the frames of its registry
that somebody still holds. These are all the frames beneath that anybody holds, since live frames
are registered. So from a closure over one of them no name is found any more. A frame whose chain
ends in another global frame is in no registry but that one's; it stays as it was, and so do all
cells.

## Results

* `Tracked.lookup?_release`: no name is found from a frame beneath.
* `closing_empties_own_frames`: the end of a session, after any run of a host.
-/

namespace MiniScheme

namespace Store

variable {s : Store} {roots : List Ref}

/-! ## Chains -/

theorem Whole.root_of_mem_chain (h : s.Whole) {f g : FrameId} (hg : g ∈ s.chain f) :
    s.root g = s.root f := by
  induction f using h.forest.outward_induction with
  | global f ho =>
    rw [chain_of_global ho, List.mem_singleton] at hg
    rw [hg]
  | inner f o ho hlt ih =>
    rw [chain_of_outer ho hlt, List.mem_cons] at hg
    rcases hg with rfl | hg
    · rfl
    · rw [ih hg, root_of_outer ho hlt]

/-- A release leaves chains alone. -/
theorem Tracked.chain_release {ended : FrameId → Prop} (h : s.Tracked ended roots)
    (g f : FrameId) : (s.release roots g).chain f = s.chain f :=
  chain_congr (s := s) (h.whole.emptying_release h.has g).outer f

/-- From a frame beneath the global frame that has been released no name is found. -/
theorem Tracked.lookup?_release {ended : FrameId → Prop} (h : s.Tracked ended roots)
    {g f : FrameId} (hg : (s.frame g).outer = none) (hroot : s.root f = g)
    (halive : (s.release roots g).Alive roots (.frame f)) (name : String) :
    (s.release roots g).lookup? f name = none := by
  unfold Store.lookup?
  rw [List.findSome?_eq_none_iff]
  intro o ho
  have hempty : ((s.release roots g).frame o).bindings = .empty := by
    refine (h.emptied_release hg).1 ?_ (alive_chain (h.release hg).whole halive o ho)
    rw [h.chain_release] at ho
    exact (h.whole.root_of_mem_chain ho).trans hroot
  rw [hempty]
  rfl

end Store

/-! ## Sessions -/

/-- What is held after the end of a session was held during it. -/
theorem World.Tracked.alive_of_close {w : World} {kept : List Node} {i : Nat} {session : Session}
    (h : w.Tracked kept) (hw : w.Fits) (hs : w.session? i = some session) {r : Ref}
    (hr : (w.close (refsOf kept) i session).store.Alive
      (refsOf kept ++ (w.close (refsOf kept) i session).roots) r) :
    (w.store.release (refsOf kept ++ w.roots) session.global).Alive (refsOf kept ++ w.roots) r :=
  hr.of_roots fun _ hq => (h.release (hw.global session (mem_of_session? hs))).alive
    (append_roots_close_subset hs hq)

/-- **Closing a session empties exactly its own frames.** After any run of a host, and whatever it
keeps, let the session at `i` be closed. Its global frame has no names then, nor has any frame that
is still held and whose chain ends in this global frame. So no name is found from a closure over
such a frame. The frames whose chains end elsewhere are as they were, among them the global frames
of the other sessions, and so are all cells. -/
theorem closing_empties_own_frames {w closed : World} {kept : List Node}
    (hw : (Scene.idle w kept).Reached) {i : Nat} {session : Session}
    (hs : w.session? i = some session) (hclosed : w.close (refsOf kept) i session = closed) :
    (∀ f, w.store.Outward f (w.store.chain f) ∧ closed.store.chain f = w.store.chain f) ∧
      w.store.root session.global = session.global ∧
      (closed.store.frame session.global).bindings = .empty ∧
      (∀ f, w.store.root f = session.global →
        closed.store.Alive (refsOf kept ++ closed.roots) (.frame f) →
        (closed.store.frame f).bindings = .empty) ∧
      (∀ k, w.store.root (closed.store.closure k).frame = session.global →
        closed.store.Alive (refsOf kept ++ closed.roots) (.closure k) → ∀ name span,
        evalName name (closed.store.closure k).frame span closed.machine =
          .error (.unbound name span) closed.machine) ∧
      (∀ f, w.store.root f ≠ session.global → closed.store.frame f = w.store.frame f) ∧
      (∀ j other, j ≠ i → w.sessions[j]? = some other →
        w.store.root other.global ≠ session.global) ∧
      ∀ c, closed.store.cell c = w.store.cell c := by
  have hfits : w.Fits := hw.fits.world
  have htracked : w.Tracked kept := hw.tracked
  have h : w.store.Tracked w.Ended (refsOf kept ++ w.roots) := htracked
  have hi := (World.session?_eq_some.1 hs).1
  have hglobal := hfits.global session (World.mem_of_session? hs)
  have hroot : w.store.root session.global = session.global := Store.root_of_global hglobal
  have hstore : closed.store = w.store.release (refsOf kept ++ w.roots) session.global := by
    rw [← hclosed]
    rfl
  have hafter := h.release hglobal
  have hfewer {r : Ref} (hr : closed.store.Alive (refsOf kept ++ closed.roots) r) :=
    htracked.alive_of_close hfits hs (hclosed ▸ hr)
  have hempty := h.whole.emptying_release h.has session.global
  have hemptied {f : FrameId} := h.emptied_release hglobal (f := f)
  refine ⟨fun f => ⟨h.whole.forest.outward f, ?_⟩, hroot, ?_, fun f hf halive => ?_,
    fun k hk halive name span => ?_, fun f hf => ?_, fun j other hj hother => ?_, fun c => ?_⟩
  · rw [hstore]
    exact h.chain_release session.global f
  · rw [hstore]
    exact hemptied.1 hroot
      (hafter.alive (List.mem_append_right _ (World.frame_mem_roots hs)))
  · rw [hstore]
    exact hemptied.1 hf (hfewer halive)
  · have hframe : (w.store.release (refsOf kept ++ w.roots) session.global).Alive
        (refsOf kept ++ w.roots) (.frame (closed.store.closure k).frame) := by
      rw [hstore]
      exact (hfewer halive).reference hafter.whole (List.mem_append_right _ List.mem_cons_self)
    have hnone := h.lookup?_release hglobal hk hframe name
    rw [← hstore] at hnone
    have hlookup : closed.machine.store.lookup? (closed.store.closure k).frame name = none := hnone
    rw [evalName_run, hlookup]
  · rw [hstore]
    exact hemptied.2 hf
  · rw [Store.root_of_global (hfits.global other (List.mem_of_getElem? hother))]
    exact fun heq => hj (hfits.index_eq hi hother heq)
  · rw [hstore, Store.cell, hempty.cells]
    rfl

/-- A procedure of one session is called in another one, and the closure that it makes over a `let`
is bound there. Once the first session is closed, that closure finds nothing any more, while a
closure of the other session finds what it did. -/
theorem closing_empties_own_frames_of_lent_closure :
    let script : Script := [(0, .eval "(define make (lambda (x) (let ((y x)) (lambda () y))))"),
      (0, .share "make" 1), (1, .eval "(define lent (make 1))"),
      (1, .eval "(define own (let ((z 2)) (lambda () z)))")]
    let w := ((World.ofLimits false [9, 9]).run script).2
    let closed := (w.perform (0, .close)).2
    w.session? 0 = some ⟨⟨0⟩, 9, true⟩ ∧
      ((w.store.lookup? (w.store.closure ⟨1⟩).frame "y").isSome = true ∧ ∀ name span,
        evalName name (closed.store.closure ⟨1⟩).frame span closed.machine =
          .error (.unbound name span) closed.machine) ∧
      (w.store.frame (w.store.closure ⟨2⟩).frame).bindings.names = ["z"] ∧
      closed.store.frame (w.store.closure ⟨2⟩).frame =
        w.store.frame (w.store.closure ⟨2⟩).frame := by
  intro script w closed
  obtain ⟨hs, hbound, hglobal, hheld, hlent, hown, hnames⟩ :
      w.session? 0 = some ⟨⟨0⟩, 9, true⟩ ∧
        (w.store.lookup? (w.store.closure ⟨1⟩).frame "y").isSome = true ∧
        .frame ⟨1⟩ ∈ closed.roots ∧ .closure ⟨1⟩ ∈ closed.store.references (.frame ⟨1⟩) ∧
        w.store.root (closed.store.closure ⟨1⟩).frame = ⟨0⟩ ∧
        w.store.root (w.store.closure ⟨2⟩).frame ≠ ⟨0⟩ ∧
        (w.store.frame (w.store.closure ⟨2⟩).frame).bindings.names = ["z"] := by
    decide +kernel
  have hw : (Scene.idle w []).Reached := Scene.reached_run false [9, 9] script
  have hclosed : w.close (refsOf []) 0 ⟨⟨0⟩, 9, true⟩ = closed :=
    (congrArg Prod.snd (World.perform_close hs)).symm
  obtain ⟨-, -, -, -, hfails, hother, -, -⟩ := closing_empties_own_frames hw hs hclosed
  -- the other session holds the closure by the name that it has bound
  have hreached : (Scene.idle closed []).Reached := by
    obtain ⟨recording, hr⟩ := hw
    rw [← hclosed]
    exact ⟨recording, hr.tail (.closes hs)⟩
  have halive : closed.store.Alive (refsOf [] ++ closed.roots) (.closure ⟨1⟩) :=
    (hreached.tracked.alive hglobal).reference hreached.fits.world.whole hheld
  exact ⟨hs, ⟨hbound, hfails ⟨1⟩ hlent halive⟩, hnames, hother _ hown⟩

end MiniScheme
