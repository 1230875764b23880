import MiniScheme.Proofs.Registration.Evaluation
import MiniScheme.Proofs.Stepwise.Scenes

/-!
# Live frames are registered between commands

Whatever a host does with its sessions, between two commands the frames that are alive are in the
registries of their global frames. Alive is what the host and the open sessions hold.

Registries are not looked at in the middle of an evaluation. All that has to be known there is how
the evaluation has begun, and what `tracking_eval` says of its end.

## Results

* `Scene.Tracked.step`: what a step keeps.
* `live_frames_are_registered`: the frames beneath an open session, after any run.
-/

namespace MiniScheme

namespace World

variable {w : World} {kept : List Node} {i : Nat} {session : Session}

/-- The global frame of a session that has been closed. -/
def Ended (w : World) (f : FrameId) : Prop :=
  ∃ session ∈ w.sessions, session.isOpen = false ∧ session.global = f

/-- The frames that the host and the open sessions hold are registered, except beneath sessions that
have been closed: there they are empty. -/
def Tracked (w : World) (kept : List Node) : Prop :=
  w.store.Tracked w.Ended (refsOf kept ++ w.roots)

theorem frame_mem_roots (hs : w.session? i = some session) : .frame session.global ∈ w.roots :=
  mem_roots.2 ⟨i, session, (session?_eq_some.1 hs).1, (session?_eq_some.1 hs).2, rfl⟩

/-- What is held after the end of a session was held before. -/
theorem append_roots_close_subset (hs : w.session? i = some session) :
    refsOf kept ++ (w.close (refsOf kept) i session).roots ⊆ refsOf kept ++ w.roots := by
  obtain ⟨hi, -⟩ := session?_eq_some.1 hs
  have hsessions : (w.close (refsOf kept) i session).sessions =
      w.sessions.set i { session with isOpen := false } := rfl
  refine List.append_subset.2 ⟨List.subset_append_left _ _, fun r hr => ?_⟩
  obtain ⟨j, other, hj, hother, rfl⟩ := mem_roots.1 hr
  rw [hsessions] at hj
  by_cases hij : i = j
  · subst hij
    rw [List.getElem?_set_self (List.getElem?_eq_some_iff.1 hi).1] at hj
    cases hj
    cases hother
  · rw [List.getElem?_set_ne hij] at hj
    exact List.mem_append_right _ (mem_roots.2 ⟨j, other, hj, hother, rfl⟩)

/-- The global frame of an open session has not been released. -/
theorem not_ended (hw : w.Fits) (hs : w.session? i = some session) : ¬w.Ended session.global := by
  obtain ⟨hi, hopen⟩ := session?_eq_some.1 hs
  rintro ⟨other, hmem, hclosed, hglobal⟩
  obtain ⟨j, hj⟩ := List.mem_iff_getElem?.1 hmem
  obtain rfl := hw.index_eq hi hj hglobal
  cases hi.symm.trans hj
  cases hopen.symm.trans hclosed

theorem tracked_empty (recording : Bool) : (World.empty recording).Tracked [] where
  whole := Store.whole_empty
  has := nofun
  beneath {f g} hmem := by
    change f ∈ #[] at hmem
    simp at hmem
  registered ho := by cases ho

/-! ## What a host does -/

namespace Tracked

variable {w' : World}

/-- The same sessions on another store. -/
theorem withStore {roots : List Ref} (hsessions : w'.sessions = w.sessions)
    (h : w'.store.Tracked w.Ended roots) (hroots : refsOf kept ++ w.roots ⊆ roots) :
    w'.Tracked kept := by
  have h := h.mono hroots
  unfold World.Tracked World.Ended World.roots
  rw [hsessions]
  exact h

/-- The value of a name in an open session is alive. -/
theorem lookup (h : w.Tracked kept) (hs : w.session? i = some session) {name : String}
    {span : Span} {v : Node} (hv : w.lookup session name span = .ok v) :
    ∀ r ∈ v.refs, w.store.Alive (refsOf kept ++ w.roots) r :=
  Store.alive_lookup h.whole (lookup?_of_lookup hv)
    (h.alive (List.mem_append_right _ (frame_mem_roots hs)))

theorem openSession (h : w.Tracked kept) (limit : Nat) : (w.openSession limit).Tracked kept := by
  have hroots : (w.openSession limit).roots = w.roots ++ [.frame w.store.newPopulated.1] := by
    change ((w.sessions ++ [(⟨_, limit, true⟩ : Session)]).filter Session.isOpen).map _ = _
    rw [List.filter_append, List.map_append]
    rfl
  refine Store.Tracked.mono (Store.Tracked.of_ended h.newPopulated ?_) ?_
  · rintro f ⟨session, hs, hended⟩
    exact ⟨session, List.mem_append_left _ hs, hended⟩
  · rw [hroots]
    exact fun r hr => by grind

/-- A value is bound in the global frame of a session. -/
theorem bind (h : w.Tracked kept) (hw : w.Fits) (hs : session ∈ w.sessions) (name : String)
    {v : Node} (hv : ∀ r ∈ v.refs, w.store.Alive (refsOf kept ++ w.roots) r) :
    (w.mapStore fun s => s.bind session.global name v).Tracked kept :=
  .withStore rfl ((h.hold hv).bind (List.subset_append_left _ _) (.inl (hw.global session hs)))
    (List.subset_append_right _ _)

/-- A value that the host describes. -/
theorem define (h : w.Tracked kept) (hw : w.Fits) (hs : session ∈ w.sessions) {name : String}
    {spec : Spec} (hdefine : w.define session name spec = some w') : w'.Tracked kept := by
  obtain ⟨hfits, -⟩ := hw.define hdefine
  obtain ⟨⟨v, s⟩, hv, heq⟩ := Option.bind_eq_some_iff.1 hdefine
  cases heq
  have hnames : Names.Held ⟨.empty, Table.empty.insert "global" (w.store.newPopulated).1⟩
      (.frame (w.store.newPopulated).1 :: (refsOf kept ++ w.roots)) := by
    refine ⟨fun hn => ?_, fun {n f} hf => ?_⟩
    · cases hn
    · rw [Table.get?_insert] at hf
      split at hf
      · cases hf
        exact List.mem_cons_self
      · cases hf
  have hbuild := Store.Tracked.build h.newPopulated hnames spec hv
  -- it stays a global frame when the value is bound there
  have hglobal : (s.frame session.global).outer = none := by
    have hafter : ((s.bind session.global name v).frame session.global).outer = none :=
      hfits.global session hs
    rw [Store.frame_bind] at hafter
    split at hafter <;> exact hafter
  exact .withStore rfl (hbuild.bind (List.subset_append_left _ _) (.inl hglobal))
    fun r hr => List.mem_append_right _ (List.mem_cons_of_mem _ hr)

/-- **The end of a session**, while the host keeps values. -/
theorem close (h : w.Tracked kept) (hw : w.Fits) (hs : w.session? i = some session) :
    (w.close (refsOf kept) i session).Tracked kept := by
  obtain ⟨hi, hopen⟩ := session?_eq_some.1 hs
  have hsessions : (w.close (refsOf kept) i session).sessions =
      w.sessions.set i { session with isOpen := false } := rfl
  have hlt := (List.getElem?_eq_some_iff.1 hi).1
  have hset : { session with isOpen := false } ∈ (w.close (refsOf kept) i session).sessions :=
    List.mem_set hlt _
  refine Store.Tracked.mono (Store.Tracked.of_ended
    (h.release (hw.global session (mem_of_session? hs))) ?_) (append_roots_close_subset hs)
  rintro f (⟨other, hmem, hended⟩ | rfl)
  · obtain ⟨j, hj⟩ := List.mem_iff_getElem?.1 hmem
    have hne : i ≠ j := by
      rintro rfl
      cases hi.symm.trans hj
      cases hopen.symm.trans hended.1
    refine ⟨other, List.mem_of_getElem? (i := j) ?_, hended⟩
    rw [hsessions, List.getElem?_set_ne hne]
    exact hj
  · exact ⟨_, hset, rfl, rfl⟩

/-- **A command** that has nothing evaluated and leaves the session open. -/
theorem command (h : w.Tracked kept) (hw : w.Fits) (i : Nat) {c : Command}
    (hc : c.source? = none) (hopen : c ≠ .close) : (w.perform (i, c)).2.Tracked kept := by
  by_cases htextual : c.isTextual = true
  · have heffect := w.perform_effect i htextual
    generalize (w.perform (i, c)).2 = w' at heffect
    cases heffect with
    | none => exact h
    | evaluated _ hsource => cases hc.symm.trans hsource
    | shared hs ho hl => exact h.bind hw (mem_of_session? ho) _ (h.lookup hs hl)
    | closed => exact absurd rfl hopen
  · cases c with
    | define name spec =>
      cases hs : w.session? i with
      | none =>
        rw [perform_of_none hs]
        exact h
      | some session =>
        cases hdefine : w.define session name spec with
        | none =>
          have hperform : (w.perform (i, .define name spec)).2 = w := by
            simp [perform, World.command, hs, hdefine]
          rw [hperform]
          exact h
        | some w' =>
          have hperform : (w.perform (i, .define name spec)).2 = w' := by
            simp [perform, World.command, hs, hdefine]
          rw [hperform]
          exact h.define hw (mem_of_session? hs) hdefine
    | _ => exact absurd rfl htextual

end Tracked

end World

/-! ## Scenes -/

namespace Scene

variable {S T : Scene}

/-- Live frames are registered. If an evaluation is under way then they were when it began, and it
has come by steps to where it is. -/
structure Tracked (S : Scene) : Prop where
  idle : S.pending = none → S.world.Tracked S.kept
  busy : ∀ p ∈ S.pending, ∃ f m, .frame f ∈ outside S.world S.kept p.source ∧
    m.store.Tracked S.world.Ended (outside S.world S.kept p.source) ∧
    State.Steps p.limit (outside S.world S.kept p.source) ⟨.evaluate p.limit p.source f, [], m⟩
      ⟨p.control, p.stack, S.world.machine⟩

theorem tracked_idle {w : World} {kept : List Node} (h : w.Tracked kept) :
    (Scene.idle w kept).Tracked where
  idle _ := h
  busy _ hp := by cases hp

/-- **The end of an evaluation.** -/
theorem Tracked.finish {w : World} {kept : List Node} {limit : Nat} {source : Node} {σ : State}
    (h : (Scene.busy w kept limit source σ).Tracked)
    (hσ : σ.next? limit (outside w kept source) = none) :
    ∃ r, σ = State.finish [] r ∧ Leaves w.Ended (outside w kept source) Node.refs r := by
  obtain ⟨f, m, hf, hm, hsteps⟩ := h.busy _ rfl
  have hleaves := tracking_eval w.Ended limit limit hf
    (hm.mono (List.append_subset.2 ⟨List.subset_append_left _ _, List.Subset.refl _⟩))
  exact ⟨_, (hsteps.eq_finish hσ).symm, hleaves⟩

/-- **One step.** -/
theorem Tracked.step (h : S.Tracked) (hS : S.Fits) (hst : Step S T) : T.Tracked := by
  cases hst with
  | opens limit => exact tracked_idle ((h.idle rfl).openSession limit)
  | @evaluate w kept i session text d hs hd =>
    refine ⟨nofun, ?_⟩
    rintro _ ⟨⟩
    have hload := (h.idle rfl).load d
    refine ⟨session.global, w.machine.reading text d, ?_, hload, .refl⟩
    exact List.mem_append_right _ (List.mem_append_right _ (World.frame_mem_roots hs))
  | advance hn =>
    refine ⟨nofun, ?_⟩
    rintro _ ⟨⟩
    obtain ⟨f, m, hf, hm, hsteps⟩ := h.busy _ rfl
    exact ⟨f, m, hf, hm, hsteps.tail hn⟩
  | @value w kept limit source v m =>
    obtain ⟨r, hr, hleaves⟩ := h.finish rfl
    cases r with
    | error => cases hr
    | ok v m =>
      cases hr
      refine tracked_idle (.withStore rfl hleaves fun r hr => ?_)
      exact List.mem_append_right _ (List.mem_append_right _ hr)
  | @keep w kept limit source v m =>
    obtain ⟨r, hr, hleaves⟩ := h.finish rfl
    cases r with
    | error => cases hr
    | ok v m =>
      cases hr
      refine tracked_idle (.withStore rfl hleaves ?_)
      rw [refsOf_cons, List.append_assoc]
      exact List.append_subset.2 ⟨List.subset_append_left _ _,
        fun r hr => List.mem_append_right _ (List.mem_append_right _ hr)⟩
  | @failure w kept limit source e m =>
    obtain ⟨r, hr, hleaves⟩ := h.finish rfl
    cases r with
    | ok => cases hr
    | error e m =>
      cases hr
      exact tracked_idle (.withStore rfl hleaves (List.subset_append_right _ _))
  | command i hc hopen => exact tracked_idle ((h.idle rfl).command hS.world i hc hopen)
  | closes hs => exact tracked_idle ((h.idle rfl).close hS.world hs)
  | @log w kept event =>
    refine tracked_idle (World.Tracked.withStore (w := w) rfl ?_ (List.Subset.refl _))
    rw [World.store, Machine.store_note]
    exact h.idle rfl
  | @fetch w kept i session name span v hs hv =>
    have hhold := (h.idle rfl).hold ((h.idle rfl).lookup hs hv)
    refine tracked_idle (.withStore rfl hhold ?_)
    rw [refsOf_cons, List.append_assoc]
    exact List.Subset.refl _
  | @forget w kept fewer hfewer =>
    refine tracked_idle (.withStore rfl (h.idle rfl) ?_)
    refine List.append_subset.2 ⟨fun r hr => ?_, List.subset_append_right _ _⟩
    obtain ⟨n, hn, hr⟩ := List.mem_flatMap.1 hr
    exact List.mem_append_left _ (List.mem_flatMap.2 ⟨n, hfewer hn, hr⟩)
  | @bind w kept i session name v hs hv =>
    refine tracked_idle ((h.idle rfl).bind hS.world (World.mem_of_session? hs) name fun r hr => ?_)
    exact (h.idle rfl).alive (List.mem_append_left _ (List.mem_flatMap.2 ⟨v, hv, hr⟩))

/-- **Any number of steps.** -/
theorem Tracked.run (h : S.Tracked) (hS : S.Fits) (hr : Reaches S T) : T.Tracked := by
  induction hr with
  | refl => exact h
  | tail hr hst ih => exact ih.step (hS.run hr).1 hst

theorem Reached.tracked {w : World} {kept : List Node} (h : (Scene.idle w kept).Reached) :
    w.Tracked kept := by
  obtain ⟨recording, hr⟩ := h
  have hstart : (Scene.idle (World.empty recording) []).Tracked :=
    tracked_idle (World.tracked_empty recording)
  exact (hstart.run (fits_idle (World.fits_empty recording) (List.forall_mem_nil _)) hr).idle rfl

end Scene

/-- **Live frames are registered.** After any run of a host, each frame beneath the global frame of
an open session is in the registry of that frame, as long as the host or a session holds it. -/
theorem live_frames_are_registered {w : World} {kept : List Node}
    (hw : (Scene.idle w kept).Reached) {i : Nat} {session : Session}
    (hs : w.session? i = some session) {f o : FrameId} (ho : (w.store.frame f).outer = some o)
    (hroot : w.store.root f = session.global)
    (hf : w.store.Alive (refsOf kept ++ w.roots) (.frame f)) :
    f ∈ (w.store.registries.of session.global).frames := by
  rcases hw.tracked.registered ho hf with hmem | ⟨hended, -⟩
  · rwa [hroot] at hmem
  · rw [hroot] at hended
    exact absurd hended (World.not_ended hw.fits.world hs)

end MiniScheme
