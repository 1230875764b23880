import MiniScheme.Proofs.Script
import MiniScheme.Proofs.Stepwise.Whole

/-!
# Sessions step by step

A host with several sessions, at any moment: between two commands or in the middle of one. A `Scene`
is a world with the values that the host keeps and with the evaluation that is under way, if there
is one. It goes on by the steps of the evaluation, and when there is none by what a host can do:
open a session, have a source evaluated, give any other command, keep a value or forget it, bind a
value it has kept, and close a session. What the host keeps is held while it does so.

A script only has the answers written down. So the world after a script is one that a host gets to
who keeps nothing, `Scene.reaches_run`, and what holds of all scenes holds of it.

## Results

* `Scene.Fits.step`: what a step keeps and what it can do to names.
* `Scene.Fits.run`: what any number of steps keep.
* `Scene.reaches_run`: scripts are runs.
-/

namespace MiniScheme

/-- An evaluation that is under way: the limit of nesting, what has been read, what is to be done
next and the forms that wait. -/
structure Pending where
  limit : Nat
  source : Node
  control : Control
  stack : List Level

/-- Sessions under a host. -/
structure Scene where
  world : World
  /-- the values that the host keeps -/
  kept : List Node
  /-- the evaluation that is under way -/
  pending : Option Pending

namespace Scene

/-- Nothing is under way. -/
def idle (w : World) (kept : List Node) : Scene := ⟨w, kept, none⟩

/-- An evaluation is under way, of which `source` has been read. -/
def busy (w : World) (kept : List Node) (limit : Nat) (source : Node) (σ : State) : Scene :=
  ⟨{ w with machine := σ.machine }, kept, some ⟨limit, source, σ.control, σ.stack⟩⟩

/-- What is held outside of an evaluation: what has been read, the values that the host keeps, and
the global frames of the sessions. -/
def outside (w : World) (kept : List Node) (source : Node) : List Ref :=
  source.refs ++ (refsOf kept ++ w.roots)

/-- The objects of a scene. -/
def store (S : Scene) : Store := S.world.store

/-- **One step.** -/
inductive Step : Scene → Scene → Prop
  /-- the host opens a session -/
  | opens {w : World} {kept : List Node} (limit : Nat) :
      Step (idle w kept) (idle (w.openSession limit) kept)
  /-- the host has a source evaluated -/
  | evaluate {w : World} {kept : List Node} {i : Nat} {session : Session} {text : String}
      {d : Datum} (hs : w.session? i = some session) (hd : parse session.limit text = .ok d) :
      Step (idle w kept) (busy w kept session.limit (w.store.load d).1
        ⟨.evaluate session.limit (w.store.load d).1 session.global, [], w.machine.reading text d⟩)
  /-- the evaluation goes on -/
  | advance {w : World} {kept : List Node} {limit : Nat} {source : Node} {σ τ : State}
      (h : σ.next? limit (outside w kept source) = some τ) :
      Step (busy w kept limit source σ) (busy w kept limit source τ)
  /-- it ends with a value -/
  | value {w : World} {kept : List Node} {limit : Nat} {source v : Node} {m : Machine} :
      Step (busy w kept limit source ⟨.yield v, [], m⟩) (idle { w with machine := m } kept)
  /-- it ends with a value that the host keeps -/
  | keep {w : World} {kept : List Node} {limit : Nat} {source v : Node} {m : Machine} :
      Step (busy w kept limit source ⟨.yield v, [], m⟩) (idle { w with machine := m } (v :: kept))
  /-- it fails -/
  | failure {w : World} {kept : List Node} {limit : Nat} {source : Node} {e : EvalError}
      {m : Machine} :
      Step (busy w kept limit source (State.failed e m)) (idle { w with machine := m } kept)
  /-- the host gives a command that has nothing evaluated and leaves the session open -/
  | command {w : World} {kept : List Node} (i : Nat) {c : Command} (hc : c.source? = none)
      (hopen : c ≠ .close) : Step (idle w kept) (idle (w.perform (i, c)).2 kept)
  /-- the host closes a session -/
  | closes {w : World} {kept : List Node} {i : Nat} {session : Session}
      (hs : w.session? i = some session) :
      Step (idle w kept) (idle (w.close (refsOf kept) i session) kept)
  /-- something is logged -/
  | log {w : World} {kept : List Node} (event : Store → Event) :
      Step (idle w kept) (idle { w with machine := w.machine.note event } kept)
  /-- the host keeps the value of a name -/
  | fetch {w : World} {kept : List Node} {i : Nat} {session : Session} {name : String} {span : Span}
      {v : Node} (hs : w.session? i = some session) (hv : w.lookup session name span = .ok v) :
      Step (idle w kept) (idle w (v :: kept))
  /-- the host forgets values -/
  | forget {w : World} {kept fewer : List Node} (h : fewer ⊆ kept) :
      Step (idle w kept) (idle w fewer)
  /-- the host binds a value that it keeps -/
  | bind {w : World} {kept : List Node} {i : Nat} {session : Session} {name : String} {v : Node}
      (hs : w.session? i = some session) (hv : v ∈ kept) :
      Step (idle w kept) (idle (w.mapStore fun s => s.bind session.global name v) kept)

/-- Any number of steps. -/
abbrev Reaches : Scene → Scene → Prop := Relation.ReflTransGen Step

/-- Some host gets there, starting without sessions. -/
def Reached (S : Scene) : Prop := ∃ recording, Reaches (idle (World.empty recording) []) S

end Scene

/-! ## Worlds -/

/-- The store is whole, and the sessions have global frames of their own. -/
structure World.Fits (w : World) : Prop where
  whole : w.store.Whole
  has : ∀ session ∈ w.sessions, w.store.Has (.frame session.global)
  global : ∀ session ∈ w.sessions, (w.store.frame session.global).outer = none
  distinct : (w.sessions.map Session.global).Nodup

namespace World

variable {w : World}

/-- The same sessions on a store that this one leads to. -/
theorem Fits.withStore (h : w.Fits) {w' : World} (hs : w'.sessions = w.sessions)
    (hwhole : w'.store.Whole) (hextends : w.store.Extends w'.store) : w'.Fits where
  whole := hwhole
  has session hmem := hextends.has (h.has session (hs ▸ hmem))
  global session hmem := by
    rw [hs] at hmem
    rw [hextends.outer (h.has session hmem)]
    exact h.global session hmem
  distinct := by
    rw [hs]
    exact h.distinct

/-- A global frame belongs to one session only. -/
theorem Fits.index_eq (h : w.Fits) {i j : Nat} {session other : Session}
    (hi : w.sessions[i]? = some session) (hj : w.sessions[j]? = some other)
    (hglobal : other.global = session.global) : j = i := by
  have hlt : j < (w.sessions.map Session.global).length := by
    rw [List.length_map]
    exact (List.getElem?_eq_some_iff.1 hj).1
  refine (List.getElem?_inj hlt h.distinct).1 ?_
  rw [List.getElem?_map, List.getElem?_map, hj, hi, Option.map_some, Option.map_some, hglobal]

theorem fits_empty (recording : Bool) : (World.empty recording).Fits where
  whole := Store.whole_empty
  has := nofun
  global := nofun
  distinct := List.nodup_nil

theorem Fits.openSession (h : w.Fits) (limit : Nat) :
    (w.openSession limit).Fits ∧ w.store.LeadsTo (w.openSession limit).store := by
  obtain ⟨hleads, hnew⟩ := h.whole.leadsTo_newPopulated
  have hsessions : (w.openSession limit).sessions =
      w.sessions ++ [⟨(w.store.newPopulated).1, limit, true⟩] := rfl
  have hnone : ((w.store.newPopulated).2.frame (w.store.newPopulated).1).outer = none := by
    rw [Store.newPopulated, Store.frame_newFrame, if_pos rfl]
  refine ⟨⟨hleads.whole, ?_, ?_, ?_⟩, hleads⟩
  · rw [hsessions]
    refine List.forall_mem_append.2 ⟨fun session hs => hleads.has (h.has session hs), ?_⟩
    exact List.forall_mem_singleton.2 hnew
  · rw [hsessions]
    refine List.forall_mem_append.2 ⟨fun session hs => ?_, List.forall_mem_singleton.2 hnone⟩
    exact (hleads.outer (h.has session hs)).trans (h.global session hs)
  · rw [hsessions, List.map_append]
    refine List.nodup_append.2 ⟨h.distinct, List.nodup_singleton _, ?_⟩
    rintro f hf g hg rfl
    obtain ⟨session, hs, rfl⟩ := List.mem_map.1 hf
    -- the new frame has not been there before
    have hold : session.global.index < w.store.frames.size := h.has session hs
    rw [List.mem_singleton.1 hg] at hold
    exact Nat.lt_irrefl _ hold

/-- A value is bound in the global frame of a session. -/
theorem Fits.bind (h : w.Fits) (session : Session) (name : String) {v : Node}
    (hv : v.Refers w.store) :
    (w.mapStore fun s => s.bind session.global name v).Fits ∧
      w.store.LeadsTo (w.store.bind session.global name v) := by
  have hleads : w.store.LeadsTo (w.store.bind session.global name v) :=
    h.whole.leadsTo_bind session.global name hv
  exact ⟨h.withStore rfl hleads.whole hleads.toExtends, hleads⟩

theorem Fits.lookup (h : w.Fits) {session : Session} {name : String} {span : Span} {v : Node}
    (hv : w.lookup session name span = .ok v) : v.Refers w.store :=
  h.whole.lookup (lookup?_of_lookup hv)

theorem Fits.close (h : w.Fits) (held : List Ref) {i : Nat} {session : Session}
    (hs : w.session? i = some session) :
    (w.close held i session).Fits ∧ w.store.LeadsTo (w.close held i session).store := by
  have hs := (session?_eq_some.1 hs).1
  have hleads : w.store.LeadsTo (w.close held i session).store :=
    h.whole.leadsTo_release (held ++ w.roots) session.global
  have hglobals : (w.close held i session).sessions.map Session.global =
      w.sessions.map Session.global := by
    change (w.sessions.set i { session with isOpen := false }).map Session.global = _
    rw [List.map_set]
    refine List.ext_getElem? fun j => ?_
    rw [List.getElem?_set]
    split
    · rename_i hij
      rw [← hij, List.getElem?_map, hs]
      split <;> simp_all
    · rfl
  have hmem {closed : Session} (hc : closed ∈ (w.close held i session).sessions) :
      ∃ old ∈ w.sessions, old.global = closed.global := by
    have himage := List.mem_map_of_mem (f := Session.global) hc
    rw [hglobals] at himage
    exact List.mem_map.1 himage
  refine ⟨⟨hleads.whole, fun closed hc => ?_, fun closed hc => ?_, ?_⟩, hleads⟩
  · obtain ⟨old, hold, heq⟩ := hmem hc
    rw [← heq]
    exact hleads.has (h.has old hold)
  · obtain ⟨old, hold, heq⟩ := hmem hc
    rw [← heq, hleads.outer (h.has old hold)]
    exact h.global old hold
  · rw [hglobals]
    exact h.distinct

/-- A value that the host describes. -/
theorem Fits.define (h : w.Fits) {session : Session} {name : String} {spec : Spec} {w' : World}
    (hw : w.define session name spec = some w') :
    w'.Fits ∧ w.store.LeadsTo w'.store := by
  obtain ⟨hpopulated, hnew⟩ := h.whole.leadsTo_newPopulated
  obtain ⟨⟨v, s⟩, hv, hw⟩ := Option.bind_eq_some_iff.1 hw
  cases hw
  have hnames : Names.Refer ⟨.empty, Table.empty.insert "global" (w.store.newPopulated).1⟩
      (w.store.newPopulated).2 := by
    refine ⟨fun hn => ?_, fun {n f} hf => ?_⟩
    · cases hn
    · rw [Table.get?_insert] at hf
      split at hf
      · cases hf
        exact hnew
      · cases hf
  obtain ⟨hbuild, hrefers⟩ := hpopulated.whole.leadsTo_build hnames spec hv
  have hleads := hpopulated.trans hbuild
  have hbind : s.LeadsTo (s.bind session.global name v) :=
    hbuild.whole.leadsTo_bind session.global name hrefers
  have hall := hleads.trans hbind
  exact ⟨h.withStore rfl hall.whole hall.toExtends, hall⟩

/-- **A command that has nothing evaluated.** -/
theorem Fits.command (h : w.Fits) (i : Nat) {c : Command} (hc : c.source? = none) :
    (w.perform (i, c)).2.Fits ∧ w.store.LeadsTo (w.perform (i, c)).2.store := by
  by_cases htextual : c.isTextual = true
  · have heffect := w.perform_effect i htextual
    generalize (w.perform (i, c)).2 = w' at heffect
    cases heffect with
    | none => exact ⟨h, h.whole.refl⟩
    | evaluated _ hsource => cases hc.symm.trans hsource
    | shared _ _ hl => exact h.bind _ _ (h.lookup hl)
    | closed hs => exact h.close [] hs
  · cases c with
    | define name spec =>
      cases hs : w.session? i with
      | none =>
        rw [perform_of_none hs]
        exact ⟨h, h.whole.refl⟩
      | some session =>
        cases hw : w.define session name spec with
        | none =>
          have hperform : (w.perform (i, .define name spec)).2 = w := by
            simp [perform, World.command, hs, hw]
          rw [hperform]
          exact ⟨h, h.whole.refl⟩
        | some w' =>
          have hperform : (w.perform (i, .define name spec)).2 = w' := by
            simp [perform, World.command, hs, hw]
          rw [hperform]
          exact h.define hw
    | _ => exact absurd rfl htextual

end World

/-! ## Scenes -/

namespace Scene

/-- The world fits, and what the host keeps and what is under way refers to objects that exist. -/
structure Fits (S : Scene) : Prop where
  world : S.world.Fits
  kept : ∀ n ∈ S.kept, n.Refers S.store
  source : ∀ p ∈ S.pending, p.source.Refers S.store
  state : ∀ p ∈ S.pending, State.Fits ⟨p.control, p.stack, S.world.machine⟩

/-- A `define` of the evaluation that is under way gives its name to a closure. -/
inductive Naming (k : ClosureId) (name : String) : Scene → Scene → Prop
  | intro {w : World} {kept : List Node} {limit : Nat} {source : Node} {σ τ : State}
      (h : State.Naming (outside w kept source) k name σ τ) :
      Naming k name (busy w kept limit source σ) (busy w kept limit source τ)

variable {S T : Scene} {w : World} {kept : List Node}

theorem fits_idle (h : w.Fits) (hkept : ∀ n ∈ kept, n.Refers w.store) : (idle w kept).Fits where
  world := h
  kept := hkept
  source _ hp := by cases hp
  state _ hp := by cases hp

/-- An evaluation has come to a state that fits, on a store with everything that there was. -/
theorem fits_busy (h : w.Fits) (hkept : ∀ n ∈ kept, n.Refers w.store) {limit : Nat} {source : Node}
    {σ : State} (hσ : σ.Fits) (hs : source.Refers σ.machine.store)
    (hextends : w.store.Extends σ.machine.store) : (busy w kept limit source σ).Fits := by
  refine ⟨h.withStore rfl hσ.whole hextends, fun n hn => hextends.refers (hkept n hn), ?_, ?_⟩
  · rintro _ ⟨⟩
    exact hs
  · rintro _ ⟨⟩
    exact hσ

/-- **One step.** What there is stays, and closures have the names they had, unless a `define` has
named one. -/
theorem Fits.step (h : S.Fits) (hst : Step S T) :
    T.Fits ∧ S.store.Extends T.store ∧
      (S.store.LeadsTo T.store ∨ ∃ k name, Naming k name S T) := by
  have hrefl : S.store.LeadsTo S.store := h.world.whole.refl
  cases hst with
  | opens limit =>
    obtain ⟨hfits, hleads⟩ := h.world.openSession limit
    exact ⟨fits_idle hfits fun n hn => hleads.refers (h.kept n hn), hleads.toExtends, .inl hleads⟩
  | @evaluate w kept i session text d hs hd =>
    obtain ⟨hleads, hnode⟩ := h.world.whole.leadsTo_load d
    refine ⟨fits_busy h.world h.kept ?_ hnode hleads.toExtends, hleads.toExtends, .inl hleads⟩
    exact State.fits_evaluate hleads.whole hnode
      (hleads.has (h.world.has session (World.mem_of_session? hs))) _
  | @advance w kept limit source σ τ hn =>
    have hσ : σ.Fits := h.state _ rfl
    obtain ⟨hfits, hextends⟩ := hσ.next hn
    refine ⟨?_, hextends, ?_⟩
    · have hbusy : (busy { w with machine := σ.machine } kept limit source τ).Fits :=
        fits_busy h.world h.kept hfits (hextends.refers (h.source _ rfl)) hextends
      exact hbusy
    · rcases hσ.next_from hn with hfrom | ⟨k, name, hnaming⟩
      · exact .inl hfrom.leads
      · exact .inr ⟨k, name, .intro hnaming⟩
  | value => exact ⟨fits_idle h.world h.kept, hrefl.toExtends, .inl hrefl⟩
  | keep =>
    refine ⟨fits_idle h.world (List.forall_mem_cons.2 ⟨?_, h.kept⟩), hrefl.toExtends, .inl hrefl⟩
    exact (h.state _ rfl).control
  | failure => exact ⟨fits_idle h.world h.kept, hrefl.toExtends, .inl hrefl⟩
  | command i hc =>
    obtain ⟨hfits, hleads⟩ := h.world.command i hc
    exact ⟨fits_idle hfits fun n hn => hleads.refers (h.kept n hn), hleads.toExtends, .inl hleads⟩
  | closes hs =>
    obtain ⟨hfits, hleads⟩ := h.world.close _ hs
    exact ⟨fits_idle hfits fun n hn => hleads.refers (h.kept n hn), hleads.toExtends, .inl hleads⟩
  | @log w kept event =>
    have hleads : w.store.LeadsTo (w.machine.note event).store := by
      rw [Machine.store_note]
      exact hrefl
    have hfits : World.Fits { w with machine := w.machine.note event } :=
      h.world.withStore rfl hleads.whole hleads.toExtends
    exact ⟨fits_idle hfits fun n hn => hleads.refers (h.kept n hn), hleads.toExtends, .inl hleads⟩
  | fetch hs hv =>
    refine ⟨fits_idle h.world (List.forall_mem_cons.2 ⟨?_, h.kept⟩), hrefl.toExtends, .inl hrefl⟩
    exact h.world.lookup hv
  | forget hfewer =>
    exact ⟨fits_idle h.world fun n hn => h.kept n (hfewer hn), hrefl.toExtends, .inl hrefl⟩
  | bind hs hv =>
    obtain ⟨hfits, hleads⟩ := h.world.bind _ _ (h.kept _ hv)
    exact ⟨fits_idle hfits fun n hn => hleads.refers (h.kept n hn), hleads.toExtends, .inl hleads⟩

/-- **Any number of steps.** -/
theorem Fits.run (h : S.Fits) (hr : Reaches S T) : T.Fits ∧ S.store.Extends T.store := by
  induction hr with
  | refl => exact ⟨h, h.world.whole.refl.toExtends⟩
  | tail _ hst ih =>
    obtain ⟨hfits, hextends⟩ := ih
    obtain ⟨hfits', hextends', -⟩ := hfits.step hst
    exact ⟨hfits', hextends.trans hextends'⟩

theorem Reached.fits (h : S.Reached) : S.Fits := by
  obtain ⟨recording, hr⟩ := h
  exact (Fits.run (fits_idle (World.fits_empty recording) (List.forall_mem_nil _)) hr).1

/-! ## Scripts -/

theorem reached_ofLimits (recording : Bool) (limits : List Nat) :
    (idle (World.ofLimits recording limits) []).Reached := by
  refine ⟨recording, ?_⟩
  refine World.ofLimits_induction (P := fun w => Reaches (idle (World.empty recording) [])
    (idle w [])) recording limits .refl fun w limit h => h.tail (.opens limit)

theorem reaches_steps {limit : Nat} {source : Node} {σ τ : State}
    (h : State.Steps limit (outside w kept source) σ τ) :
    Reaches (busy w kept limit source σ) (busy w kept limit source τ) := by
  induction h with
  | refl => exact .refl
  | tail _ hn ih => exact ih.tail (.advance hn)

theorem step_conclude {limit : Nat} {source : Node} (r : EStateM.Result EvalError Machine Node) :
    Step (busy w kept limit source (State.finish [] r))
      (idle { w with machine := (Session.conclude r).2 } kept) := by
  cases r with
  | ok v m => exact .value
  | error e m => exact .failure

/-- The evaluation of a source, while the host keeps values. -/
theorem reaches_evaluate (w : World) (kept : List Node) {i : Nat} {session : Session}
    (hs : w.session? i = some session) (text : String) :
    Reaches (idle w kept) (idle { w with machine :=
      (session.evaluate (refsOf kept ++ w.roots) text w.machine).2 } kept) := by
  unfold Session.evaluate
  cases hd : parse session.limit text with
  | error e =>
    rw [Session.evaluateWith_of_error hd]
    exact .single (.log fun _ => .evaluating text)
  | ok d =>
    rw [Session.evaluateWith_of_ok hd]
    have hsteps := reaches_steps (w := w) (steps_eval session.limit
      (outside w kept (w.store.load d).1) session.limit [] (w.store.load d).1 session.global
      (w.machine.reading text d))
    exact .head (.evaluate hs hd) (hsteps.tail (step_conclude _))

theorem reaches_perform (w : World) (c : Nat × Command) :
    Reaches (idle w []) (idle (w.perform c).2 []) := by
  obtain ⟨i, c⟩ := c
  cases hs : w.session? i with
  | none =>
    rw [World.perform_of_none hs]
  | some session =>
    cases hsource : c.source? with
    | none =>
      by_cases hclose : c = .close
      · subst hclose
        rw [World.perform_close hs]
        exact .single (.closes hs)
      · exact .single (.command i hsource hclose)
    | some text =>
      have hev : Reaches (idle w []) (idle (w.evaluate session text).2 []) :=
        reaches_evaluate w [] hs text
      cases c with
      | eval source =>
        cases hsource
        rw [World.perform_eval hs]
        exact hev
      | render source shown =>
        cases hsource
        rw [World.perform_render hs]
        exact hev
      | run source =>
        cases hsource
        rw [World.perform_run hs]
        unfold World.runLine
        revert hev
        generalize w.evaluate session text = r
        obtain ⟨result | result, w'⟩ := r
        · exact fun hev => hev.tail (.log _)
        · exact id
      | _ => cases hsource

/-- **Scripts are runs.** -/
theorem reaches_run (w : World) (script : Script) :
    Reaches (idle w []) (idle (w.run script).2 []) := by
  induction script generalizing w with
  | nil => exact .refl
  | cons c cs ih => exact (reaches_perform w c).trans (ih _)

theorem reached_run (recording : Bool) (limits : List Nat) (script : Script) :
    (idle ((World.ofLimits recording limits).run script).2 []).Reached := by
  obtain ⟨recording', h⟩ := reached_ofLimits recording limits
  exact ⟨recording', h.trans (reaches_run _ script)⟩

end Scene

end MiniScheme
