import MiniScheme.Proofs.Holding
import MiniScheme.Proofs.Printing
import MiniScheme.Proofs.Stepwise.Scenes

/-!
# The names of closures

A closure gets its name from the `define` that binds it, provided that nothing else refers to it.
The name is part of what is printed, so this must not be seen from elsewhere. A value is *held* in a
scene if it is at hand, as a value that the host keeps, an argument or a result that some form waits
with or a part of its code, or if it is in an object that is alive. When a closure is named no value
that is held is the closure, and since what is below a held value is held as well, none of them is
printed differently.

## Results

* `Scene.Naming.names`: what holds when a closure is named.
* `Scene.name_of_defines`: when a closure is named.
* `naming_is_written_once_and_unseen`: both, for every step of every run.
-/

namespace MiniScheme

/-- The values in an object. -/
def Store.values (s : Store) : Ref → List Value
  | .cell c => [(s.cell c).car.value, (s.cell c).cdr.value]
  | .frame f => (s.frame f).bindings.entries.map fun e => e.2.value
  | .closure k => [(s.closure k).body.value]

/-- The value of an item. -/
def Item.value? : Item → Option Value
  | value v => some v
  | code n => some n.value
  | scope _ => none

/-- The objects that are dealt with next. -/
def Control.refs : Control → List Ref
  | evaluate _ node frame => .frame frame :: node.refs
  | yield v => v.refs
  | fail _ => []

namespace Scene

/-- What is at hand besides the value or the node that is dealt with next: what the waiting forms
hold on to, what has been read, what the host keeps and the global frames of the open sessions. -/
def items (S : Scene) : List Item :=
  (S.pending.toList.flatMap fun p => p.stack.flatMap Level.items ++ [.code p.source]) ++
    (S.kept.map (fun n => .value n.value) ++
      (S.world.sessions.filter (·.isOpen)).map fun session => .scope session.global)

/-- The objects that something at hand refers to. -/
def roots (S : Scene) : List Ref :=
  (S.pending.toList.flatMap fun p => p.control.refs) ++ S.items.flatMap Item.refs

/-- The object exists and is not dropped. -/
def Alive (S : Scene) (o : Ref) : Prop := S.store.Has o ∧ ¬S.store.Dropped S.roots o

/-- The value is at hand, or it is in an object that is alive. The value that is dealt with next
does not count. -/
inductive Holds (S : Scene) : Value → Prop
  | item {i : Item} {v : Value} (hi : i ∈ S.items) (hv : i.value? = some v) : Holds S v
  | object {o : Ref} {v : Value} (ho : S.Alive o) (hv : v ∈ S.store.values o) : Holds S v

/-- The closure is the value of a `define` form, and `name` is its target. -/
def Defines (S : Scene) (k : ClosureId) (name : String) : Prop :=
  ∃ p v c target rest, S.pending = some p ∧ p.control = .yield v ∧
    v.value = .procedure (.closure k) ∧ p.stack = ⟨c, .define target name⟩ :: rest ∧
    c.Defines target name

/-- The closure is named by a `define` form of which it is the value, and nobody sees it. -/
structure Names (S T : Scene) (k : ClosureId) (name : String) : Prop where
  define : S.Defines k name
  before : (S.store.closure k).name = none
  after : (T.store.closure k).name = some name
  unheld : ∀ v, S.Holds v → v ≠ .procedure (.closure k)
  unseen : ∀ v, S.Holds v → T.store.text v = S.store.text v

end Scene

/-! ## References and values -/

namespace Store

variable {s : Store}

/-- An object refers to what its values refer to. -/
theorem mem_references_of_values {o r : Ref} {v : Value} (hv : v ∈ s.values o) (hr : r ∈ v.refs) :
    r ∈ s.references o := by
  cases o with
  | cell c =>
    rcases List.mem_cons.1 hv with rfl | hv
    · exact List.mem_append_left _ hr
    · rw [List.mem_singleton.1 hv] at hr
      exact List.mem_append_right _ hr
  | frame f =>
    obtain ⟨e, he, rfl⟩ := List.mem_map.1 hv
    exact List.mem_append_right _ (List.mem_flatMap.2 ⟨e, he, hr⟩)
  | closure k =>
    rw [List.mem_singleton.1 hv] at hr
    exact List.mem_append_left _ hr

theorem eq_of_closure_mem_refs {v : Value} {k : ClosureId} (h : .closure k ∈ v.refs) :
    v = .procedure (.closure k) := by
  match v, h with
  | .procedure (.closure _), h =>
    cases List.mem_singleton.1 h
    rfl
  | .pair _, h => cases List.mem_singleton.1 h

/-- A closure that an object refers to is one of its values. -/
theorem mem_values_of_references {o : Ref} {k : ClosureId} (hk : .closure k ∈ s.references o) :
    .procedure (.closure k) ∈ s.values o := by
  cases o with
  | cell c =>
    rcases List.mem_append.1 hk with hk | hk
    · rw [← eq_of_closure_mem_refs hk]
      exact List.mem_cons_self
    · rw [← eq_of_closure_mem_refs hk]
      exact List.mem_cons_of_mem _ List.mem_cons_self
  | frame f =>
    rcases List.mem_append.1 hk with hk | hk
    · obtain ⟨g, -, hg⟩ := Option.map_eq_some_iff.1 (Option.mem_toList.1 hk)
      cases hg
    · obtain ⟨e, he, hk⟩ := List.mem_flatMap.1 hk
      rw [← eq_of_closure_mem_refs hk]
      exact List.mem_map.2 ⟨e, he, rfl⟩
  | closure l =>
    rcases List.mem_append.1 hk with hk | hk
    · rw [← eq_of_closure_mem_refs hk]
      exact List.mem_cons_self
    · cases List.mem_singleton.1 hk

end Store

theorem Item.value?_of_closure_mem_refs {i : Item} {k : ClosureId} (h : .closure k ∈ i.refs) :
    i.value? = some (.procedure (.closure k)) := by
  cases i with
  | value v => exact congrArg some (Store.eq_of_closure_mem_refs h)
  | code n => exact congrArg some (Store.eq_of_closure_mem_refs h)
  | scope f => cases List.mem_singleton.1 h

theorem Item.refs_of_value? {i : Item} {v : Value} (h : i.value? = some v) : i.refs = v.refs := by
  cases i with
  | value _ =>
    cases h
    rfl
  | code _ =>
    cases h
    rfl
  | scope _ => cases h

namespace Scene

variable {S T : Scene}

/-! ## What is held -/

theorem refers_of_mem_items (hS : S.Fits) : ∀ i ∈ S.items, i.Refers S.store := by
  obtain ⟨w, kept, pending⟩ := S
  refine List.forall_mem_append.2 ⟨?_, List.forall_mem_append.2 ⟨?_, ?_⟩⟩
  · intro i hi
    obtain ⟨p, hp, hi⟩ := List.mem_flatMap.1 hi
    have hp' : p ∈ pending := Option.mem_toList.1 hp
    rcases List.mem_append.1 hi with hi | hi
    · obtain ⟨l, hl, hi⟩ := List.mem_flatMap.1 hi
      have hfits := (hS.state p hp').stack l hl
      rcases List.mem_append.1 hi with hi | hi
      · exact hfits.wait.items i hi
      · exact Item.forall_code.2 hfits.site.form i hi
    · rw [List.mem_singleton.1 hi]
      exact hS.source p hp'
  · exact Item.forall_value.2 hS.kept
  · refine List.forall_mem_map.2 fun session hs => Item.refers_scope.2 ?_
    exact hS.world.has session (List.mem_filter.1 hs).1

theorem mem_roots_of_item {i : Item} (hi : i ∈ S.items) {r : Ref} (hr : r ∈ i.refs) :
    r ∈ S.roots := List.mem_append_right _ (List.mem_flatMap.2 ⟨i, hi, hr⟩)

theorem not_dropped_of_mem_roots {r : Ref} (hr : r ∈ S.roots) : ¬S.store.Dropped S.roots r := by
  rintro ⟨hroot, -⟩
  exact hroot hr

/-- What a held value refers to is alive. -/
theorem Holds.alive (hS : S.Fits) {v : Value} (h : S.Holds v) {r : Ref} (hr : r ∈ v.refs) :
    S.Alive r := by
  cases h with
  | @item i _ hi hv =>
    rw [← Item.refs_of_value? hv] at hr
    exact ⟨refers_of_mem_items hS i hi r hr, not_dropped_of_mem_roots (mem_roots_of_item hi hr)⟩
  | @object o _ ho hv =>
    have hro := Store.mem_references_of_values hv hr
    refine ⟨hS.world.whole.closed o ho.1 r hro, ?_⟩
    rintro ⟨-, hall⟩
    exact ho.2 (hall o ho.1 hro)

/-- **Below a held pair** everything is held. -/
theorem Holds.half (hS : S.Fits) {c : CellId} (h : S.Holds (.pair c)) (half : Half) :
    S.Holds ((S.store.cell c).half half).value := by
  refine .object (h.alive hS List.mem_cons_self) ?_
  cases half with
  | car => exact List.mem_cons_self
  | cdr => exact List.mem_cons_of_mem _ List.mem_cons_self

/-! ## At a `define` -/

section

variable {w : World} {kept : List Node} {limit : Nat} {source target v : Node} {c : Site}
  {name : String} {stack : List Level} {m : Machine} {k : ClosureId}

theorem refs_items (σ : State) : (busy w kept limit source σ).items.flatMap Item.refs =
    heldBy σ.stack ++ outside w kept source := by
  have hstack : (σ.stack.flatMap Level.items).flatMap Item.refs = heldBy σ.stack := by
    rw [List.flatMap_assoc]
    rfl
  have hsessions (sessions : List Session) :
      (sessions.map fun session => Item.scope session.global).flatMap Item.refs =
        sessions.map fun session => .frame session.global := by
    induction sessions with
    | nil => rfl
    | cons session sessions ih => exact congrArg _ ih
  simp only [items, busy, Option.toList_some, List.flatMap_cons, List.flatMap_nil,
    List.flatMap_append, List.append_nil, List.append_assoc, hstack, hsessions, refs_values]
  rfl

/-- **Held only here**: no value that is held is the closure. -/
theorem isOnlyHeldHere_iff_unheld
    (hS : (busy w kept limit source ⟨.yield v, ⟨c, .define target name⟩ :: stack, m⟩).Fits)
    (hv : v.value = .procedure (.closure k)) :
    m.store.isOnlyHeldHere (c.held (outside w kept source) stack) k = true ↔
      ∀ u, (busy w kept limit source ⟨.yield v, ⟨c, .define target name⟩ :: stack, m⟩).Holds u →
        u ≠ .procedure (.closure k) := by
  generalize hscene : busy w kept limit source ⟨.yield v, ⟨c, .define target name⟩ :: stack, m⟩ = S
    at hS ⊢
  have hstore : S.store = m.store := by
    rw [← hscene]
    rfl
  have hitems : S.items.flatMap Item.refs = c.held (outside w kept source) stack := by
    rw [← hscene, refs_items, heldBy_cons]
    rfl
  have hroots : S.roots = .closure k :: c.held (outside w kept source) stack := by
    rw [roots, hitems, ← hscene]
    change (v.value.refs ++ []) ++ _ = _
    rw [hv]
    rfl
  have hk : m.store.Has (.closure k) := by
    have hcontrol : v.Refers S.store := by
      rw [← hscene] at hS ⊢
      exact (hS.state _ rfl).control
    rw [← hstore]
    refine hcontrol (.closure k) ?_
    rw [Node.refs, hv]
    exact List.mem_cons_self
  have hheld : ∀ r ∈ c.held (outside w kept source) stack, m.store.Has r := by
    intro r hr
    rw [← hitems] at hr
    obtain ⟨i, hi, hr⟩ := List.mem_flatMap.1 hr
    exact hstore ▸ refers_of_mem_items hS i hi r hr
  have hwhole : m.store.Whole := hstore ▸ hS.world.whole
  rw [Store.isOnlyHeldHere_iff hwhole.closed hwhole.settled hheld hk, ← hroots, ← hitems, ← hstore]
  constructor
  · rintro ⟨hnot, hdropped⟩ u hu rfl
    cases hu with
    | @item i _ hi hvalue =>
      refine hnot (List.mem_flatMap.2 ⟨i, hi, ?_⟩)
      rw [Item.refs_of_value? hvalue]
      exact List.mem_cons_self
    | @object o _ ho hvalue =>
      exact ho.2 (hdropped o ho.1 (Store.mem_references_of_values hvalue List.mem_cons_self))
  · intro hunheld
    refine ⟨fun hmem => ?_, fun o ho hko => ?_⟩
    · obtain ⟨i, hi, hki⟩ := List.mem_flatMap.1 hmem
      exact hunheld _ (.item hi (Item.value?_of_closure_mem_refs hki)) rfl
    · by_contra halive
      exact hunheld _ (.object ⟨ho, halive⟩ (Store.mem_values_of_references hko)) rfl

end

/-- **When a closure is named** nobody sees it. -/
theorem Naming.names (hS : S.Fits) {k : ClosureId} {name : String} (h : Naming k name S T) :
    S.Names T k name := by
  cases h with
  | @intro w kept limit source σ τ h =>
    have hσ : σ.Fits := hS.state _ rfl
    obtain ⟨-, -, hname⟩ := h.fits hσ
    cases h with
    | @intro m c target span stack log unnamed only =>
      have hunheld := (isOnlyHeldHere_iff_unheld hS rfl).1 only
      refine ⟨⟨_, _, c, target, stack, rfl, rfl, rfl, rfl, ?_⟩, unnamed, ?_, hunheld, ?_⟩
      · exact (hσ.stack _ List.mem_cons_self).form
      · exact (hname k).trans (if_pos rfl)
      · intro v hv
        have hcell (d : CellId) : ((m.store.nameClosure k name).defineGlobal c.frame name
            ⟨.procedure (.closure k), span⟩).cell d = m.store.cell d := rfl
        refine Store.text_congr (fun _ => hcell _) (fun half hc => Holds.half hS hc half)
          (fun {l} hl => ?_) hv
        have hne : l ≠ k := by
          rintro rfl
          exact hunheld _ hl rfl
        exact (hname l).trans (if_neg hne)

/-- **A closure without a name is named** by a `define` if nothing else holds it. -/
theorem name_of_defines (hS : S.Fits) (hst : Step S T) {k : ClosureId} {name : String}
    (hd : S.Defines k name) (hnone : (S.store.closure k).name = none)
    (hunheld : ∀ v, S.Holds v → v ≠ .procedure (.closure k)) :
    (T.store.closure k).name = some name := by
  obtain ⟨p, v, c, target, rest, hp, hcontrol, hv, hstack, -⟩ := hd
  cases hst with
  | @advance w kept limit source σ τ hn =>
    obtain ⟨control, stack, m⟩ := σ
    cases hp
    cases hcontrol
    cases hstack
    cases hn
    have honly := (isOnlyHeldHere_iff_unheld hS hv).2 hunheld
    have hnaming := Level.resume_naming hv hnone honly target name
    obtain ⟨-, -, hname⟩ := hnaming.fits (hS.state _ rfl)
    exact (hname k).trans (if_pos rfl)
  | value | keep | failure =>
    cases hp
    cases hstack
  | opens | evaluate | command | closes | log | fetch | forget | bind => cases hp

/-- **One step** leaves the name of a closure alone or gives it one. -/
theorem Fits.step_name (hS : S.Fits) (hst : Step S T) {k : ClosureId}
    (hk : S.store.Has (.closure k)) :
    (T.store.closure k).name = (S.store.closure k).name ∨ ∃ name, S.Names T k name := by
  obtain ⟨-, -, hleads | ⟨l, name, hnaming⟩⟩ := hS.step hst
  · exact .inl (hleads.name hk)
  · by_cases heq : k = l
    · subst heq
      exact .inr ⟨name, hnaming.names hS⟩
    · refine .inl ?_
      cases hnaming with
      | @intro w kept limit source σ τ h =>
        obtain ⟨-, -, hname⟩ := h.fits (hS.state _ rfl)
        exact (hname k).trans (if_neg heq)

/-- **A run** leaves a name alone once it is there. -/
theorem Fits.run_name (hS : S.Fits) (hr : Reaches S T) {k : ClosureId} {name : String}
    (hk : S.store.Has (.closure k)) (hname : (S.store.closure k).name = some name) :
    (T.store.closure k).name = some name := by
  induction hr with
  | refl => exact hname
  | @tail U V hru hst ih =>
    obtain ⟨hU, hextends⟩ := hS.run hru
    rcases hU.step_name hst (hextends.has hk) with hsame | ⟨other, hnames⟩
    · exact hsame.trans ih
    · cases hnames.before.symm.trans ih

end Scene

/-- **Naming is written once and unseen.** Scripts are runs of a host that keeps nothing. In every
step of every run, of hosts that keep values too, a closure that exists has the name that it had, or
it has been named: it had no name, and it is the value of a `define` form whose target is the name.
Then no value that is held anywhere else is the closure, and all of them are printed as before. A
closure without a name gets one at a `define` form if no value that is held is the closure. Once
there is a name it stays. -/
theorem naming_is_written_once_and_unseen :
    (∀ recording limits, (Scene.idle (World.ofLimits recording limits) []).Reached) ∧
      (∀ w script, Scene.Reaches (.idle w []) (.idle (w.run script).2 [])) ∧
      ∀ S : Scene, S.Reached → ∀ k, S.store.Has (.closure k) →
        (∀ T, S.Step T →
          (T.store.closure k).name = (S.store.closure k).name ∨ ∃ name, S.Names T k name) ∧
        (∀ T name, S.Step T → S.Defines k name → (S.store.closure k).name = none →
          (∀ v, S.Holds v → v ≠ .procedure (.closure k)) →
          (T.store.closure k).name = some name) ∧
        ∀ T name, S.Reaches T → (S.store.closure k).name = some name →
          (T.store.closure k).name = some name := by
  refine ⟨Scene.reached_ofLimits, Scene.reaches_run, fun S hS k hk => ⟨?_, ?_, ?_⟩⟩
  · exact fun T hst => hS.fits.step_name hst hk
  · exact fun T name hst hd hnone hunheld => Scene.name_of_defines hS.fits hst hd hnone hunheld
  · exact fun T name hr hname => hS.fits.run_name hr hk hname

/-! ## A run to look at -/

/-- The state after `n` steps, or the last one if there are no more. -/
def State.advance (limit : Nat) (outside : List Ref) (σ : State) : Nat → State
  | 0 => σ
  | n + 1 => ((advance limit outside σ n).next? limit outside).getD (advance limit outside σ n)

/-- The state at the start of an evaluation. -/
def World.starting (w : World) (session : Session) (text : String) (d : Datum) : State :=
  ⟨.evaluate session.limit (w.store.load d).1 session.global, [], w.machine.reading text d⟩

/-- The scene after `n` steps of the evaluation of a source. -/
def World.watch (w : World) (kept : List Node) (session : Session) (text : String) (n : Nat) :
    Option Scene :=
  match parse session.limit text with
  | .ok d => some (.busy w kept session.limit (w.store.load d).1 (State.advance session.limit
      (Scene.outside w kept (w.store.load d).1) (w.starting session text d) n))
  | .error _ => none

section

variable {w : World} {kept : List Node} {session : Session} {text : String} {n : Nat} {S T : Scene}

theorem State.advance_succ (limit : Nat) (outside : List Ref) (σ : State) (n : Nat) :
    State.advance limit outside σ (n + 1) = State.advance limit outside σ n ∨
      (State.advance limit outside σ n).next? limit outside =
        some (State.advance limit outside σ (n + 1)) := by
  rw [State.advance]
  cases (State.advance limit outside σ n).next? limit outside with
  | none => exact .inl rfl
  | some τ => exact .inr rfl

theorem World.watch_of_some (h : w.watch kept session text n = some S) :
    ∃ d, parse session.limit text = .ok d ∧ ∀ n, w.watch kept session text n =
      some (.busy w kept session.limit (w.store.load d).1 (State.advance session.limit
        (Scene.outside w kept (w.store.load d).1) (w.starting session text d) n)) := by
  unfold World.watch at h ⊢
  cases hd : parse session.limit text with
  | error e =>
    rw [hd] at h
    cases h
  | ok d => exact ⟨d, rfl, fun _ => rfl⟩

theorem World.step_watch (hS : w.watch kept session text n = some S)
    (hT : w.watch kept session text (n + 1) = some T) : T = S ∨ S.Step T := by
  obtain ⟨d, -, hwatch⟩ := World.watch_of_some hS
  cases (hwatch n).symm.trans hS
  cases (hwatch (n + 1)).symm.trans hT
  rcases State.advance_succ session.limit (Scene.outside w kept (w.store.load d).1)
    (w.starting session text d) n with hsame | hnext
  · rw [hsame]
    exact .inl rfl
  · exact .inr (.advance hnext)

theorem World.reaches_watch {i : Nat} (hs : w.session? i = some session)
    (hS : w.watch kept session text n = some S) : Scene.Reaches (.idle w kept) S := by
  obtain ⟨d, hd, hwatch⟩ := World.watch_of_some hS
  induction n generalizing S with
  | zero =>
    cases (hwatch 0).symm.trans hS
    exact .single (.evaluate hs hd)
  | succ n ih =>
    have hn := ih (hwatch n)
    rcases World.step_watch (hwatch n) hS with rfl | hst
    · exact hn
    · exact hn.tail hst

end

/-- A `define` after another expression: the closure of the first one is still held when the second
one is named, and it is printed as before. The name stays, whatever comes after. -/
theorem naming_is_written_once_and_unseen_beside_pending :
    ∃ S T : Scene, S.Reached ∧ S.store.Has (.closure ⟨1⟩) ∧ S.Step T ∧ S.Names T ⟨1⟩ "f" ∧
      S.Holds (.procedure (.closure ⟨0⟩)) ∧
      ∀ U, T.Reaches U → (U.store.closure ⟨1⟩).name = some "f" := by
  let w := World.ofLimits false [9]
  let text := "(begin (lambda (y) y) (define f (lambda (x) x)))"
  have hbefore : (w.watch [] ⟨⟨0⟩, 9, true⟩ text 5).any (fun S =>
      decide (1 < S.store.closures.size) && (S.store.closure ⟨1⟩).name == none &&
        S.items.contains (.value (.procedure (.closure ⟨0⟩)))) = true := by decide +kernel
  have hafter : (w.watch [] ⟨⟨0⟩, 9, true⟩ text 6).any (fun T =>
      (T.store.closure ⟨1⟩).name == some "f") = true := by decide +kernel
  obtain ⟨S, hS⟩ : ∃ S, w.watch [] ⟨⟨0⟩, 9, true⟩ text 5 = some S :=
    Option.isSome_iff_exists.1 (by decide +kernel)
  obtain ⟨T, hT⟩ : ∃ T, w.watch [] ⟨⟨0⟩, 9, true⟩ text 6 = some T :=
    Option.isSome_iff_exists.1 (by decide +kernel)
  rw [hS] at hbefore
  rw [hT] at hafter
  simp only [Option.any_some, Bool.and_eq_true, decide_eq_true_eq, beq_iff_eq,
    List.contains_iff_mem] at hbefore hafter
  obtain ⟨⟨hhas, hnone⟩, hitem⟩ := hbefore
  obtain ⟨hlimits, -, hsteps⟩ := naming_is_written_once_and_unseen
  have hsession : w.session? 0 = some ⟨⟨0⟩, 9, true⟩ := by decide +kernel
  have hreached {V : Scene} (hV : Scene.Reaches (.idle w []) V) : V.Reached := by
    obtain ⟨recording, hw⟩ := hlimits false [9]
    exact ⟨recording, hw.trans hV⟩
  have hSreached := hreached (World.reaches_watch hsession hS)
  have hst : S.Step T := by
    refine (World.step_watch hS hT).resolve_left ?_
    rintro rfl
    cases hnone.symm.trans hafter
  obtain ⟨hstep, -, -⟩ := hsteps S hSreached ⟨1⟩ hhas
  obtain hsame | ⟨name, hnames⟩ := hstep T hst
  · cases (hafter.symm.trans hsame).trans hnone
  · cases hnames.after.symm.trans hafter
    have hTreached := hreached (World.reaches_watch hsession hT)
    have hThas : T.store.Has (.closure ⟨1⟩) := (hSreached.fits.step hst).2.1.has hhas
    refine ⟨S, T, hSreached, hhas, hst, hnames, .item hitem rfl, fun U hU => ?_⟩
    exact (hsteps T hTreached ⟨1⟩ hThas).2.2 U "f" hU hafter

end MiniScheme
