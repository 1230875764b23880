import MiniScheme.Proofs.Primitives
import MiniScheme.Proofs.Registration.Alive

/-!
# Live frames are registered

A frame beneath a global one is entered in the registry of that global frame when it is made, and it
is taken out only while nobody holds it. What nobody holds is never held again. So every frame that
is alive is in the registry of its own global frame, however deep it lies and whatever refers to it.
`Tracked` says this of a store.

A release gives the registry up. The frames that were in it are empty from then on, as names are
only bound in frames that have some and in global ones. `ended` tells which global frames have been
released.

## Results

* `mem_prune`: pruning takes out the frames that nobody holds.
* `Tracked.enclose`, `Tracked.bind` and so on: the operations of an evaluation.
* `Tracked.emptied_release`, `Tracked.release`: what a release empties, and what holds afterwards.
-/

namespace MiniScheme

namespace Store

variable {s t : Store} {roots roots' : List Ref}

/-! ## Pruning -/

theorem frame_not_mem_refs (n : Node) (f : FrameId) : Ref.frame f ∉ n.refs := by
  obtain ⟨v, span⟩ := n
  match v with
  | .pair c => simp [Node.refs, Value.refs]
  | .procedure (.closure k) => simp [Node.refs, Value.refs, Procedure.refs]
  | .procedure (.primitive p) => simp [Node.refs, Value.refs, Procedure.refs]
  | .atom _ | .nil | .unspecified => simp [Node.refs, Value.refs]

/-- An object that refers to a frame is a frame beneath it or a closure over it. -/
theorem frame_mem_references {o : Ref} {f : FrameId} (h : .frame f ∈ s.references o) :
    (∃ g, o = .frame g ∧ (s.frame g).outer = some f) ∨
      ∃ k, o = .closure k ∧ (s.closure k).frame = f := by
  cases o with
  | cell c =>
    rcases List.mem_append.1 h with h | h
    · exact absurd h (frame_not_mem_refs _ f)
    · exact absurd h (frame_not_mem_refs _ f)
  | frame g =>
    rcases List.mem_append.1 h with h | h
    · obtain ⟨f', ho, hf⟩ := Option.map_eq_some_iff.1 (Option.mem_toList.1 h)
      exact .inl ⟨g, rfl, Ref.frame.inj hf ▸ ho⟩
    · obtain ⟨e, -, h⟩ := List.mem_flatMap.1 h
      exact absurd h (frame_not_mem_refs _ f)
  | closure k =>
    rcases List.mem_append.1 h with h | h
    · exact absurd h (frame_not_mem_refs _ f)
    · exact .inr ⟨k, rfl, (Ref.frame.inj (List.mem_singleton.1 h)).symm⟩

/-- If the scan finds nothing then no object refers to a frame of the registry. -/
theorem not_mem_references_of_refersInto {r : Registry} (h : s.refersInto r = false) {f : FrameId}
    (hf : f ∈ r.frames) {o : Ref} (ho : s.Has o) : .frame f ∉ s.references o := by
  have hfirst : (r.frames.toList.map FrameId.index).min?.getD 0 ≤ f.index :=
    List.min?_getD_le_of_mem (List.mem_map_of_mem hf.val)
  have hregistered : (decide ((r.frames.toList.map FrameId.index).min?.getD 0 ≤ f.index) &&
      r.frames.contains f) = true := by
    simp [hfirst, hf]
  rw [refersInto, Bool.or_eq_false_iff, Array.any_eq_false, Array.any_eq_false] at h
  intro hmem
  rcases frame_mem_references hmem with ⟨g, rfl, houter⟩ | ⟨k, rfl, hframe⟩
  · refine h.1 g.index ho ?_
    rw [frame, Array.getElem?_eq_getElem ho, Option.getD_some] at houter
    rw [houter]
    exact hregistered
  · refine h.2 k.index ho ?_
    rw [closure, Array.getElem?_eq_getElem ho, Option.getD_some] at hframe
    rw [hframe]
    exact hregistered

/-- **Pruning** takes out the frames that nobody holds and no others. -/
theorem mem_prune (hs : s.Whole) (hroots : ∀ q ∈ roots, s.Has q) {r : Registry} {f : FrameId}
    (hhas : s.Has (.frame f)) :
    f ∈ (s.prune roots r).frames ↔ f ∈ r.frames ∧ s.Alive roots (.frame f) := by
  refine Array.mem_filter.trans (and_congr_right fun hf => ?_)
  rw [bne_iff_ne, Ne, Alive, and_iff_right hhas, not_iff_not]
  split
  · exact holders_eq_zero_iff hs.closed hroots hhas
  · rename_i hscan
    rw [((Census.counts_zero s).addAll hroots).count _ hhas, List.nil_append, List.count_eq_zero]
    refine ⟨fun hroot => .intro hroot fun o ho hmem => absurd hmem ?_, fun ⟨hroot, _⟩ => hroot⟩
    exact not_mem_references_of_refersInto (Bool.eq_false_iff.2 hscan) hf ho

theorem mem_register (hs : s.Whole) (hroots : ∀ q ∈ roots, s.Has q) {r : Registry} {f g : FrameId}
    (hf : f ∈ r.frames) (halive : s.Alive roots (.frame f)) :
    f ∈ (s.register roots r g).frames := by
  unfold register
  split
  · exact Array.mem_push.2 (.inl ((mem_prune hs hroots halive.1).2 ⟨hf, halive⟩))
  · exact Array.mem_push.2 (.inl hf)

theorem mem_register_self (r : Registry) (g : FrameId) : g ∈ (s.register roots r g).frames := by
  unfold register
  split <;> exact Array.mem_push.2 (.inr rfl)

theorem of_mem_register {r : Registry} {f g : FrameId} (h : f ∈ (s.register roots r g).frames) :
    f ∈ r.frames ∨ f = g := by
  unfold register at h
  split at h
  · exact (Array.mem_push.1 h).imp_left fun hf => (Array.mem_filter.1 hf).1
  · exact Array.mem_push.1 h

/-! ## The invariant -/

/-- **Every frame that is alive is registered** with its global frame, or that one has been released
and the frame is empty. -/
structure Tracked (s : Store) (ended : FrameId → Prop) (roots : List Ref) : Prop where
  whole : s.Whole
  has : ∀ r ∈ roots, s.Has r
  beneath : ∀ {f g}, f ∈ (s.registries.of g).frames → s.Has (.frame f) ∧ s.root f = g
  registered : ∀ {f o}, (s.frame f).outer = some o → s.Alive roots (.frame f) →
    f ∈ (s.registries.of (s.root f)).frames ∨
      ended (s.root f) ∧ (s.frame f).bindings = .empty

/-- The global frame of a chain stays the same. -/
theorem Extends.root (h : s.Extends t) (hs : s.Whole) {f : FrameId} (hf : s.Has (.frame f)) :
    t.root f = s.root f := by
  induction f using hs.forest.outward_induction with
  | global f ho => rw [root_of_global ho, root_of_global ((h.outer hf).trans ho)]
  | inner f g ho hlt ih =>
    rw [root_of_outer ho hlt, root_of_outer ((h.outer hf).trans ho) hlt]
    exact ih (Nat.lt_trans hlt hf)

theorem has_of_outer {f o : FrameId} (h : (s.frame f).outer = some o) : s.Has (.frame f) := by
  by_contra hnot
  rw [frame_of_not_has hnot] at h
  cases h

namespace Tracked

variable {ended ended' : FrameId → Prop}

theorem alive (h : s.Tracked ended roots) {r : Ref} (hr : r ∈ roots) : s.Alive roots r :=
  alive_of_mem (h.has r hr) hr

/-- Other roots that are alive. -/
theorem of_alive (h : s.Tracked ended roots) (hroots : ∀ r ∈ roots', s.Alive roots r) :
    s.Tracked ended roots' where
  whole := h.whole
  has r hr := (hroots r hr).1
  beneath := h.beneath
  registered ho halive := h.registered ho (halive.of_roots hroots)

/-- Fewer roots. -/
theorem mono (h : s.Tracked ended roots) (hroots : roots' ⊆ roots) : s.Tracked ended roots' :=
  h.of_alive fun _ hr => h.alive (hroots hr)

/-- What was held for a while is held no longer. -/
theorem drop {refs more : List Ref} (h : s.Tracked ended (refs ++ (more ++ roots))) :
    s.Tracked ended (refs ++ roots) := by
  refine h.mono (List.append_subset.2 ⟨List.subset_append_left _ _, fun r hr => ?_⟩)
  exact List.mem_append_right _ (List.mem_append_right _ hr)

/-- More objects are held that are alive anyway. -/
theorem hold (h : s.Tracked ended roots) {refs : List Ref}
    (hrefs : ∀ r ∈ refs, s.Alive roots r) : s.Tracked ended (refs ++ roots) :=
  h.of_alive (List.forall_mem_append.2 ⟨hrefs, fun _ hr => h.alive hr⟩)

/-- More global frames that count as released. -/
theorem of_ended (h : s.Tracked ended roots) (hended : ∀ f, ended f → ended' f) :
    s.Tracked ended' roots where
  whole := h.whole
  has := h.has
  beneath := h.beneath
  registered ho halive := (h.registered ho halive).imp_right (And.imp_left (hended _))

/-- **What an operation has to keep** if it makes no frames but global ones: it gives no references
to dropped objects, and it binds no name in a frame beneath another one that has none. -/
theorem later (h : s.Tracked ended roots) (hextends : s.Extends t) (hwhole : t.Whole)
    (hregistries : t.registries = s.registries) (hhas : ∀ r ∈ roots', t.Has r)
    (halive : ∀ {r}, t.Alive roots' r → s.Has r → s.Alive roots r)
    (hframe : ∀ {f o}, (t.frame f).outer = some o →
      s.Has (.frame f) ∧ ((s.frame f).bindings = .empty → (t.frame f).bindings = .empty)) :
    t.Tracked ended roots' where
  whole := hwhole
  has := hhas
  beneath {f g} hmem := by
    rw [hregistries] at hmem
    obtain ⟨hf, hroot⟩ := h.beneath hmem
    exact ⟨hextends.has hf, (hextends.root h.whole hf).trans hroot⟩
  registered {f o} ho hf := by
    obtain ⟨hold, hempty⟩ := hframe ho
    rw [hregistries, hextends.root h.whole hold]
    rw [hextends.outer hold] at ho
    exact (h.registered ho (halive hf hold)).imp_right fun ⟨hended, hnone⟩ => ⟨hended, hempty hnone⟩

/-! ## New objects -/

/-- An object that refers to what is alive, and is no frame unless a global one. -/
theorem add (h : s.Tracked ended roots) {r₀ : Ref} (ha : s.Adds t r₀) (hleads : s.LeadsTo t)
    (hregistries : t.registries = s.registries) (hrefs : ∀ q ∈ t.references r₀, s.Alive roots q)
    (hframe : ∀ {f}, r₀ = .frame f → (t.frame f).outer = none) :
    t.Tracked ended (r₀ :: roots) := by
  refine h.later hleads.toExtends hleads.whole hregistries ?_
    (ha.alive hrefs fun _ hq => h.alive hq) fun {f o} ho => ?_
  · exact List.forall_mem_cons.2 ⟨(ha.has _).2 (.inr rfl), fun r hr => hleads.has (h.has r hr)⟩
  · rcases (ha.has _).1 (has_of_outer ho) with hold | rfl
    · refine ⟨hold, fun hempty => ?_⟩
      rwa [show t.frame f = s.frame f from ha.same _ hold]
    · cases (hframe rfl).symm.trans ho

theorem newCell (h : s.Tracked ended roots) {car cdr : Node}
    (hcar : ∀ r ∈ car.refs, s.Alive roots r) (hcdr : ∀ r ∈ cdr.refs, s.Alive roots r) :
    (s.newCell car cdr).2.Tracked ended (.cell (s.newCell car cdr).1 :: roots) := by
  obtain ⟨hleads, -⟩ := h.whole.leadsTo_newCell (fun r hr => (hcar r hr).1)
    (fun r hr => (hcdr r hr).1) default
  refine h.add (s.adds_newCell car cdr) hleads rfl (fun q hq => ?_) nofun
  rw [references, cell_newCell, if_pos rfl] at hq
  exact (List.mem_append.1 hq).elim (hcar q) (hcdr q)

theorem newTail (h : s.Tracked ended roots) (stop : Nat) {items : List Node}
    (hitems : ∀ x ∈ items, x.refs ⊆ roots) :
    (s.newTail stop items).2.Tracked ended ((s.newTail stop items).1.refs ++ roots) := by
  induction items with
  | nil => exact h
  | cons item items ih =>
    obtain ⟨hitem, hitems⟩ := List.forall_mem_cons.1 hitems
    have htail := ih hitems
    have hcell := htail.newCell
      (fun r (hr : r ∈ item.refs) => htail.alive (List.mem_append_right _ (hitem hr)))
      fun r (hr : r ∈ (s.newTail stop items).1.refs) => htail.alive (List.mem_append_left _ hr)
    exact hcell.mono (List.cons_subset_cons _ (List.subset_append_right _ _))

theorem newClosure (h : s.Tracked ended roots) {k : Closure} (hbody : k.body.refs ⊆ roots)
    (hframe : .frame k.frame ∈ roots) :
    (s.newClosure k).2.Tracked ended (.closure (s.newClosure k).1 :: roots) := by
  obtain ⟨hleads, -⟩ := h.whole.leadsTo_newClosure (k := k) (h.has _ hframe)
    (fun r hr => h.has r (hbody hr)) default
  refine h.add (s.adds_newClosure k) hleads rfl (fun q hq => h.alive ?_) nofun
  rw [references, closure_newClosure, if_pos rfl] at hq
  rcases List.mem_append.1 hq with hq | hq
  · exact hbody hq
  · rw [List.mem_singleton.1 hq]
    exact hframe

theorem newPopulated (h : s.Tracked ended roots) :
    s.newPopulated.2.Tracked ended (.frame s.newPopulated.1 :: roots) := by
  have hadds : s.Adds s.newPopulated.2 (.frame s.newPopulated.1) := s.adds_newFrame none _
  have hframe : s.newPopulated.2.frame s.newPopulated.1 = ⟨none, primitiveBindings⟩ :=
    (s.frame_newFrame none primitiveBindings _).trans (if_pos rfl)
  obtain ⟨hleads, -⟩ := h.whole.leadsTo_newPopulated
  refine h.add hadds hleads rfl (fun q hq => ?_) fun hg => ?_
  · rw [references, hframe] at hq
    obtain ⟨e, he, hq⟩ := List.mem_flatMap.1 hq
    obtain ⟨entry, hentry, heq⟩ := (exists_of_mem_insertAll he).resolve_right List.not_mem_nil
    obtain ⟨p, -, rfl⟩ := List.mem_map.1 hentry
    rw [heq] at hq
    cases hq
  · rw [← Ref.frame.inj hg, hframe]

/-! ## Changes -/

/-- A cell or a closure with other content. -/
theorem change (h : s.Tracked ended roots) {r₀ : Ref} (hc : s.Changes t r₀)
    (hextends : s.Extends t) (hwhole : t.Whole) (hregistries : t.registries = s.registries)
    (hrefs : ∀ q ∈ t.references r₀, q ∈ s.references r₀ ∨ s.Alive roots q)
    (hframe : ∀ {f}, r₀ = .frame f → (s.frame f).outer = none ∨ (s.frame f).bindings ≠ .empty) :
    t.Tracked ended roots := by
  refine h.later hextends hwhole hregistries (fun r hr => hextends.has (h.has r hr))
    (fun halive _ => hc.alive hrefs halive) fun {f o} ho => ?_
  have hf := (hc.has _).1 (has_of_outer ho)
  refine ⟨hf, fun hempty => ?_⟩
  by_cases heq : r₀ = .frame f
  · rw [hextends.outer hf] at ho
    rcases hframe heq with hnone | hsome
    · cases ho.symm.trans hnone
    · exact absurd hempty hsome
  · rw [show t.frame f = s.frame f from hc.same _ (Ne.symm heq)]
    exact hempty

theorem setHalf (h : s.Tracked ended roots) (c : CellId) (half : Half) {n : Node}
    (hn : n.refs ⊆ roots) : (s.setHalf c half n).Tracked ended roots := by
  have hleads := h.whole.leadsTo_setHalf c half fun r hr => h.has r (hn hr)
  refine h.change (s.changes_setHalf c half n) hleads.toExtends hleads.whole rfl (fun q hq => ?_)
    nofun
  have hhalf (half' : Half) (hq : q ∈ (((s.setHalf c half n).cell c).half half').refs) :
      q ∈ s.references (.cell c) ∨ s.Alive roots q := by
    rcases half_setHalf s c c half half' n with heq | heq <;> rw [heq] at hq
    · exact .inr (h.alive (hn hq))
    · refine .inl (List.mem_append.2 ?_)
      cases half' with
      | car => exact .inl hq
      | cdr => exact .inr hq
  exact (List.mem_append.1 hq).elim (hhalf .car) (hhalf .cdr)

theorem nameClosure (h : s.Tracked ended roots) (k : ClosureId) (name : String) :
    (s.nameClosure k name).Tracked ended roots := by
  obtain ⟨hwhole, hextends⟩ := h.whole.whole_nameClosure k name
  refine h.change (s.changes_nameClosure k name) hextends hwhole rfl (fun q hq => .inl ?_) nofun
  rw [references, closure_nameClosure] at hq
  split at hq <;> exact hq

/-- A value is bound in a global frame, or in one that has names. -/
theorem bind (h : s.Tracked ended roots) {f : FrameId} {name : String} {n : Node}
    (hn : n.refs ⊆ roots) (hf : (s.frame f).outer = none ∨ (s.frame f).bindings ≠ .empty) :
    (s.bind f name n).Tracked ended roots := by
  have hleads := h.whole.leadsTo_bind f name fun r hr => h.has r (hn hr)
  refine h.change (s.changes_bind f name n) hleads.toExtends hleads.whole rfl (fun q hq => ?_) ?_
  · rw [references, frame_bind] at hq
    split at hq
    · rcases List.mem_append.1 hq with hq | hq
      · exact .inl (List.mem_append_left _ hq)
      · obtain ⟨e, he, hq⟩ := List.mem_flatMap.1 hq
        rcases mem_insertEntry he with heq | he
        · rw [heq] at hq
          exact .inr (h.alive (hn hq))
        · exact .inl (List.mem_append_right _ (List.mem_flatMap.2 ⟨e, he, hq⟩))
    · exact .inl hq
  · rintro _ ⟨⟩
    exact hf

theorem defineGlobal (h : s.Tracked ended roots) (f : FrameId) {name : String} {n : Node}
    (hn : n.refs ⊆ roots) : (s.defineGlobal f name n).Tracked ended roots :=
  h.bind hn (.inl (h.whole.forest.outer_root f))

/-- An assignment binds a name that the frame has. -/
theorem bind_owner (h : s.Tracked ended roots) {f g : FrameId} {name : String} {n : Node}
    (hn : n.refs ⊆ roots) (hg : s.owner? f name = some g) : (s.bind g name n).Tracked ended roots :=
  h.bind hn <| .inr fun hempty => by
    have hname := mem_namesOf_owner hg
    rw [namesOf, hempty] at hname
    exact List.not_mem_nil hname

theorem nameFresh (h : s.Tracked ended roots) (held : List Ref) (v : Value) (name : String) :
    (MiniScheme.nameFresh held v name s).Tracked ended roots := by
  unfold MiniScheme.nameFresh
  split
  · split
    · exact h.nameClosure _ name
    · exact h
  · exact h

/-- **A primitive** that is given what is held. -/
theorem primitive (h : s.Tracked ended roots) {p : Primitive} {span : Span}
    {change : Store → Node × Store} (hc : p.Change (fun n => n.refs ⊆ roots) span change) :
    (change s).2.Tracked ended ((change s).1.refs ++ roots) := by
  cases hc with
  | integer n => exact h
  | boolean b => exact h
  | list hargs _ => exact h.newTail span.stop hargs
  | cons ha hb => exact h.newCell (fun r hr => h.alive (ha hr)) fun r hr => h.alive (hb hr)
  | @half half a c ha hc =>
    have hcell : .cell c ∈ roots := ha (by rw [Node.refs, hc]; exact List.mem_cons_self)
    exact h.hold fun r hr => alive_half h.whole (h.alive hcell) half hr
  | setHalf half ha hb hc _ => exact h.setHalf _ half hb

/-! ## A frame beneath another one -/

/-- Registries hold on to nothing. -/
theorem alive_of_withRegistries {r : Registries} {q : Ref}
    (h : Alive { s with registries := r } roots q) : s.Alive roots q :=
  alive_before (t := { s with registries := r }) (fun _ hq hhas => alive_of_mem hhas hq)
    (fun _ _ ho hq _ => .inl ⟨ho, hq⟩) h h.1

theorem of_registries_track (s : Store) (roots : List Ref) (f g : FrameId) :
    (s.track roots f).registries.of g =
      if s.root f = g then s.register roots (s.registries.of g) f else s.registries.of g := by
  rw [track, Registries.of_insert]
  split
  · rename_i hg
    rw [hg]
  · rfl

/-- **Registration.** What holds of all frames but one holds of all once that one is registered. -/
theorem track (hwhole : s.Whole) (hhas : ∀ r ∈ roots, s.Has r) {g : FrameId}
    (hg : s.Has (.frame g))
    (hbeneath : ∀ {f x}, f ∈ (s.registries.of x).frames → s.Has (.frame f) ∧ s.root f = x)
    (hregistered : ∀ {f o}, f ≠ g → (s.frame f).outer = some o → s.Alive roots (.frame f) →
      f ∈ (s.registries.of (s.root f)).frames ∨
        ended (s.root f) ∧ (s.frame f).bindings = .empty) :
    (s.track roots g).Tracked ended roots := by
  have hleads : s.LeadsTo (s.track roots g) := hwhole.leadsTo_withRegistries _
  have hroot {f : FrameId} (hf : s.Has (.frame f)) : (s.track roots g).root f = s.root f :=
    hleads.root hwhole hf
  refine ⟨hleads.whole, hhas, fun {f x} hmem => ?_, fun {f o} ho halive => ?_⟩
  · have hf : s.Has (.frame f) ∧ s.root f = x := by
      rw [of_registries_track] at hmem
      split at hmem
      · rename_i hx
        rcases of_mem_register hmem with hmem | rfl
        · exact hbeneath hmem
        · exact ⟨hg, hx⟩
      · exact hbeneath hmem
    exact ⟨hf.1, (hroot hf.1).trans hf.2⟩
  · have hf := alive_of_withRegistries (s := s) halive
    rw [hroot hf.1, of_registries_track]
    by_cases heq : f = g
    · subst heq
      rw [if_pos rfl]
      exact .inl (mem_register_self _ _)
    · refine (hregistered heq ho hf).imp_left fun hmem => ?_
      split
      · exact mem_register hwhole hhas hmem hf
      · exact hmem

/-- **A frame beneath another one** is registered, and so are those that are alive beside it. -/
theorem enclose (h : s.Tracked ended roots) {held : List Ref} (hheld : held ⊆ roots) {f : FrameId}
    (hf : s.Alive roots (.frame f)) {entries : List (String × Node)}
    (hentries : ∀ e ∈ entries, e.2.refs ⊆ roots) :
    (s.enclose held f entries).2.Tracked ended (.frame (s.enclose held f entries).1 :: held) := by
  have hframe := s.frame_newFrame (some f) (Table.empty.insertAll entries)
  have hadds := s.adds_newFrame (some f) (Table.empty.insertAll entries)
  obtain ⟨hleads, hg⟩ := h.whole.leadsTo_newFrame
    (fun g (hg : some f = some g) => Option.some.inj hg ▸ hf.1)
    fun e (he : e ∈ entries) r hr => h.has r (hentries e he hr)
  have hregistries : (s.newFrame (some f) (Table.empty.insertAll entries)).2.registries =
      s.registries := rfl
  change ((s.newFrame (some f) (Table.empty.insertAll entries)).2.track
    (.frame (s.newFrame (some f) (Table.empty.insertAll entries)).1 :: held)
    (s.newFrame (some f) (Table.empty.insertAll entries)).1).Tracked ended
    (.frame (s.newFrame (some f) (Table.empty.insertAll entries)).1 :: held)
  generalize (s.newFrame (some f) (Table.empty.insertAll entries)).1 = g at hframe hadds hg ⊢
  generalize (s.newFrame (some f) (Table.empty.insertAll entries)).2 = t at *
  have hhas : ∀ r ∈ Ref.frame g :: held, t.Has r :=
    List.forall_mem_cons.2 ⟨hg, fun r hr => hleads.has (h.has r (hheld hr))⟩
  refine track hleads.whole hhas hg (fun {q x} hmem => ?_) fun {q o} hne ho halive => ?_
  · rw [hregistries] at hmem
    obtain ⟨hq, hroot⟩ := h.beneath hmem
    exact ⟨hleads.has hq, (hleads.root h.whole hq).trans hroot⟩
  · rw [hframe, if_neg hne] at ho ⊢
    have hq := has_of_outer ho
    rw [hregistries, hleads.root h.whole hq]
    refine h.registered ho (hadds.alive (fun r hr => ?_) (fun r hr => h.alive (hheld hr)) halive hq)
    rw [references, hframe, if_pos rfl] at hr
    rcases List.mem_cons.1 hr with rfl | hr
    · exact hf
    · obtain ⟨e, he, hr⟩ := List.mem_flatMap.1 hr
      obtain ⟨entry, hentry, heq⟩ := (exists_of_mem_insertAll he).resolve_right List.not_mem_nil
      rw [heq] at hr
      exact h.alive (hentries entry hentry hr)

end Tracked

/-! ## Release -/

/-- Frames have been emptied, none but those of `below`. Each of these that is alive is empty. -/
structure Emptying (s t : Store) (roots : List Ref) (below : List FrameId) : Prop where
  leads : s.LeadsTo t
  registries : t.registries = s.registries
  cells : t.cells = s.cells
  closures : t.closures = s.closures
  outer : ∀ f, (t.frame f).outer = (s.frame f).outer
  alive : ∀ {r}, t.Alive roots r → s.Alive roots r
  own : ∀ {f}, f ∈ below ∨ (s.frame f).bindings = .empty → t.Alive roots (.frame f) →
    (t.frame f).bindings = .empty
  other : ∀ {f}, f ∉ below → t.frame f = s.frame f

namespace Emptying

variable {u : Store} {below below' : List FrameId} {f : FrameId}

theorem refl (hs : s.Whole) : s.Emptying s roots [] where
  leads := hs.refl
  registries := rfl
  cells := rfl
  closures := rfl
  outer _ := rfl
  alive h := h
  own hf _ := hf.resolve_left List.not_mem_nil
  other _ := rfl

theorem trans (h : s.Emptying t roots below) (h' : t.Emptying u roots below') :
    s.Emptying u roots (below ++ below') where
  leads := h.leads.trans h'.leads
  registries := h'.registries.trans h.registries
  cells := h'.cells.trans h.cells
  closures := h'.closures.trans h.closures
  outer f := (h'.outer f).trans (h.outer f)
  alive hr := h.alive (h'.alive hr)
  own {f} hf halive := by
    refine h'.own ?_ halive
    rcases hf with hf | hf
    · rcases List.mem_append.1 hf with hf | hf
      · exact .inr (h.own (.inl hf) (h'.alive halive))
      · exact .inl hf
    · exact .inr (h.own (.inr hf) (h'.alive halive))
  other hf := by
    rw [List.mem_append, not_or] at hf
    rw [h'.other hf.2, h.other hf.1]

theorem clear (hs : s.Whole) (f : FrameId) : s.Emptying (s.clear f) roots [f] where
  leads := hs.leadsTo_clear f
  registries := rfl
  cells := rfl
  closures := rfl
  outer g := by
    rw [frame_clear]
    split <;> rfl
  alive := alive_clear
  own {g} hg halive := by
    have hsize : g.index < s.frames.size := (alive_clear halive).1
    rw [frame_clear]
    split
    · rfl
    · rename_i hne
      refine hg.resolve_left fun hmem => hne ?_
      cases List.mem_singleton.1 hmem
      exact ⟨rfl, hsize⟩
  other {g} hg := by
    rw [frame_clear, if_neg]
    rintro ⟨rfl, -⟩
    exact hg List.mem_cons_self

/-- A frame that nobody holds is left as it is. -/
theorem releaseFrame (hs : s.Whole) (hroots : ∀ q ∈ roots, s.Has q) (f : FrameId) :
    s.Emptying (s.releaseFrame roots f) roots [f] := by
  unfold Store.releaseFrame
  split
  · rename_i hzero
    refine { refl hs with own := fun {g} hg halive => ?_, other := fun _ => rfl }
    refine hg.resolve_left fun hmem => halive.2 ?_
    cases List.mem_singleton.1 hmem
    exact (holders_eq_zero_iff hs.closed hroots halive.1).1 hzero
  · exact clear hs f

theorem releaseFrames (hs : s.Whole) (hroots : ∀ q ∈ roots, s.Has q) (below : List FrameId) :
    s.Emptying (below.foldl (fun s f => s.releaseFrame roots f) s) roots below := by
  induction below generalizing s with
  | nil => exact refl hs
  | cons f below ih =>
    have hfirst := releaseFrame hs hroots f
    exact hfirst.trans (ih hfirst.leads.whole fun q hq => hfirst.leads.has (hroots q hq))

end Emptying

/-- The global frame is emptied and the frames of its registry that are alive. -/
theorem Whole.emptying_release (hs : s.Whole) (hroots : ∀ q ∈ roots, s.Has q) (g : FrameId) :
    Emptying { s with registries := s.registries.insert g .empty } (s.release roots g) roots
      (g :: (s.registries.of g).frames.toList) := by
  have hclear : Emptying _ _ roots [g] :=
    .clear (hs.leadsTo_withRegistries (s.registries.insert g .empty)).whole g
  rw [release, ← Array.foldl_toList]
  exact hclear.trans
    (.releaseFrames hclear.leads.whole (fun q hq => hclear.leads.has (hroots q hq)) _)

namespace Tracked

variable {ended : FrameId → Prop} {g : FrameId}

/-- **What a release leaves.** The frames that are alive and have the global frame at the end of
their chains are empty. All others are as they were. -/
theorem emptied_release (h : s.Tracked ended roots) (hg : (s.frame g).outer = none) {f : FrameId} :
    (s.root f = g → (s.release roots g).Alive roots (.frame f) →
      ((s.release roots g).frame f).bindings = .empty) ∧
      (s.root f ≠ g → (s.release roots g).frame f = s.frame f) := by
  have hempty := h.whole.emptying_release h.has g
  refine ⟨fun hroot halive => hempty.own ?_ halive, fun hne => hempty.other fun hmem => hne ?_⟩
  · cases ho : (s.frame f).outer with
    | none =>
      rw [root_of_global ho] at hroot
      exact .inl (hroot ▸ List.mem_cons_self)
    | some o =>
      rcases h.registered ho (alive_of_withRegistries (hempty.alive halive)) with hmem | ⟨-, hnone⟩
      · rw [hroot] at hmem
        exact .inl (List.mem_cons_of_mem _ hmem.val)
      · exact .inr hnone
  · rcases List.mem_cons.1 hmem with rfl | hmem
    · exact root_of_global hg
    · exact (h.beneath (Array.mem_toList_iff.1 hmem)).2

/-- **Afterwards** the frames that are alive are still registered, except beneath the global frame
that has been released. -/
theorem release (h : s.Tracked ended roots) (hg : (s.frame g).outer = none) :
    (s.release roots g).Tracked (fun f => ended f ∨ f = g) roots := by
  have hempty := h.whole.emptying_release h.has g
  have hleads := h.whole.leadsTo_release roots g
  have hemptied {f : FrameId} := h.emptied_release hg (f := f)
  have hregistries (x : FrameId) : (s.release roots g).registries.of x =
      if g = x then .empty else s.registries.of x := by
    rw [hempty.registries]
    exact Registries.of_insert _ _ _ _
  refine ⟨hleads.whole, fun r hr => hleads.has (h.has r hr), fun {f x} hmem => ?_,
    fun {f o} ho halive => ?_⟩
  · rw [hregistries] at hmem
    split at hmem
    · cases hmem with
      | mk hmem => cases hmem
    · obtain ⟨hf, hroot⟩ := h.beneath hmem
      exact ⟨hleads.has hf, (hleads.root h.whole hf).trans hroot⟩
  · have hf := alive_of_withRegistries (hempty.alive halive)
    rw [hleads.root h.whole hf.1]
    by_cases hroot : s.root f = g
    · exact .inr ⟨.inr hroot, hemptied.1 hroot halive⟩
    · rw [hempty.outer] at ho
      rw [hregistries, if_neg (Ne.symm hroot), hemptied.2 hroot]
      exact (h.registered ho hf).imp_right (And.imp_left .inl)

/-! ## Texts and descriptions -/

/-- The same list, with another range. -/
theorem newList (h : s.Tracked ended roots) {items : List Node} (hitems : refsOf items ⊆ roots)
    (span : Span) :
    (s.newList items span).2.Tracked ended ((s.newList items span).1.refs ++ roots) :=
  h.newTail span.stop fun _ hx _ hr => hitems (List.mem_flatMap.2 ⟨_, hx, hr⟩)

mutual

theorem load : ∀ {s : Store} {roots : List Ref}, s.Tracked ended roots → ∀ d : Datum,
    (s.load d).2.Tracked ended ((s.load d).1.refs ++ roots)
  | _, _, h, .atom _ _ => h
  | _, _, h, .list items span => by
    have hlist := (loadAll h items).newList (List.subset_append_left _ _) span
    exact hlist.drop

theorem loadAll : ∀ {s : Store} {roots : List Ref}, s.Tracked ended roots → ∀ ds : List Datum,
    (s.loadAll ds).2.Tracked ended (refsOf (s.loadAll ds).1 ++ roots)
  | _, _, h, [] => h
  | s, roots, h, d :: ds => by
    have hall := loadAll (load h d) ds
    change ((s.load d).2.loadAll ds).2.Tracked ended
      (((s.load d).1.refs ++ refsOf ((s.load d).2.loadAll ds).1) ++ roots)
    exact hall.mono fun r hr => by grind

end

end Tracked

end Store

/-- The names that a host has given are those of things that are held. -/
structure Names.Held (names : Names) (roots : List Ref) : Prop where
  value : ∀ {name n}, names.values.get? name = some n → n.refs ⊆ roots
  scope : ∀ {name f}, names.scopes.get? name = some f → .frame f ∈ roots

theorem Names.Held.mono {names : Names} {roots roots' : List Ref} (h : names.Held roots)
    (hroots : roots ⊆ roots') : names.Held roots' where
  value hn := List.Subset.trans (h.value hn) hroots
  scope hf := hroots (h.scope hf)

namespace Store.Tracked

variable {ended : FrameId → Prop}

mutual

/-- **A described value** is made of what is held and of new objects. -/
theorem build {names : Names} : ∀ {s : Store} {roots : List Ref}, s.Tracked ended roots →
    names.Held roots → ∀ (spec : Spec) {n : Node} {t : Store}, spec.build names s = some (n, t) →
      t.Tracked ended (n.refs ++ roots)
  | _, _, h, _, .leaf _ _, _, _, hb | _, _, h, _, .nil _, _, _, hb
  | _, _, h, _, .unspecified _, _, _, hb | _, _, h, _, .primitive _ _, _, _, hb => by
    cases hb
    exact h
  | _, roots, h, hnames, .pair a d span, _, _, hb => by
    obtain ⟨⟨car, s₁⟩, hcar, hb⟩ := Option.bind_eq_some_iff.1 hb
    obtain ⟨⟨cdr, s₂⟩, hcdr, hb⟩ := Option.bind_eq_some_iff.1 hb
    cases hb
    have hd := build (build h hnames a hcar) (hnames.mono (List.subset_append_right _ _)) d hcdr
    have hcell : Tracked (s₂.newCell car cdr).2 ended
        (Node.refs ⟨.pair (s₂.newCell car cdr).1, span⟩ ++ (cdr.refs ++ (car.refs ++ roots))) :=
      hd.newCell (fun r hr => hd.alive (by simp [hr])) fun r hr => hd.alive (by simp [hr])
    exact hcell.drop.drop
  | _, _, h, hnames, .list items span, _, _, hb => by
    obtain ⟨⟨nodes, s₁⟩, hnodes, hb⟩ := Option.bind_eq_some_iff.1 hb
    cases hb
    have hlist := (buildAll h hnames items hnodes).newList (List.subset_append_left _ _) span
    exact hlist.drop
  | _, _, h, hnames, .named name, _, _, hb => by
    obtain ⟨node, hnode, hb⟩ := Option.bind_eq_some_iff.1 hb
    cases hb
    exact h.mono (List.append_subset.2 ⟨hnames.value hnode, List.Subset.refl _⟩)
  | _, roots, h, hnames, .closure name params body scope span, _, _, hb => by
    obtain ⟨frame, hframe, hb⟩ := Option.bind_eq_some_iff.1 hb
    obtain ⟨⟨node, s₁⟩, hnode, hb⟩ := Option.bind_eq_some_iff.1 hb
    cases hb
    let k : Closure := ⟨name, params, node, frame⟩
    have hclosure : Tracked (s₁.newClosure k).2 ended
        (Node.refs ⟨.procedure (.closure (s₁.newClosure k).1), span⟩ ++ (node.refs ++ roots)) :=
      (build h hnames body hnode).newClosure (List.subset_append_left _ _)
        (List.mem_append_right _ (hnames.scope hframe))
    exact hclosure.drop
  | s, _, h, _, .source text, _, _, hb => by
    rw [Spec.build] at hb
    split at hb
    · rename_i d _
      have hload := h.load d
      rwa [Option.some.inj hb] at hload
    · cases hb

/-- The same for several values, one after the other. -/
theorem buildAll {names : Names} : ∀ {s : Store} {roots : List Ref}, s.Tracked ended roots →
    names.Held roots → ∀ (specs : List Spec) {ns : List Node} {t : Store},
      Spec.buildAll names specs s = some (ns, t) → t.Tracked ended (refsOf ns ++ roots)
  | _, _, h, _, [], _, _, hb => by
    cases hb
    exact h
  | _, _, h, hnames, spec :: specs, _, _, hb => by
    obtain ⟨⟨node, s₁⟩, hnode, hb⟩ := Option.bind_eq_some_iff.1 hb
    obtain ⟨⟨nodes, s₂⟩, hnodes, hb⟩ := Option.bind_eq_some_iff.1 hb
    cases hb
    have hrest := buildAll (build h hnames spec hnode)
      (hnames.mono (List.subset_append_right _ _)) specs hnodes
    change Tracked _ ended ((node.refs ++ refsOf nodes) ++ _)
    exact hrest.mono fun r hr => by grind

end

end Store.Tracked

end MiniScheme
