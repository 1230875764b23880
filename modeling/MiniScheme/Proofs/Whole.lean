import MiniScheme.Proofs.Isolation.Embedding
import MiniScheme.Proofs.Lists
import MiniScheme.Proofs.Scope.Frames
import MiniScheme.Spec

/-!
# Whole stores

What holds of a store at every moment, whatever hosts and programs do: its objects refer to objects
of the store, and frames are younger than the frames around them. `Store.Whole` says so. One store
leads to another if the latter is whole and what there was stays: objects, the frames around frames,
and the names of closures. Every operation but one does that. The exception is `nameClosure`, which
is what it is for; the store is whole after it nevertheless.

An operation adds an object or changes one. `Whole.add` and `Whole.change` say once what has to be
known of either kind.

## Results

* `Whole.leadsTo_newFrame`, `Whole.leadsTo_bind` and so on: the operations of an evaluation.
* `Whole.leadsTo_load`, `Whole.leadsTo_build`: reading a text and making a described value.
* `Whole.leadsTo_release`: the end of a session.
-/

namespace MiniScheme

/-- Everything that the node refers to exists. -/
def Node.Refers (s : Store) (n : Node) : Prop := ∀ r ∈ n.refs, s.Has r

namespace Store

variable {s t u : Store}

/-! ## Objects that do not exist -/

theorem cell_of_not_has {c : CellId} (h : ¬s.Has (.cell c)) : s.cell c = default := by
  rw [cell, Array.getElem?_eq_none (Nat.le_of_not_lt h)]
  rfl

theorem frame_of_not_has {f : FrameId} (h : ¬s.Has (.frame f)) : s.frame f = default := by
  rw [frame, Array.getElem?_eq_none (Nat.le_of_not_lt h)]
  rfl

theorem refers_leaf {v : Value} {span : Span} (h : v.refs = []) : Node.Refers s ⟨v, span⟩ := by
  intro r hr
  rw [show Node.refs ⟨v, span⟩ = [] from h] at hr
  cases hr

/-! ## Whole stores -/

/-- Objects refer to objects of the store, and closures that objects refer to are settled. The frame
around a frame is older. -/
structure Whole (s : Store) : Prop where
  closed : s.Closed
  settled : s.Settled
  outer : ∀ {f g}, (s.frame f).outer = some g → g.index < f.index

/-- What there was stays: objects, and the frames around frames. -/
structure Extends (s t : Store) : Prop where
  has : ∀ {r}, s.Has r → t.Has r
  outer : ∀ {f}, s.Has (.frame f) → (t.frame f).outer = (s.frame f).outer

/-- The second store is whole and has everything that the first one has; the closures of the first
one have the names they had. -/
structure LeadsTo (s t : Store) : Prop extends Extends s t where
  whole : t.Whole
  name : ∀ {k}, s.Has (.closure k) → (t.closure k).name = (s.closure k).name

theorem Extends.trans (h : s.Extends t) (h' : t.Extends u) : s.Extends u where
  has hr := h'.has (h.has hr)
  outer hf := (h'.outer (h.has hf)).trans (h.outer hf)

theorem Whole.refl (h : s.Whole) : s.LeadsTo s where
  has hr := hr
  outer _ := rfl
  whole := h
  name _ := rfl

theorem LeadsTo.trans (h : s.LeadsTo t) (h' : t.LeadsTo u) : s.LeadsTo u where
  toExtends := h.toExtends.trans h'.toExtends
  whole := h'.whole
  name hk := (h'.name (h.has hk)).trans (h.name hk)

theorem Extends.refers (h : s.Extends t) {n : Node} (hn : n.Refers s) : n.Refers t :=
  fun r hr => h.has (hn r hr)

end Store

/-- The names that a host has given are those of things that exist. -/
structure Names.Refer (names : Names) (s : Store) : Prop where
  value : ∀ {name n}, names.values.get? name = some n → n.Refers s
  scope : ∀ {name f}, names.scopes.get? name = some f → s.Has (.frame f)

theorem Names.Refer.mono {names : Names} {s t : Store} (h : names.Refer s) (ht : s.Extends t) :
    names.Refer t where
  value hn := ht.refers (h.value hn)
  scope hf := ht.has (h.scope hf)

namespace Store

variable {s t : Store}

theorem whole_empty : empty.Whole where
  closed := by rintro (c | f | k) ho <;> exact absurd ho (Nat.not_lt_zero _)
  settled := by rintro (c | f | k) _ ho <;> exact absurd ho (Nat.not_lt_zero _)
  outer ho := by cases ho

namespace Whole

/-! ## What objects hold -/

theorem half (h : s.Whole) (c : CellId) (half : Half) : ((s.cell c).half half).Refers s := by
  by_cases hc : s.Has (.cell c)
  · intro r hr
    refine h.closed (.cell c) hc r (List.mem_append.2 ?_)
    cases half with
    | car => exact .inl hr
    | cdr => exact .inr hr
  · rw [cell_of_not_has hc]
    cases half <;> exact refers_leaf rfl

theorem binding (h : s.Whole) {f : FrameId} {name : String} {v : Node}
    (hv : (s.frame f).bindings.get? name = some v) : v.Refers s := by
  by_cases hf : s.Has (.frame f)
  · intro r hr
    refine h.closed (.frame f) hf r (List.mem_append_right _ ?_)
    exact List.mem_flatMap.2 ⟨(name, v), Table.mem_entries_of_get? hv, hr⟩
  · rw [frame_of_not_has hf] at hv
    cases hv

theorem lookup (h : s.Whole) {f : FrameId} {name : String} {v : Node}
    (hv : s.lookup? f name = some v) : v.Refers s := by
  obtain ⟨g, -, hg⟩ := List.exists_of_findSome?_eq_some hv
  exact h.binding hg

theorem closure (h : s.Whole) {k : ClosureId} (hk : s.Has (.closure k)) :
    s.Has (.frame (s.closure k).frame) ∧ (s.closure k).body.Refers s :=
  ⟨h.closed _ hk _ (List.mem_append_right _ List.mem_cons_self),
    fun r hr => h.closed _ hk r (List.mem_append_left _ hr)⟩

theorem elements (h : s.Whole) {v : Value} {items : List Node}
    (hi : s.elements? v = some items) : ∀ x ∈ items, x.Refers s := by
  intro x hx
  obtain ⟨c, rfl⟩ := exists_car_of_mem hi x hx
  exact h.half c .car

/-! ## Chains -/

/-- The frames form a forest. -/
theorem forest (h : s.Whole) : s.IsForest := fun _ _ => h.outer

/-! ## Adding and changing one object -/

/-- **One more object.** What it refers to has to exist; a frame that is not global has to be
younger than the one around it. -/
theorem add (h : s.Whole) {r₀ : Ref} (ha : s.Adds t r₀) (hrefs : ∀ r ∈ t.references r₀, t.Has r)
    (hframe : ∀ f g, r₀ = .frame f → (t.frame f).outer = some g → g.index < f.index) :
    s.LeadsTo t := by
  have hold {f : FrameId} (hf : s.Has (.frame f)) : t.frame f = s.frame f := ha.same _ hf
  have hhas {r : Ref} (hr : s.Has r) : t.Has r := (ha.has r).2 (.inl hr)
  refine ⟨⟨hhas, fun hf => by rw [hold hf]⟩, ⟨?_, ha.settled_of h.settled, ?_⟩, fun hk => ?_⟩
  · intro o ho r hr
    rcases (ha.has o).1 ho with hs | rfl
    · rw [(ha.same o hs).references] at hr
      exact hhas (h.closed o hs r hr)
    · exact hrefs r hr
  · intro f g ho
    by_cases hf : s.Has (.frame f)
    · rw [hold hf] at ho
      exact h.outer ho
    · by_cases heq : r₀ = .frame f
      · exact hframe f g heq ho
      · have hnot : ¬t.Has (.frame f) := fun hf' =>
          ((ha.has _).1 hf').elim hf fun h => heq h.symm
        rw [frame_of_not_has hnot] at ho
        cases ho
  · rw [show t.closure _ = s.closure _ from ha.same _ hk]

/-- **One object with other content.** What it refers to has to exist; a frame keeps the frame
around it. -/
theorem change (h : s.Whole) {r₀ : Ref} (hc : s.Changes t r₀)
    (hrefs : s.Has r₀ → ∀ r ∈ t.references r₀, s.Has r)
    (hframe : ∀ f, r₀ = .frame f → (t.frame f).outer = (s.frame f).outer) :
    t.Whole ∧ s.Extends t := by
  have houter (f : FrameId) : (t.frame f).outer = (s.frame f).outer := by
    by_cases heq : r₀ = .frame f
    · exact hframe f heq
    · rw [show t.frame f = s.frame f from hc.same _ (Ne.symm heq)]
  refine ⟨⟨?_, hc.settled_of h.settled, ?_⟩, fun hr => (hc.has _).2 hr, fun {f} _ => houter f⟩
  · intro o ho r hr
    refine (hc.has r).2 ?_
    have hs := (hc.has o).1 ho
    by_cases heq : o = r₀
    · subst heq
      exact hrefs hs r hr
    · rw [(hc.same o heq).references] at hr
      exact h.closed o hs r hr
  · intro f g ho
    rw [houter] at ho
    exact h.outer ho

/-- The same for a cell or a frame: the names of closures stay. -/
theorem leadsTo_change (h : s.Whole) {r₀ : Ref} (hc : s.Changes t r₀) (hr : ∀ k, r₀ ≠ .closure k)
    (hrefs : s.Has r₀ → ∀ r ∈ t.references r₀, s.Has r)
    (hframe : ∀ f, r₀ = .frame f → (t.frame f).outer = (s.frame f).outer) : s.LeadsTo t := by
  obtain ⟨hwhole, hextends⟩ := h.change hc hrefs hframe
  refine ⟨hextends, hwhole, fun {k} _ => ?_⟩
  rw [show t.closure k = s.closure k from hc.same _ (hr k).symm]

/-- Registries do not matter. -/
theorem leadsTo_withRegistries (h : s.Whole) (r : Registries) :
    s.LeadsTo { s with registries := r } :=
  ⟨⟨id, fun _ => rfl⟩, ⟨h.closed, h.settled, h.outer⟩, fun _ => rfl⟩

/-! ## Operations -/

theorem leadsTo_newCell (h : s.Whole) {car cdr : Node} (hcar : car.Refers s) (hcdr : cdr.Refers s)
    (span : Span) : s.LeadsTo (s.newCell car cdr).2 ∧
      Node.Refers (s.newCell car cdr).2 ⟨.pair (s.newCell car cdr).1, span⟩ := by
  have hadds := s.adds_newCell car cdr
  refine ⟨h.add hadds (fun r hr => (hadds.has r).2 (.inl ?_)) nofun, fun r hr => ?_⟩
  · rw [references, cell_newCell, if_pos rfl] at hr
    exact (List.mem_append.1 hr).elim (hcar r) (hcdr r)
  · exact (hadds.has r).2 (.inr (List.mem_singleton.1 hr))

theorem leadsTo_newTail (h : s.Whole) (stop : Nat) {items : List Node}
    (hitems : ∀ x ∈ items, x.Refers s) :
    s.LeadsTo (s.newTail stop items).2 ∧
      (s.newTail stop items).1.Refers (s.newTail stop items).2 := by
  induction items with
  | nil => exact ⟨h.refl, refers_leaf rfl⟩
  | cons item items ih =>
    obtain ⟨hitem, hitems⟩ := List.forall_mem_cons.1 hitems
    obtain ⟨htail, hnode⟩ := ih hitems
    obtain ⟨hcell, hpair⟩ := htail.whole.leadsTo_newCell (htail.refers hitem) hnode
      ⟨item.span.start, stop⟩
    exact ⟨htail.trans hcell, hpair⟩

theorem leadsTo_newFrame (h : s.Whole) {outer : Option FrameId}
    (houter : ∀ g, outer = some g → s.Has (.frame g)) {entries : List (String × Node)}
    (hentries : ∀ e ∈ entries, e.2.Refers s) :
    s.LeadsTo (s.newFrame outer (Table.empty.insertAll entries)).2 ∧
      (s.newFrame outer (Table.empty.insertAll entries)).2.Has
        (.frame (s.newFrame outer (Table.empty.insertAll entries)).1) := by
  have hadds := s.adds_newFrame outer (Table.empty.insertAll entries)
  refine ⟨h.add hadds (fun r hr => (hadds.has r).2 (.inl ?_)) fun f g heq ho => ?_,
    (hadds.has _).2 (.inr rfl)⟩
  · rw [references, frame_newFrame, if_pos rfl] at hr
    rcases List.mem_append.1 hr with hr | hr
    · obtain ⟨g, hg, rfl⟩ := Option.map_eq_some_iff.1 (Option.mem_toList.1 hr)
      exact houter g hg
    · obtain ⟨e, he, hr⟩ := List.mem_flatMap.1 hr
      obtain ⟨entry, hentry, heq⟩ := (exists_of_mem_insertAll he).resolve_right List.not_mem_nil
      rw [heq] at hr
      exact hentries entry hentry r hr
  · cases heq
    rw [frame_newFrame, if_pos rfl] at ho
    cases ho
    exact houter g rfl

theorem leadsTo_enclose (h : s.Whole) (held : List Ref) {f : FrameId} (hf : s.Has (.frame f))
    {entries : List (String × Node)} (hentries : ∀ e ∈ entries, e.2.Refers s) :
    s.LeadsTo (s.enclose held f entries).2 ∧
      (s.enclose held f entries).2.Has (.frame (s.enclose held f entries).1) := by
  obtain ⟨hleads, hnew⟩ :=
    h.leadsTo_newFrame (fun g (hg : some f = some g) => Option.some.inj hg ▸ hf) hentries
  have htrack := hleads.whole.leadsTo_withRegistries (s.enclose held f entries).2.registries
  exact ⟨hleads.trans htrack, htrack.has hnew⟩

theorem leadsTo_newPopulated (h : s.Whole) :
    s.LeadsTo s.newPopulated.2 ∧ s.newPopulated.2.Has (.frame s.newPopulated.1) := by
  refine h.leadsTo_newFrame (fun g hg => ?_) fun e he => ?_
  · cases hg
  · obtain ⟨p, -, rfl⟩ := List.mem_map.1 he
    exact refers_leaf rfl

theorem leadsTo_newClosure (h : s.Whole) {k : Closure} (hframe : s.Has (.frame k.frame))
    (hbody : k.body.Refers s) (span : Span) : s.LeadsTo (s.newClosure k).2 ∧
      Node.Refers (s.newClosure k).2 ⟨.procedure (.closure (s.newClosure k).1), span⟩ := by
  have hadds := s.adds_newClosure k
  refine ⟨h.add hadds (fun r hr => (hadds.has r).2 (.inl ?_)) nofun, fun r hr => ?_⟩
  · rw [references, closure_newClosure, if_pos rfl] at hr
    rcases List.mem_append.1 hr with hr | hr
    · exact hbody r hr
    · rw [List.mem_singleton.1 hr]
      exact hframe
  · exact (hadds.has r).2 (.inr (List.mem_singleton.1 hr))

theorem leadsTo_setHalf (h : s.Whole) (c : CellId) (half : Half) {n : Node} (hn : n.Refers s) :
    s.LeadsTo (s.setHalf c half n) := by
  refine h.leadsTo_change (s.changes_setHalf c half n) nofun (fun _ r hr => ?_) nofun
  have hhalf (half' : Half) : (((s.setHalf c half n).cell c).half half').Refers s := by
    rcases half_setHalf s c c half half' n with heq | heq <;> rw [heq]
    · exact hn
    · exact h.half c half'
  exact (List.mem_append.1 hr).elim (hhalf .car r) (hhalf .cdr r)

theorem leadsTo_bind (h : s.Whole) (f : FrameId) (name : String) {n : Node} (hn : n.Refers s) :
    s.LeadsTo (s.bind f name n) := by
  have hframe := frame_bind s f f name n
  refine h.leadsTo_change (s.changes_bind f name n) nofun (fun hhas r hr => ?_) fun g heq => ?_
  · rw [references, hframe, if_pos ⟨rfl, hhas⟩] at hr
    rcases List.mem_append.1 hr with hr | hr
    · exact h.closed _ hhas r (List.mem_append_left _ hr)
    · obtain ⟨e, he, hr⟩ := List.mem_flatMap.1 hr
      rcases mem_insertEntry he with heq | he
      · rw [heq] at hr
        exact hn r hr
      · exact h.closed _ hhas r (List.mem_append_right _ (List.mem_flatMap.2 ⟨e, he, hr⟩))
  · cases heq
    rw [hframe]
    split <;> rfl

theorem leadsTo_defineGlobal (h : s.Whole) (f : FrameId) (name : String) {n : Node}
    (hn : n.Refers s) : s.LeadsTo (s.defineGlobal f name n) := h.leadsTo_bind _ name hn

theorem whole_nameClosure (h : s.Whole) (k : ClosureId) (name : String) :
    (s.nameClosure k name).Whole ∧ s.Extends (s.nameClosure k name) := by
  refine h.change (s.changes_nameClosure k name) (fun hk r hr => ?_) nofun
  rw [references, closure_nameClosure] at hr
  split at hr
  · exact h.closed _ hk r hr
  · exact h.closed _ hk r hr

/-! ## Release -/

/-- An empty frame refers to nothing but the frame around it. -/
theorem references_clear {s : Store} {f : FrameId} {r : Ref}
    (hr : r ∈ (s.clear f).references (.frame f)) : r ∈ s.references (.frame f) := by
  rw [references, frame_clear] at hr
  split at hr
  · exact List.mem_append_left _ ((List.mem_append.1 hr).resolve_right List.not_mem_nil)
  · exact hr

theorem changes_clear (s : Store) (f : FrameId) : s.Changes (s.clear f) (.frame f) where
  has r := by cases r <;> simp [clear, modifyBindings, Has]
  same r hr := by
    cases r with
    | frame g =>
      refine (frame_clear s f g).trans (if_neg ?_)
      rintro ⟨rfl, -⟩
      exact hr rfl
    | cell c => rfl
    | closure k => rfl
  settled := Nat.le_refl _
  bound k hk := .inl (references_clear hk)

theorem leadsTo_clear (h : s.Whole) (f : FrameId) : s.LeadsTo (s.clear f) := by
  refine h.leadsTo_change (changes_clear s f) nofun
    (fun hf r hr => h.closed _ hf r (references_clear hr)) fun g heq => ?_
  cases heq
  rw [frame_clear]
  split <;> rfl

theorem leadsTo_release (h : s.Whole) (roots : List Ref) (f : FrameId) :
    s.LeadsTo (s.release roots f) :=
  release_induction (P := s.LeadsTo) (fun ht r => ht.trans (ht.whole.leadsTo_withRegistries r))
    (fun ht f => ht.trans (ht.whole.leadsTo_clear f)) h.refl roots f

/-! ## Texts and descriptions -/

mutual

theorem leadsTo_load : ∀ {s : Store}, s.Whole → ∀ d : Datum,
    s.LeadsTo (s.load d).2 ∧ (s.load d).1.Refers (s.load d).2
  | _, h, .atom _ _ => ⟨h.refl, refers_leaf rfl⟩
  | s, h, .list items span => by
    obtain ⟨hall, hnodes⟩ := leadsTo_loadAll h items
    obtain ⟨htail, hnode⟩ := hall.whole.leadsTo_newTail span.stop hnodes
    exact ⟨hall.trans htail, hnode⟩

theorem leadsTo_loadAll : ∀ {s : Store}, s.Whole → ∀ ds : List Datum,
    s.LeadsTo (s.loadAll ds).2 ∧ ∀ n ∈ (s.loadAll ds).1, n.Refers (s.loadAll ds).2
  | _, h, [] => ⟨h.refl, nofun⟩
  | s, h, d :: ds => by
    obtain ⟨hd, hnode⟩ := leadsTo_load h d
    obtain ⟨hds, hnodes⟩ := leadsTo_loadAll hd.whole ds
    exact ⟨hd.trans hds, List.forall_mem_cons.2 ⟨hds.refers hnode, hnodes⟩⟩

end

mutual

/-- **A described value** is made of what there is and of new objects. -/
theorem leadsTo_build {names : Names} : ∀ {s : Store}, s.Whole → names.Refer s →
    ∀ (spec : Spec) {n : Node} {t : Store}, spec.build names s = some (n, t) →
      s.LeadsTo t ∧ n.Refers t
  | _, h, _, .leaf _ _, _, _, hb | _, h, _, .nil _, _, _, hb | _, h, _, .unspecified _, _, _, hb
  | _, h, _, .primitive _ _, _, _, hb => by
    cases hb
    exact ⟨h.refl, refers_leaf rfl⟩
  | _, h, hnames, .pair a d span, _, _, hb => by
    obtain ⟨⟨car, s₁⟩, hcar, hb⟩ := Option.bind_eq_some_iff.1 hb
    obtain ⟨⟨cdr, s₂⟩, hcdr, hb⟩ := Option.bind_eq_some_iff.1 hb
    cases hb
    obtain ⟨ha, hcar⟩ := leadsTo_build h hnames a hcar
    obtain ⟨hd, hcdr⟩ := leadsTo_build ha.whole (hnames.mono ha.toExtends) d hcdr
    obtain ⟨hcell, hpair⟩ := hd.whole.leadsTo_newCell (hd.refers hcar) hcdr span
    exact ⟨(ha.trans hd).trans hcell, hpair⟩
  | _, h, hnames, .list items span, _, _, hb => by
    obtain ⟨⟨nodes, s₁⟩, hnodes, hb⟩ := Option.bind_eq_some_iff.1 hb
    cases hb
    obtain ⟨hall, hnodes⟩ := leadsTo_buildAll h hnames items hnodes
    obtain ⟨htail, hnode⟩ := hall.whole.leadsTo_newTail span.stop hnodes
    exact ⟨hall.trans htail, hnode⟩
  | _, h, hnames, .named name, _, _, hb => by
    obtain ⟨node, hnode, hb⟩ := Option.bind_eq_some_iff.1 hb
    cases hb
    exact ⟨h.refl, hnames.value hnode⟩
  | _, h, hnames, .closure name params body scope span, _, _, hb => by
    obtain ⟨frame, hframe, hb⟩ := Option.bind_eq_some_iff.1 hb
    obtain ⟨⟨node, s₁⟩, hnode, hb⟩ := Option.bind_eq_some_iff.1 hb
    cases hb
    obtain ⟨hbody, hnode⟩ := leadsTo_build h hnames body hnode
    obtain ⟨hclosure, hvalue⟩ := hbody.whole.leadsTo_newClosure (k := ⟨name, params, node, frame⟩)
      (hbody.has (hnames.scope hframe)) hnode span
    exact ⟨hbody.trans hclosure, hvalue⟩
  | s, h, _, .source text, _, _, hb => by
    rw [Spec.build] at hb
    split at hb
    · rename_i d _
      have hload := h.leadsTo_load d
      rwa [Option.some.inj hb] at hload
    · cases hb

/-- The same for several values, one after the other. -/
theorem leadsTo_buildAll {names : Names} : ∀ {s : Store}, s.Whole → names.Refer s →
    ∀ (specs : List Spec) {ns : List Node} {t : Store}, Spec.buildAll names specs s = some (ns, t) →
      s.LeadsTo t ∧ ∀ n ∈ ns, n.Refers t
  | _, h, _, [], _, _, hb => by
    cases hb
    exact ⟨h.refl, nofun⟩
  | _, h, hnames, spec :: specs, _, _, hb => by
    obtain ⟨⟨node, s₁⟩, hnode, hb⟩ := Option.bind_eq_some_iff.1 hb
    obtain ⟨⟨nodes, s₂⟩, hnodes, hb⟩ := Option.bind_eq_some_iff.1 hb
    cases hb
    obtain ⟨hfirst, hnode⟩ := leadsTo_build h hnames spec hnode
    obtain ⟨hrest, hnodes⟩ :=
      leadsTo_buildAll hfirst.whole (hnames.mono hfirst.toExtends) specs hnodes
    exact ⟨hfirst.trans hrest, List.forall_mem_cons.2 ⟨hrest.refers hnode, hnodes⟩⟩

end

end Whole

end Store

end MiniScheme
