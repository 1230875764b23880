import MiniScheme.Proofs.Isolation.Matching
import MiniScheme.Proofs.Updates

/-!
# One store inside another

Several sessions work on one store, and each of them works as it would on a store of its own. An
`Embedding` says where the objects of the small store are in the large one, and which objects of
the large store are *foreign*: they belong to other sessions and are as they were in a store
`origin`. Every object of the large store is one or the other, and no foreign object refers to one
that is not, so nothing outside tells on the objects inside.

The same holds of an expression that stands inside a larger one: the pairs around it are foreign to
its evaluation. They do refer to objects inside, which are called *anchored*. Nothing tells on those
either as long as the small evaluation holds them itself and the large one holds the foreign objects
that refer to them (`Embeds.Held`).

An operation adds an object on both sides or changes two objects that match. `Embeds.add` and
`Embeds.change` say once what has to be known of either kind, and each operation is a case.

## Results

* `Embeds.newCell`, `Embeds.newFrame`, `Embeds.bind` and so on: the operations of an evaluation.
* `Embeds.isOnlyHeldHere_eq`: whether a closure is held only here is the same on both sides.
* `Embeds.load`: reading a text.
-/

namespace MiniScheme

namespace Store

variable {s s' : Store} {r₀ : Ref}

/-! ## Adding and changing one object -/

/-- The object has the same content in both stores. -/
def SameAt (s s' : Store) : Ref → Prop
  | .cell c => s'.cell c = s.cell c
  | .frame f => s'.frame f = s.frame f
  | .closure k => s'.closure k = s.closure k

theorem SameAt.references {r : Ref} (h : s.SameAt s' r) : s'.references r = s.references r := by
  cases r with
  | cell c => rw [Store.references, Store.references, show s'.cell c = s.cell c from h]
  | frame f => rw [Store.references, Store.references, show s'.frame f = s.frame f from h]
  | closure k => rw [Store.references, Store.references, show s'.closure k = s.closure k from h]

/-- The second store is the first one with one more object. -/
structure Adds (s s' : Store) (r₀ : Ref) : Prop where
  new : ¬ s.Has r₀
  has : ∀ r, s'.Has r ↔ s.Has r ∨ r = r₀
  same : ∀ r, s.Has r → s.SameAt s' r
  settled : s.settled ≤ s'.settled
  bound : ∀ k, .closure k ∈ s'.references r₀ → k.index < s'.settled

/-- The second store is the first one with other content for one object. -/
structure Changes (s s' : Store) (r₀ : Ref) : Prop where
  has : ∀ r, s'.Has r ↔ s.Has r
  same : ∀ r, r ≠ r₀ → s.SameAt s' r
  settled : s.settled ≤ s'.settled
  bound : ∀ k, .closure k ∈ s'.references r₀ →
    .closure k ∈ s.references r₀ ∨ k.index < s'.settled

theorem Adds.settled_of (h : s.Adds s' r₀) (hs : s.Settled) : s'.Settled := by
  intro o k ho hk
  rcases (h.has o).1 ho with hold | rfl
  · rw [(h.same o hold).references] at hk
    exact Nat.lt_of_lt_of_le (hs o k hold hk) h.settled
  · exact h.bound k hk

theorem Changes.settled_of (h : s.Changes s' r₀) (hs : s.Settled) : s'.Settled := by
  intro o k ho hk
  have hold {o : Ref} (ho : s'.Has o) (hk : .closure k ∈ s.references o) :
      k.index < s'.settled :=
    Nat.lt_of_lt_of_le (hs o k ((h.has o).1 ho) hk) h.settled
  by_cases heq : o = r₀
  · subst heq
    exact (h.bound k hk).elim (hold ho) id
  · rw [(h.same o heq).references] at hk
    exact hold ho hk

/-! ## The operations -/

theorem le_settled_settle (s : Store) (nodes : List Node) :
    s.settled ≤ (s.settle nodes).settled := by
  change s.settled ≤ nodes.foldl (fun n node => max n node.closureBound) s.settled
  generalize s.settled = bound
  induction nodes generalizing bound with
  | nil => exact Nat.le_refl _
  | cons node nodes ih => exact Nat.le_trans (Nat.le_max_left _ _) (ih _)

/-- What the nodes refer to is settled. -/
theorem lt_settled_settle (s : Store) {nodes : List Node} {node : Node} {k : ClosureId}
    (hn : node ∈ nodes) (hk : .closure k ∈ node.refs) : k.index < (s.settle nodes).settled := by
  have hbound : node.closureBound = k.index + 1 := by
    obtain ⟨v, span⟩ := node
    match v, hk with
    | .procedure (.closure _), hk =>
      cases List.mem_singleton.1 hk
      rfl
    | .pair _, hk => cases List.mem_singleton.1 hk
  change k.index < nodes.foldl (fun n node => max n node.closureBound) s.settled
  generalize s.settled = bound
  induction nodes generalizing bound with
  | nil => exact absurd hn List.not_mem_nil
  | cons first nodes ih =>
    rcases List.mem_cons.1 hn with rfl | hn
    · have hle : max bound node.closureBound ≤
          nodes.foldl (fun n node => max n node.closureBound) (max bound node.closureBound) :=
        le_settled_settle { s with settled := max bound node.closureBound } nodes
      rw [List.foldl_cons]
      omega
    · exact ih hn _

theorem adds_newCell (s : Store) (car cdr : Node) :
    s.Adds (s.newCell car cdr).2 (.cell (s.newCell car cdr).1) where
  new := Nat.lt_irrefl _
  has r := by
    cases r with
    | cell c =>
      obtain ⟨i⟩ := c
      simp only [Has, newCell, settle, Array.size_push, Ref.cell.injEq, CellId.mk.injEq]
      omega
    | frame f => simp [Has]
    | closure k => simp [Has]
  same r hr := by
    cases r with
    | cell c =>
      refine (cell_newCell s car cdr c).trans (if_neg ?_)
      rintro rfl
      exact absurd hr (Nat.lt_irrefl _)
    | frame f => rfl
    | closure k => rfl
  settled := le_settled_settle _ _
  bound k hk := by
    rw [references, cell_newCell, if_pos rfl, List.mem_append] at hk
    rcases hk with hk | hk
    · exact lt_settled_settle _ (List.mem_cons_self) hk
    · exact lt_settled_settle _ (List.mem_cons_of_mem _ List.mem_cons_self) hk

theorem adds_newFrame (s : Store) (outer : Option FrameId) (b : Bindings) :
    s.Adds (s.newFrame outer b).2 (.frame (s.newFrame outer b).1) where
  new := Nat.lt_irrefl _
  has r := by
    cases r with
    | frame f =>
      obtain ⟨i⟩ := f
      simp only [Has, newFrame, settle, Array.size_push, Ref.frame.injEq, FrameId.mk.injEq]
      omega
    | cell c => simp [Has]
    | closure k => simp [Has]
  same r hr := by
    cases r with
    | frame f =>
      refine (frame_newFrame s outer b f).trans (if_neg ?_)
      rintro rfl
      exact absurd hr (Nat.lt_irrefl _)
    | cell c => rfl
    | closure k => rfl
  settled := le_settled_settle _ _
  bound k hk := by
    rw [references, frame_newFrame, if_pos rfl, List.mem_append] at hk
    rcases hk with hk | hk
    · simp at hk
    · obtain ⟨e, he, hk⟩ := List.mem_flatMap.1 hk
      exact lt_settled_settle _ (List.mem_map_of_mem he) hk

theorem adds_enclose (s : Store) (held : List Ref) (f : FrameId) (entries : List (String × Node)) :
    s.Adds (s.enclose held f entries).2 (.frame (s.enclose held f entries).1) := by
  have h := s.adds_newFrame (some f) (Table.empty.insertAll entries)
  exact ⟨h.new, h.has, h.same, h.settled, h.bound⟩

theorem adds_newClosure (s : Store) (k : Closure) :
    s.Adds (s.newClosure k).2 (.closure (s.newClosure k).1) where
  new := Nat.lt_irrefl _
  has r := by
    cases r with
    | closure l =>
      obtain ⟨i⟩ := l
      simp only [Has, newClosure, settle, Array.size_push, Ref.closure.injEq, ClosureId.mk.injEq]
      omega
    | cell c => simp [Has]
    | frame f => simp [Has]
  same r hr := by
    cases r with
    | closure l =>
      refine (closure_newClosure s k l).trans (if_neg ?_)
      rintro rfl
      exact absurd hr (Nat.lt_irrefl _)
    | cell c => rfl
    | frame f => rfl
  settled := le_settled_settle _ _
  bound l hl := by
    rw [references, closure_newClosure, if_pos rfl, List.mem_append] at hl
    rcases hl with hl | hl
    · exact lt_settled_settle _ (List.mem_singleton.2 rfl) hl
    · cases List.mem_singleton.1 hl

theorem changes_setHalf (s : Store) (c : CellId) (half : Half) (node : Node) :
    s.Changes (s.setHalf c half node) (.cell c) where
  has r := by cases r <;> simp [Has]
  same r hr := by
    cases r with
    | cell d =>
      refine (cell_setHalf s c d half node).trans (if_neg ?_)
      rintro ⟨rfl, -⟩
      exact hr rfl
    | frame f => rfl
    | closure k => rfl
  settled := le_settled_settle _ _
  bound k hk := by
    have hnode (h : .closure k ∈ node.refs) : k.index < (s.setHalf c half node).settled :=
      lt_settled_settle _ (List.mem_singleton.2 rfl) h
    rw [references, cell_setHalf] at hk
    rw [references]
    split at hk
    · cases half with
      | car =>
        rcases List.mem_append.1 hk with hk | hk
        · exact .inr (hnode hk)
        · exact .inl (List.mem_append_right _ hk)
      | cdr =>
        rcases List.mem_append.1 hk with hk | hk
        · exact .inl (List.mem_append_left _ hk)
        · exact .inr (hnode hk)
    · exact .inl hk

theorem mem_insertEntry {name : String} {a : Node} {es : List (String × Node)}
    {e : String × Node} (h : e ∈ Table.insertEntry name a es) : e.2 = a ∨ e ∈ es := by
  induction es with
  | nil =>
    obtain rfl := List.mem_singleton.1 h
    exact .inl rfl
  | cons first es ih =>
    rw [Table.insertEntry] at h
    split at h
    · rcases List.mem_cons.1 h with rfl | h
      · exact .inl rfl
      · exact .inr (List.mem_cons_of_mem _ h)
    · rcases List.mem_cons.1 h with rfl | h
      · exact .inr List.mem_cons_self
      · exact (ih h).imp_right (List.mem_cons_of_mem _)

/-- What a frame holds after several insertions was inserted or there before. -/
theorem exists_of_mem_insertAll {entries : List (String × Node)} {b : Bindings}
    {e : String × Node} (h : e ∈ (b.insertAll entries).entries) :
    (∃ entry ∈ entries, e.2 = entry.2) ∨ e ∈ b.entries := by
  induction entries generalizing b with
  | nil => exact .inr h
  | cons first entries ih =>
    rcases ih h with ⟨entry, hentry, heq⟩ | hold
    · exact .inl ⟨entry, List.mem_cons_of_mem first hentry, heq⟩
    · rcases mem_insertEntry hold with heq | hold
      · exact .inl ⟨first, List.mem_cons_self, heq⟩
      · exact .inr hold

theorem changes_bind (s : Store) (f : FrameId) (name : String) (node : Node) :
    s.Changes (s.bind f name node) (.frame f) where
  has r := by cases r <;> simp [Has]
  same r hr := by
    cases r with
    | frame g =>
      refine (frame_bind s f g name node).trans (if_neg ?_)
      rintro ⟨rfl, -⟩
      exact hr rfl
    | cell c => rfl
    | closure k => rfl
  settled := le_settled_settle _ _
  bound k hk := by
    rw [references, frame_bind] at hk
    rw [references]
    split at hk
    · rcases List.mem_append.1 hk with hk | hk
      · exact .inl (List.mem_append_left _ hk)
      · obtain ⟨e, he, hk⟩ := List.mem_flatMap.1 hk
        rcases mem_insertEntry he with hnode | he
        · rw [hnode] at hk
          exact .inr (lt_settled_settle _ (List.mem_singleton.2 rfl) hk)
        · exact .inl (List.mem_append_right _ (List.mem_flatMap.2 ⟨e, he, hk⟩))
    · exact .inl hk

theorem changes_nameClosure (s : Store) (k : ClosureId) (name : String) :
    s.Changes (s.nameClosure k name) (.closure k) where
  has r := by cases r <;> simp [Has]
  same r hr := by
    cases r with
    | closure l =>
      refine (closure_nameClosure s k l name).trans (if_neg ?_)
      rintro ⟨rfl, -⟩
      exact hr rfl
    | cell c => rfl
    | frame f => rfl
  settled := Nat.le_refl _
  bound l hl := by
    rw [references, closure_nameClosure] at hl
    rw [references]
    split at hl
    · exact .inl hl
    · exact .inl hl

end Store

/-! ## Embeddings -/

/-- Where the objects of a store are in a larger one, the objects there that belong to others, a
store that says what the latter are, and the objects inside that they may refer to. -/
structure Embedding where
  same : Matching
  foreign : Ref → Prop
  origin : Store
  anchored : Ref → Prop

namespace Embedding

instance : Preorder Embedding where
  le e e' := (∀ r r', e.same r r' → e'.same r r') ∧ e'.foreign = e.foreign ∧
    e'.origin = e.origin ∧ e'.anchored = e.anchored
  le_refl _ := ⟨fun _ _ h => h, rfl, rfl, rfl⟩
  le_trans _ _ _ h h' :=
    ⟨fun r r' hr => h'.1 r r' (h.1 r r' hr), h'.2.1.trans h.2.1, h'.2.2.1.trans h.2.2.1,
      h'.2.2.2.trans h.2.2.2⟩

/-- The embedding with one more pair of objects. -/
def add (e : Embedding) (r₀ r₀' : Ref) : Embedding :=
  { e with same := fun r r' => e.same r r' ∨ (r = r₀ ∧ r' = r₀') }

theorem le_add (e : Embedding) (r₀ r₀' : Ref) : e ≤ e.add r₀ r₀' :=
  ⟨fun _ _ h => .inl h, rfl, rfl, rfl⟩

end Embedding

/-- The first store lies in the second one, apart from what is foreign there. -/
structure Embeds (e : Embedding) (s t : Store) : Prop extends Matched e.same s t where
  cover : ∀ {r'}, t.Has r' → (∃ r, e.same r r') ∨ e.foreign r'
  apart : ∀ {r r'}, e.same r r' → ¬ e.foreign r'
  kept : ∀ {r'}, e.foreign r' → t.Has r' ∧ e.origin.SameAt t r'
  isolated : ∀ {r' q'}, e.foreign r' → q' ∈ e.origin.references r' → e.foreign q' ∨ e.anchored q'
  inside : ∀ {r'}, e.anchored r' → ∃ r, e.same r r'
  settledLeft : s.Settled
  settledRight : t.Settled

theorem Store.SameAt.refl (s : Store) (r : Ref) : s.SameAt s r := by
  cases r <;> rfl

theorem Store.SameAt.trans {s s' s'' : Store} {r : Ref} (h : s.SameAt s' r)
    (h' : s'.SameAt s'' r) : s.SameAt s'' r := by
  cases r with
  | cell c => exact Eq.trans h' h
  | frame f => exact Eq.trans h' h
  | closure k => exact Eq.trans h' h

/-- Whether contents match is a matter of the contents alone. -/
theorem Matching.Contents.congr {ρ : Matching} {s s' t t' : Store} {r r' : Ref}
    (hs : s.SameAt s' r) (ht : t.SameAt t' r') (h : ρ.Contents s t r r') :
    ρ.Contents s' t' r r' := by
  match r, r', h with
  | .cell c, .cell c', h =>
    rw [contents_cell] at h ⊢
    rwa [show s'.cell c = s.cell c from hs, show t'.cell c' = t.cell c' from ht]
  | .frame f, .frame f', h =>
    rw [contents_frame] at h ⊢
    rwa [show s'.frame f = s.frame f from hs, show t'.frame f' = t.frame f' from ht]
  | .closure k, .closure k', h =>
    rw [contents_closure] at h ⊢
    rwa [show s'.closure k = s.closure k from hs, show t'.closure k' = t.closure k' from ht]

namespace Embeds

variable {e : Embedding} {s s' t t' : Store} {r₀ r₀' : Ref}

/-- **One more object on both sides.** -/
theorem add (h : Embeds e s t) (ha : s.Adds s' r₀) (ha' : t.Adds t' r₀')
    (hc : e.same.Contents s' t' r₀ r₀') : Embeds (e.add r₀ r₀') s' t' where
  has := by
    rintro r r' (hr | ⟨rfl, rfl⟩)
    · exact ⟨(ha.has r).2 (.inl (h.has hr).1), (ha'.has r').2 (.inl (h.has hr).2)⟩
    · exact ⟨(ha.has r).2 (.inr rfl), (ha'.has r').2 (.inr rfl)⟩
  contents := by
    rintro r r' (hr | ⟨rfl, rfl⟩)
    · have hold := (h.contents hr).congr (ha.same r (h.has hr).1) (ha'.same r' (h.has hr).2)
      exact hold.mono fun _ _ => .inl
    · exact hc.mono fun _ _ => .inl
  unique := by
    rintro r r' q q' (hr | ⟨rfl, rfl⟩) (hq | ⟨rfl, rfl⟩)
    · exact h.unique hr hq
    · exact ⟨fun heq => absurd (heq ▸ (h.has hr).1) ha.new,
        fun heq => absurd (heq ▸ (h.has hr).2) ha'.new⟩
    · exact ⟨fun heq => absurd (heq ▸ (h.has hq).1) ha.new,
        fun heq => absurd (heq ▸ (h.has hq).2) ha'.new⟩
    · exact ⟨fun _ => rfl, fun _ => rfl⟩
  total := by
    intro r hr
    rcases (ha.has r).1 hr with hold | rfl
    · obtain ⟨r', hr'⟩ := h.total hold
      exact ⟨r', .inl hr'⟩
    · exact ⟨r₀', .inr ⟨rfl, rfl⟩⟩
  cover := by
    intro r' hr'
    rcases (ha'.has r').1 hr' with hold | rfl
    · exact (h.cover hold).imp_left fun ⟨r, hr⟩ => ⟨r, .inl hr⟩
    · exact .inl ⟨r₀, .inr ⟨rfl, rfl⟩⟩
  apart := by
    rintro r r' (hr | ⟨rfl, rfl⟩) hforeign
    · exact h.apart hr hforeign
    · exact ha'.new (h.kept hforeign).1
  kept hf := ⟨(ha'.has _).2 (.inl (h.kept hf).1), (h.kept hf).2.trans (ha'.same _ (h.kept hf).1)⟩
  isolated := h.isolated
  inside hr := by
    obtain ⟨r, hr⟩ := h.inside hr
    exact ⟨r, .inl hr⟩
  settledLeft := ha.settled_of h.settledLeft
  settledRight := ha'.settled_of h.settledRight

/-- **Other content for two objects that match.** -/
theorem change (h : Embeds e s t) (hr₀ : e.same r₀ r₀') (hs : s.Changes s' r₀)
    (ht : t.Changes t' r₀') (hc : e.same.Contents s' t' r₀ r₀') : Embeds e s' t' where
  has {r r'} hr := ⟨(hs.has r).2 (h.has hr).1, (ht.has r').2 (h.has hr).2⟩
  contents {r r'} hr := by
    by_cases heq : r = r₀
    · have heq' : r' = r₀' := (h.unique hr hr₀).1 heq
      rw [heq, heq']
      exact hc
    · have heq' : r' ≠ r₀' := fun heq' => heq ((h.unique hr hr₀).2 heq')
      exact (h.contents hr).congr (hs.same r heq) (ht.same r' heq')
  unique := h.unique
  total hr := h.total ((hs.has _).1 hr)
  cover hr' := h.cover ((ht.has _).1 hr')
  apart := h.apart
  kept {r'} hf := by
    have hne : r' ≠ r₀' := by
      rintro rfl
      exact h.apart hr₀ hf
    exact ⟨(ht.has r').2 (h.kept hf).1, (h.kept hf).2.trans (ht.same r' hne)⟩
  isolated := h.isolated
  inside := h.inside
  settledLeft := hs.settled_of h.settledLeft
  settledRight := ht.settled_of h.settledRight

/-! ### New objects -/

theorem newCell (h : Embeds e s t) {a a' b b' : Node} (ha : e.same.Nodes a a')
    (hb : e.same.Nodes b b') :
    ∃ e', e ≤ e' ∧ Embeds e' (s.newCell a b).2 (t.newCell a' b').2 ∧
      e'.same (.cell (s.newCell a b).1) (.cell (t.newCell a' b').1) := by
  refine ⟨_, e.le_add _ _, h.add (s.adds_newCell a b) (t.adds_newCell a' b') ?_,
    .inr ⟨rfl, rfl⟩⟩
  rw [Matching.contents_cell, Store.cell_newCell, Store.cell_newCell, if_pos rfl, if_pos rfl]
  exact ⟨ha, hb⟩

theorem newTail (h : Embeds e s t) (stop : Nat) {items items' : List Node}
    (hi : List.Forall₂ e.same.Nodes items items') :
    ∃ e', e ≤ e' ∧ Embeds e' (s.newTail stop items).2 (t.newTail stop items').2 ∧
      e'.same.Nodes (s.newTail stop items).1 (t.newTail stop items').1 := by
  induction hi with
  | nil => exact ⟨e, le_rfl, h, .nil, rfl⟩
  | @cons item item' items items' hitem _ ih =>
    obtain ⟨e₁, hle₁, h₁, hrest⟩ := ih
    obtain ⟨e₂, hle₂, h₂, hc⟩ := h₁.newCell (hitem.mono hle₁.1) hrest
    refine ⟨e₂, hle₁.trans hle₂, h₂, .pair hc, ?_⟩
    exact congrArg (fun span : Span => Span.mk span.start stop) hitem.span

theorem newFrame (h : Embeds e s t) {outer outer' : Option FrameId} {b b' : Bindings}
    (ho : Option.Rel (fun g g' => e.same (.frame g) (.frame g')) outer outer')
    (hb : List.Forall₂ e.same.Entries b.entries b'.entries) :
    ∃ e', e ≤ e' ∧ Embeds e' (s.newFrame outer b).2 (t.newFrame outer' b').2 ∧
      e'.same (.frame (s.newFrame outer b).1) (.frame (t.newFrame outer' b').1) := by
  refine ⟨_, e.le_add _ _, h.add (s.adds_newFrame outer b) (t.adds_newFrame outer' b') ?_,
    .inr ⟨rfl, rfl⟩⟩
  rw [Matching.contents_frame, Store.frame_newFrame, Store.frame_newFrame, if_pos rfl, if_pos rfl]
  refine ⟨⟨ho, hb⟩, ?_, ?_⟩
  · rintro g hg
    change outer = some g at hg
    subst hg
    cases ho with
    | some hg => exact (h.has hg).1
  · rintro g' hg'
    change outer' = some g' at hg'
    subst hg'
    cases ho with
    | some hg => exact (h.has hg).2

/-- Registries do not matter. -/
theorem withRegistries (h : Embeds e s t) (r r' : Registries) :
    Embeds e { s with registries := r } { t with registries := r' } where
  has := h.has
  contents := h.contents
  unique := h.unique
  total := h.total
  cover := h.cover
  apart := h.apart
  kept := h.kept
  isolated := h.isolated
  inside := h.inside
  settledLeft := h.settledLeft
  settledRight := h.settledRight

theorem enclose (h : Embeds e s t) {f f' : FrameId} (hf : e.same (.frame f) (.frame f'))
    {es es' : List (String × Node)} (hes : List.Forall₂ e.same.Entries es es')
    (held held' : List Ref) :
    ∃ e', e ≤ e' ∧ Embeds e' (s.enclose held f es).2 (t.enclose held' f' es').2 ∧
      e'.same (.frame (s.enclose held f es).1) (.frame (t.enclose held' f' es').1) := by
  obtain ⟨e', hle, h', hg⟩ := h.newFrame (.some hf) (Matching.entries_insertAll hes .nil)
  exact ⟨e', hle, h'.withRegistries _ _, hg⟩

theorem newClosure (h : Embeds e s t) {k k' : Closure} (hk : e.same.Closures k k') :
    ∃ e', e ≤ e' ∧ Embeds e' (s.newClosure k).2 (t.newClosure k').2 ∧
      e'.same (.closure (s.newClosure k).1) (.closure (t.newClosure k').1) := by
  refine ⟨_, e.le_add _ _, h.add (s.adds_newClosure k) (t.adds_newClosure k') ?_,
    .inr ⟨rfl, rfl⟩⟩
  rwa [Matching.contents_closure, Store.closure_newClosure, Store.closure_newClosure, if_pos rfl,
    if_pos rfl]

/-! ### Changes -/

theorem setHalf (h : Embeds e s t) {c c' : CellId} (hc : e.same (.cell c) (.cell c'))
    (half : Half) {n n' : Node} (hn : e.same.Nodes n n') :
    Embeds e (s.setHalf c half n) (t.setHalf c' half n') := by
  refine h.change hc (s.changes_setHalf c half n) (t.changes_setHalf c' half n') ?_
  obtain ⟨hcar, hcdr⟩ := h.cell hc
  obtain ⟨hhas, hhas'⟩ := h.has hc
  rw [Matching.contents_cell, Store.cell_setHalf, Store.cell_setHalf, if_pos ⟨rfl, hhas⟩,
    if_pos ⟨rfl, hhas'⟩]
  cases half with
  | car => exact ⟨hn, hcdr⟩
  | cdr => exact ⟨hcar, hn⟩

theorem bind (h : Embeds e s t) {f f' : FrameId} (hf : e.same (.frame f) (.frame f'))
    (name : String) {n n' : Node} (hn : e.same.Nodes n n') :
    Embeds e (s.bind f name n) (t.bind f' name n') := by
  refine h.change hf (s.changes_bind f name n) (t.changes_bind f' name n') ?_
  obtain ⟨⟨houter, hentries⟩, hlow⟩ := h.contents hf
  obtain ⟨hhas, hhas'⟩ := h.has hf
  rw [Matching.contents_frame, Store.frame_bind, Store.frame_bind, if_pos ⟨rfl, hhas⟩,
    if_pos ⟨rfl, hhas'⟩]
  exact ⟨⟨houter, Matching.entries_insert hentries name hn⟩, hlow⟩

theorem nameClosure (h : Embeds e s t) {k k' : ClosureId} (hk : e.same (.closure k) (.closure k'))
    (name : String) : Embeds e (s.nameClosure k name) (t.nameClosure k' name) := by
  refine h.change hk (s.changes_nameClosure k name) (t.changes_nameClosure k' name) ?_
  obtain ⟨hhas, hhas'⟩ := h.has hk
  rw [Matching.contents_closure, Store.closure_nameClosure, Store.closure_nameClosure,
    if_pos ⟨rfl, hhas⟩, if_pos ⟨rfl, hhas'⟩]
  exact { h.closure hk with name := rfl }

/-! ### Reading a text -/

theorem newList (h : Embeds e s t) (span : Span) {items items' : List Node}
    (hi : List.Forall₂ e.same.Nodes items items') :
    ∃ e', e ≤ e' ∧ Embeds e' (s.newList items span).2 (t.newList items' span).2 ∧
      e'.same.Nodes (s.newList items span).1 (t.newList items' span).1 := by
  obtain ⟨e', hle, h', hn⟩ := h.newTail span.stop hi
  exact ⟨e', hle, h', hn.value, rfl⟩

mutual

theorem load {e : Embedding} : ∀ {s t : Store} (d : Datum), Embeds e s t →
    ∃ e', e ≤ e' ∧ Embeds e' (s.load d).2 (t.load d).2 ∧
      e'.same.Nodes (s.load d).1 (t.load d).1
  | _, _, .atom a span, h => ⟨e, le_rfl, h, .atom a, rfl⟩
  | s, t, .list items span, h => by
    obtain ⟨e₁, hle₁, h₁, hitems⟩ := loadAll items h
    obtain ⟨e₂, hle₂, h₂, hn⟩ := h₁.newList span hitems
    exact ⟨e₂, hle₁.trans hle₂, h₂, hn⟩

theorem loadAll {e : Embedding} : ∀ {s t : Store} (ds : List Datum), Embeds e s t →
    ∃ e', e ≤ e' ∧ Embeds e' (s.loadAll ds).2 (t.loadAll ds).2 ∧
      List.Forall₂ e'.same.Nodes (s.loadAll ds).1 (t.loadAll ds).1
  | _, _, [], h => ⟨e, le_rfl, h, .nil⟩
  | s, t, d :: ds, h => by
    obtain ⟨e₁, hle₁, h₁, hd⟩ := load d h
    obtain ⟨e₂, hle₂, h₂, hds⟩ := loadAll ds h₁
    exact ⟨e₂, hle₁.trans hle₂, h₂, .cons (hd.mono hle₂.1) hds⟩

end

/-! ### Who holds an object -/

theorem forall_of_rel {α β : Type} {R : α → β → Prop} {xs : List α} {ys : List β}
    (h : List.Forall₂ R xs ys) : (∀ x ∈ xs, ∃ y ∈ ys, R x y) ∧ ∀ y ∈ ys, ∃ x ∈ xs, R x y := by
  induction h with
  | nil => exact ⟨nofun, nofun⟩
  | cons hr _ ih =>
    refine ⟨List.forall_mem_cons.2 ⟨⟨_, List.mem_cons_self, hr⟩, fun x hx => ?_⟩,
      List.forall_mem_cons.2 ⟨⟨_, List.mem_cons_self, hr⟩, fun y hy => ?_⟩⟩
    · obtain ⟨y, hy, hxy⟩ := ih.1 x hx
      exact ⟨y, List.mem_cons_of_mem _ hy, hxy⟩
    · obtain ⟨x, hx, hxy⟩ := ih.2 y hy
      exact ⟨x, List.mem_cons_of_mem _ hx, hxy⟩

/-- What an object inside refers to is referred to by its partner, and nothing else is. -/
theorem mem_references (h : Embeds e s t) {o o' r r' : Ref} (ho : e.same o o')
    (hr : e.same r r') : r ∈ s.references o ↔ r' ∈ t.references o' := by
  obtain ⟨hleft, hright⟩ := forall_of_rel (h.contents ho).references
  constructor
  · intro hmem
    obtain ⟨q', hq', hrq⟩ := hleft r hmem
    rwa [(h.unique hr hrq).1 rfl]
  · intro hmem
    obtain ⟨q, hq, hqr⟩ := hright r' hmem
    rwa [(h.unique hr hqr).2 rfl]

/-- An object that refers to one inside is inside, unless the latter is anchored. -/
theorem exists_of_mem_references (h : Embeds e s t) {o' r r' : Ref} (hr : e.same r r')
    (ho' : t.Has o') (hmem : r' ∈ t.references o') : (∃ o, e.same o o') ∨ e.anchored r' := by
  refine (h.cover ho').imp_right fun hforeign => ?_
  rw [(h.kept hforeign).2.references] at hmem
  exact (h.isolated hforeign hmem).resolve_left (h.apart hr)

theorem closed_left (h : Embeds e s t) : s.Closed := by
  intro o ho r hr
  obtain ⟨o', ho'⟩ := h.total ho
  obtain ⟨r', -, hrr'⟩ := (forall_of_rel (h.contents ho').references).1 r hr
  exact (h.has hrr').1

theorem closed_right (h : Embeds e s t) : t.Closed := by
  intro o' ho' r' hr'
  rcases h.cover ho' with ⟨o, ho⟩ | hforeign
  · obtain ⟨r, -, hrr'⟩ := (forall_of_rel (h.contents ho).references).2 r' hr'
    exact (h.has hrr').2
  · rw [(h.kept hforeign).2.references] at hr'
    rcases h.isolated hforeign hr' with hr' | hr'
    · exact (h.kept hr').1
    · obtain ⟨r, hr⟩ := h.inside hr'
      exact (h.has hr).2

/-- The object is held, or foreign objects lead to it from one that is. -/
inductive Reached (e : Embedding) (held : List Ref) : Ref → Prop
  | held {r : Ref} (h : r ∈ held) : Reached e held r
  | foreign {o r : Ref} (ho : Reached e held o) (hf : e.foreign o)
      (h : r ∈ e.origin.references o) : Reached e held r

theorem Reached.mono {e' : Embedding} {held held' : List Ref} {r : Ref} (h : Reached e held r)
    (hheld : ∀ r ∈ held, r ∈ held') (hforeign : ∀ {o}, e.foreign o →
      e'.foreign o ∧ e'.origin.references o = e.origin.references o) : Reached e' held' r := by
  induction h with
  | held h => exact .held (hheld _ h)
  | foreign _ hf h ih => exact .foreign ih (hforeign hf).1 ((hforeign hf).2 ▸ h)

/-- What is held on the right is held on the left, or it is foreign. What is anchored is held on the
left, and foreign objects hold it on the right. -/
structure Held (e : Embedding) (held held' : List Ref) : Prop where
  left : ∀ r ∈ held, ∃ r', e.same r r' ∧ (r' ∈ held' ∨ e.anchored r')
  right : ∀ r' ∈ held', (∃ r ∈ held, e.same r r') ∨ e.foreign r'
  anchors : ∀ r', e.anchored r' → (∃ r ∈ held, e.same r r') ∧ Reached e held' r'

theorem Held.mono {e' : Embedding} {held held' : List Ref} (h : Held e held held')
    (hle : e ≤ e') : Held e' held held' where
  left r hr := by
    obtain ⟨r', hrr', hr'⟩ := h.left r hr
    rw [hle.2.2.2]
    exact ⟨r', hle.1 _ _ hrr', hr'⟩
  right r' hr' := by
    rw [hle.2.1]
    exact (h.right r' hr').imp_left fun ⟨r, hr, hrr'⟩ => ⟨r, hr, hle.1 _ _ hrr'⟩
  anchors r' hr' := by
    rw [hle.2.2.2] at hr'
    obtain ⟨⟨r, hr, hrr'⟩, hreached⟩ := h.anchors r' hr'
    refine ⟨⟨r, hr, hle.1 _ _ hrr'⟩, hreached.mono (fun _ hmem => hmem) fun hf => ?_⟩
    rw [hle.2.1, hle.2.2.1]
    exact ⟨hf, rfl⟩

theorem Held.append {held held' rs rs' : List Ref} (h : Held e held held')
    (hrs : List.Forall₂ e.same rs rs') : Held e (rs ++ held) (rs' ++ held') := by
  obtain ⟨hleft, hright⟩ := forall_of_rel hrs
  constructor
  · intro r hr
    rcases List.mem_append.1 hr with hr | hr
    · obtain ⟨r', hr', hrr'⟩ := hleft r hr
      exact ⟨r', hrr', .inl (List.mem_append_left _ hr')⟩
    · obtain ⟨r', hrr', hr'⟩ := h.left r hr
      exact ⟨r', hrr', hr'.imp_left (List.mem_append_right _)⟩
  · intro r' hr'
    rcases List.mem_append.1 hr' with hr' | hr'
    · obtain ⟨r, hr, hrr'⟩ := hright r' hr'
      exact .inl ⟨r, List.mem_append_left _ hr, hrr'⟩
    · exact (h.right r' hr').imp_left fun ⟨r, hr, hrr'⟩ => ⟨r, List.mem_append_right _ hr, hrr'⟩
  · intro r' hr'
    obtain ⟨⟨r, hr, hrr'⟩, hreached⟩ := h.anchors r' hr'
    exact ⟨⟨r, List.mem_append_right _ hr, hrr'⟩,
      hreached.mono (fun _ => List.mem_append_right _) fun hf => ⟨hf, rfl⟩⟩

/-- The right side may hold more: what is foreign, and partners of what the left side holds. -/
theorem Held.append_right {held held' rs : List Ref} (h : Held e held held')
    (hrs : ∀ r' ∈ rs, (∃ r ∈ held, e.same r r') ∨ e.foreign r') : Held e held (rs ++ held') where
  left r hr := by
    obtain ⟨r', hrr', hr'⟩ := h.left r hr
    exact ⟨r', hrr', hr'.imp_left (List.mem_append_right _)⟩
  right r' hr' := (List.mem_append.1 hr').elim (hrs r') (h.right r')
  anchors r' hr' := by
    obtain ⟨hleft, hreached⟩ := h.anchors r' hr'
    exact ⟨hleft, hreached.mono (fun _ => List.mem_append_right _) fun hf => ⟨hf, rfl⟩⟩

section

variable {held held' : List Ref} {r r' : Ref}

theorem mem_of_mem_held (h : Embeds e s t) (hh : Held e held held') (hr : e.same r r')
    (hmem : r' ∈ held') : r ∈ held := by
  rcases hh.right r' hmem with ⟨q, hq, hqr⟩ | hforeign
  · rwa [(h.unique hr hqr).2 rfl]
  · exact absurd hforeign (h.apart hr)

theorem mem_of_anchored (h : Embeds e s t) (hh : Held e held held') (hr : e.same r r')
    (hanchored : e.anchored r') : r ∈ held := by
  obtain ⟨⟨q, hq, hqr⟩, -⟩ := hh.anchors r' hanchored
  rwa [(h.unique hr hqr).2 rfl]

theorem reached_of_mem_held (h : Embeds e s t) (hh : Held e held held') (hr : e.same r r')
    (hmem : r ∈ held) : Reached e held' r' := by
  obtain ⟨q', hrq, hq'⟩ := hh.left r hmem
  rw [(h.unique hr hrq).1 rfl]
  exact hq'.elim .held fun hanchored => (hh.anchors q' hanchored).2

/-- Foreign objects stay as they are, so what they hold is not dropped. -/
theorem not_dropped_of_reached (h : Embeds e s t) (hr : Reached e held r) : ¬t.Dropped held r := by
  induction hr with
  | held hmem =>
    rintro ⟨hroot, -⟩
    exact hroot hmem
  | foreign _ hf hmem ih =>
    rintro ⟨-, hdropped⟩
    refine ih (hdropped _ (h.kept hf).1 ?_)
    rwa [(h.kept hf).2.references]

end

/-- **Partners are dropped together.** -/
theorem dropped_iff (h : Embeds e s t) {roots roots' : List Ref} (hroots : Held e roots roots')
    {r r' : Ref} (hr : e.same r r') : s.Dropped roots r ↔ t.Dropped roots' r' := by
  constructor
  · intro hdropped
    induction hdropped generalizing r' with
    | @intro r hroot _ ih =>
      refine .intro (fun hmem => hroot (h.mem_of_mem_held hroots hr hmem)) fun o' ho' hmem => ?_
      rcases h.exists_of_mem_references hr ho' hmem with ⟨o, ho⟩ | hanchored
      · exact ih o (h.has ho).1 ((h.mem_references ho hr).2 hmem) ho
      · exact absurd (h.mem_of_anchored hroots hr hanchored) hroot
  · intro hdropped
    induction hdropped generalizing r with
    | @intro r' hroot hall ih =>
      refine .intro (fun hmem => ?_) fun o ho hmem => ?_
      · exact h.not_dropped_of_reached (h.reached_of_mem_held hroots hr hmem) (.intro hroot hall)
      obtain ⟨o', ho'⟩ := h.total ho
      exact ih o' (h.has ho').2 ((h.mem_references ho' hr).1 hmem) ho'

/-- **A closure is held only here on both sides or on neither.** -/
theorem isOnlyHeldHere_eq (h : Embeds e s t) {held held' : List Ref} (hh : Held e held held')
    {k k' : ClosureId} (hk : e.same (.closure k) (.closure k')) :
    s.isOnlyHeldHere held k = t.isOnlyHeldHere held' k' := by
  have hheld : ∀ r ∈ held, s.Has r := fun r hr => by
    obtain ⟨r', hrr', -⟩ := hh.left r hr
    exact (h.has hrr').1
  have hheld' : ∀ r' ∈ held', t.Has r' := fun r' hr' => by
    rcases hh.right r' hr' with ⟨r, -, hrr'⟩ | hforeign
    · exact (h.has hrr').2
    · exact (h.kept hforeign).1
  have hroots : Held e (.closure k :: held) (.closure k' :: held') := hh.append (.cons hk .nil)
  rw [Bool.eq_iff_iff, Store.isOnlyHeldHere_iff h.closed_left h.settledLeft hheld (h.has hk).1,
    Store.isOnlyHeldHere_iff h.closed_right h.settledRight hheld' (h.has hk).2]
  constructor
  · rintro ⟨hfree, hall⟩
    refine ⟨fun hmem => hfree (h.mem_of_mem_held hh hk hmem), fun o' ho' hmem => ?_⟩
    rcases h.exists_of_mem_references hk ho' hmem with ⟨o, ho⟩ | hanchored
    · exact (h.dropped_iff hroots ho).1 (hall o (h.has ho).1 ((h.mem_references ho hk).2 hmem))
    · exact absurd (h.mem_of_anchored hh hk hanchored) hfree
  · rintro ⟨hfree, hall⟩
    refine ⟨fun hmem => ?_, fun o ho hmem => ?_⟩
    · -- on the right the closure is reached through a foreign object, which is not dropped
      cases h.reached_of_mem_held hh hk hmem with
      | held hmem' => exact hfree hmem'
      | foreign ho hf href =>
        have hreached : Reached e (.closure k' :: held') _ :=
          ho.mono (fun _ => List.mem_cons_of_mem _) fun hf => ⟨hf, rfl⟩
        refine h.not_dropped_of_reached hreached (hall _ (h.kept hf).1 ?_)
        rwa [(h.kept hf).2.references]
    · obtain ⟨o', ho'⟩ := h.total ho
      exact (h.dropped_iff hroots ho').2
        (hall o' (h.has ho').2 ((h.mem_references ho' hk).1 hmem))

/-- A closure that is defined gets its name on both sides or on neither. -/
theorem nameFresh (h : Embeds e s t) {held held' : List Ref} (hh : Held e held held')
    {v v' : Value} (hv : e.same.Values v v') (name : String) :
    Embeds e (MiniScheme.nameFresh held v name s) (MiniScheme.nameFresh held' v' name t) := by
  unfold MiniScheme.nameFresh
  cases hv with
  | closure hk =>
    simp only [(h.closure hk).name, h.isOnlyHeldHere_eq hh hk]
    split
    · exact h.nameClosure hk name
    · exact h
  | atom | nil | pair | primitive | unspecified => exact h

end Embeds

end MiniScheme
