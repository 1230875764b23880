import MiniScheme.Proofs.Isolation.Embedding
import MiniScheme.Proofs.Whole

/-!
# An expression in its surroundings

A store lies in itself, and it still does so after objects have been put around it: whatever is
added is foreign, as long as it refers to nothing inside but what is anchored. So an expression can
be evaluated in the store that it was found in, and again inside a form that was built around it,
and the two evaluations go the same way.

* `Embedding.within s A` is the store in itself, with the anchored objects `A`.
* `Embedding.surround` makes one more object foreign; `Widens` is what that leaves as it was.
* `Embedding.Spine v items` says that `v` is a list of `items` whose cells are foreign.

## Results

* `Embeds.within`: a whole store lies in itself.
* `Embeds.surround`, `Embeds.surroundList`: one more foreign object, one more foreign list.
* `Embeds.held_within`: what is held by an evaluation in the store and by one in its surroundings.
* `Embeds.elements?_spine`: a foreign list has the elements that it was built of, however long the
  evaluation inside has run.
-/

namespace MiniScheme

/-! ## A store in itself -/

/-- Every object of the store is the same as itself. -/
def Store.self (s : Store) : Matching := fun r r' => r = r' ∧ s.Has r

namespace Store

variable {s : Store}

theorem nodes_self {n : Node} (h : n.Refers s) : s.self.Nodes n n := by
  refine ⟨?_, rfl⟩
  obtain ⟨v, span⟩ := n
  match v, h with
  | .atom a, _ => exact .atom a
  | .nil, _ => exact .nil
  | .pair c, h => exact .pair ⟨rfl, h _ List.mem_cons_self⟩
  | .procedure (.primitive p), _ => exact .primitive p
  | .procedure (.closure k), h => exact .closure ⟨rfl, h _ List.mem_cons_self⟩
  | .unspecified, _ => exact .unspecified

theorem contents_self (h : s.Whole) {r : Ref} (hr : s.Has r) : s.self.Contents s s r r := by
  cases r with
  | cell c => exact ⟨nodes_self (h.half c .car), nodes_self (h.half c .cdr)⟩
  | frame f =>
    refine ⟨⟨?_, List.forall₂_same.2 fun e he => ⟨rfl, nodes_self fun r hr' => ?_⟩⟩,
      fun _ => h.outer, fun _ => h.outer⟩
    · cases ho : (s.frame f).outer with
      | none => exact .none
      | some g =>
        refine .some ⟨rfl, h.closed _ hr _ (List.mem_append_left _ ?_)⟩
        rw [ho]
        exact List.mem_cons_self
    · exact h.closed _ hr r (List.mem_append_right _ (List.mem_flatMap.2 ⟨e, he, hr'⟩))
  | closure k =>
    obtain ⟨hframe, hbody⟩ := h.closure hr
    exact ⟨rfl, rfl, nodes_self hbody, rfl, hframe⟩

end Store

namespace Embedding

/-- The store in itself. -/
def within (s : Store) (anchored : Ref → Prop) : Embedding :=
  ⟨s.self, fun _ => False, s, anchored⟩

/-- One more object is foreign. The large store is `t` with it. -/
def surround (e : Embedding) (r₀ : Ref) (t : Store) : Embedding :=
  { e with foreign := fun r => e.foreign r ∨ r = r₀, origin := t }

/-- More is foreign, and everything else is as it was. -/
structure Widens (e e' : Embedding) : Prop where
  same : e'.same = e.same
  anchored : e'.anchored = e.anchored
  foreign : ∀ {r}, e.foreign r → e'.foreign r ∧ e.origin.SameAt e'.origin r

variable {e e' e'' : Embedding}

theorem Widens.refl (e : Embedding) : e.Widens e :=
  ⟨rfl, rfl, fun hr => ⟨hr, .refl _ _⟩⟩

theorem Widens.trans (h : e.Widens e') (h' : e'.Widens e'') : e.Widens e'' where
  same := h'.same.trans h.same
  anchored := h'.anchored.trans h.anchored
  foreign hr := ⟨(h'.foreign (h.foreign hr).1).1,
    (h.foreign hr).2.trans (h'.foreign (h.foreign hr).1).2⟩

theorem Widens.refers (h : e.Widens e') {r : Ref} (hr : e.foreign r ∨ e.anchored r) :
    e'.foreign r ∨ e'.anchored r := by
  rw [h.anchored]
  exact hr.imp_left fun hr => (h.foreign hr).1

/-! ## Foreign lists -/

/-- The value is a list of these items, made of foreign cells. -/
inductive Spine (e : Embedding) : Value → List Node → Prop
  | nil : Spine e .nil []
  | pair {c : CellId} {item rest : Node} {items : List Node} (hc : e.foreign (.cell c))
      (hcell : e.origin.cell c = ⟨item, rest⟩) (tail : Spine e rest.value items) :
      Spine e (.pair c) (item :: items)

namespace Spine

variable {v : Value} {items : List Node}

theorem mono (h : e.Spine v items)
    (hforeign : ∀ {r}, e.foreign r → e'.foreign r ∧ e.origin.SameAt e'.origin r) :
    e'.Spine v items := by
  induction h with
  | nil => exact .nil
  | pair hc hcell _ ih =>
    obtain ⟨hf, hsame⟩ := hforeign hc
    exact .pair hf (Eq.trans hsame hcell) ih

/-- A foreign list is none of the objects that an evaluation inside makes. -/
theorem le (h : e.Spine v items) (hle : e ≤ e') : e'.Spine v items := by
  refine h.mono fun hr => ?_
  rw [hle.2.1, hle.2.2.1]
  exact ⟨hr, .refl _ _⟩

theorem exists_pair {item : Node} (h : e.Spine v (item :: items)) : ∃ c, v = .pair c := by
  cases h with
  | pair => exact ⟨_, rfl⟩

theorem foreign (h : e.Spine v items) : ∀ r ∈ v.refs, e.foreign r := by
  cases h with
  | nil => exact nofun
  | pair hc => exact List.forall_mem_singleton.2 hc

/-- What holds a foreign list holds its items. -/
theorem reached (h : e.Spine v items) {held : List Ref}
    (hv : ∀ r ∈ v.refs, Embeds.Reached e held r) :
    ∀ x ∈ items, ∀ r ∈ x.refs, Embeds.Reached e held r := by
  induction h with
  | nil => exact fun x hx => absurd hx List.not_mem_nil
  | @pair c item rest items hc hcell _ ih =>
    have hrefs : e.origin.references (.cell c) = item.refs ++ rest.refs := by
      rw [Store.references, hcell]
    have hnext {r : Ref} (hr : r ∈ item.refs ++ rest.refs) : Embeds.Reached e held r :=
      .foreign (hv (.cell c) List.mem_cons_self) hc (hrefs ▸ hr)
    exact List.forall_mem_cons.2 ⟨fun r hr => hnext (List.mem_append_left _ hr),
      ih fun r hr => hnext (List.mem_append_right _ hr)⟩

end Spine

end Embedding

namespace Embeds

open MiniScheme.Embedding

variable {e : Embedding} {s t t' : Store} {r₀ : Ref}

/-- **A whole store lies in itself.** -/
theorem within (h : s.Whole) {anchored : Ref → Prop} (ha : ∀ r, anchored r → s.Has r) :
    Embeds (.within s anchored) s s where
  has := by
    rintro r _ ⟨rfl, hr⟩
    exact ⟨hr, hr⟩
  contents := by
    rintro r _ ⟨rfl, hr⟩
    exact Store.contents_self h hr
  unique := by
    rintro r _ q _ ⟨rfl, -⟩ ⟨rfl, -⟩
    exact Iff.rfl
  total hr := ⟨_, rfl, hr⟩
  cover hr := .inl ⟨_, rfl, hr⟩
  apart _ := id
  kept := False.elim
  isolated := False.elim
  inside hr := ⟨_, rfl, ha _ hr⟩
  settledLeft := h.settled
  settledRight := h.settled

/-- **One more foreign object.** -/
theorem surround (h : Embeds e s t) (ha : t.Adds t' r₀)
    (hrefs : ∀ r ∈ t'.references r₀, e.foreign r ∨ e.anchored r) :
    Embeds (e.surround r₀ t') s t' ∧ e.Widens (e.surround r₀ t') := by
  have hsame {r : Ref} (hr : e.foreign r) : e.origin.SameAt t' r :=
    (h.kept hr).2.trans (ha.same r (h.kept hr).1)
  refine ⟨⟨⟨fun {r r'} hr => ?_, fun {r r'} hr => ?_, h.unique, h.total⟩, fun {r} hr => ?_,
    fun {r r'} hr hf => ?_, fun {r} hf => ⟨(ha.has r).2 ?_, .refl _ _⟩, fun {r q} hf hq => ?_,
    h.inside, h.settledLeft, ha.settled_of h.settledRight⟩, rfl, rfl, fun hr => ⟨.inl hr, hsame hr⟩⟩
  · exact ⟨(h.has hr).1, (ha.has r').2 (.inl (h.has hr).2)⟩
  · exact (h.contents hr).congr (.refl s r) (ha.same r' (h.has hr).2)
  · rcases (ha.has r).1 hr with hr | rfl
    · exact (h.cover hr).imp_right .inl
    · exact .inr (.inr rfl)
  · rcases hf with hf | rfl
    · exact h.apart hr hf
    · exact ha.new (h.has hr).2
  · exact hf.imp_left fun hf => (h.kept hf).1
  · rcases hf with hf | rfl
    · have hq' : q ∈ e.origin.references r := by rwa [← (hsame hf).references]
      exact (h.isolated hf hq').imp_left .inl
    · exact (hrefs q hq).imp_left .inl

/-- One more cell in front of a foreign list. -/
theorem surroundCell (h : Embeds e s t) {item rest : Node} {items : List Node}
    (hitem : ∀ r ∈ item.refs, e.foreign r ∨ e.anchored r) (hspine : e.Spine rest.value items) :
    ∃ e', e.Widens e' ∧ Embeds e' s (t.newCell item rest).2 ∧
      e'.Spine (.pair (t.newCell item rest).1) (item :: items) := by
  have hcell : (t.newCell item rest).2.cell (t.newCell item rest).1 = ⟨item, rest⟩ := by
    rw [Store.cell_newCell, if_pos rfl]
  obtain ⟨h', hw⟩ := h.surround (t.adds_newCell item rest) fun r hr => by
    rw [Store.references, hcell] at hr
    exact (List.mem_append.1 hr).elim (hitem r) fun hr => .inl (hspine.foreign r hr)
  exact ⟨_, hw, h', .pair (.inr rfl) hcell (hspine.mono hw.foreign)⟩

/-- **One more foreign list.** Its items refer to what is foreign or anchored. -/
theorem surroundTail (h : Embeds e s t) (stop : Nat) {items : List Node}
    (hitems : ∀ x ∈ items, ∀ r ∈ x.refs, e.foreign r ∨ e.anchored r) :
    ∃ e', e.Widens e' ∧ Embeds e' s (t.newTail stop items).2 ∧
      e'.Spine (t.newTail stop items).1.value items := by
  induction items with
  | nil => exact ⟨e, .refl e, h, .nil⟩
  | cons item items ih =>
    obtain ⟨hitem, hitems⟩ := List.forall_mem_cons.1 hitems
    obtain ⟨e₁, hw₁, h₁, hspine⟩ := ih hitems
    obtain ⟨e₂, hw₂, h₂, hspine₂⟩ := h₁.surroundCell (fun r hr => hw₁.refers (hitem r hr)) hspine
    exact ⟨e₂, hw₁.trans hw₂, h₂, hspine₂⟩

theorem surroundList (h : Embeds e s t) (span : Span) (items : List Node)
    (hitems : ∀ x ∈ items, ∀ r ∈ x.refs, e.foreign r ∨ e.anchored r) :
    ∃ e', e.Widens e' ∧ Embeds e' s (t.newList items span).2 ∧
      e'.Spine (t.newList items span).1.value items :=
  h.surroundTail span.stop hitems

/-- One more frame, beneath an anchored one and without names. -/
theorem surroundFrame (h : Embeds e s t) {f : FrameId} (hf : e.anchored (.frame f))
    (held : List Ref) : ∃ e', e.Widens e' ∧ Embeds e' s (t.enclose held f []).2 := by
  obtain ⟨h', hw⟩ := h.surround (t.adds_enclose held f []) fun r hr => by
    rw [Store.references, Store.frame_enclose, if_pos rfl] at hr
    obtain rfl := List.mem_singleton.1 hr
    exact .inr hf
  exact ⟨_, hw, h'⟩

/-- One more closure, made in an anchored frame. -/
theorem surroundClosure (h : Embeds e s t) {k : Closure} (hframe : e.anchored (.frame k.frame))
    (hbody : ∀ r ∈ k.body.refs, e.anchored r) :
    ∃ e', e.Widens e' ∧ Embeds e' s (t.newClosure k).2 ∧
      e'.foreign (.closure (t.newClosure k).1) ∧ e'.origin.closure (t.newClosure k).1 = k := by
  have hclosure : (t.newClosure k).2.closure (t.newClosure k).1 = k := by
    rw [Store.closure_newClosure, if_pos rfl]
  obtain ⟨h', hw⟩ := h.surround (t.adds_newClosure k) fun r hr => by
    rw [Store.references, hclosure] at hr
    rcases List.mem_append.1 hr with hr | hr
    · exact .inr (hbody r hr)
    · obtain rfl := List.mem_singleton.1 hr
      exact .inr hframe
  exact ⟨_, hw, h', .inr rfl, hclosure⟩

/-- **A foreign list stays what it was built of.** -/
theorem elements?_spine (h : Embeds e s t) {v : Value} {items : List Node}
    (hv : e.Spine v items) : t.elements? v = some items := by
  have hlist : t.IsList v items := by
    induction hv with
    | nil => exact .nil
    | @pair c item rest items hc hcell _ ih =>
      obtain ⟨hhas, hsame⟩ := h.kept hc
      have hpair : t.IsList (t.cell c).cdr.value items →
          t.IsList (.pair c) ((t.cell c).car :: items) := .pair hhas
      rw [show t.cell c = ⟨item, rest⟩ from Eq.trans hsame hcell] at hpair
      exact hpair ih
  exact hlist.elements?_eq

/-! ## What is held -/

theorem Held.widen {e' : Embedding} {held held' : List Ref} (h : Held e held held')
    (hw : e.Widens e') : Held e' held held' where
  left := by
    rw [hw.same, hw.anchored]
    exact h.left
  right r' hr' := by
    rw [hw.same]
    exact (h.right r' hr').imp_right fun hf => (hw.foreign hf).1
  anchors r' hr' := by
    rw [hw.anchored] at hr'
    obtain ⟨hleft, hreached⟩ := h.anchors r' hr'
    rw [hw.same]
    exact ⟨hleft, hreached.mono (fun _ hmem => hmem) fun hf =>
      ⟨(hw.foreign hf).1, (hw.foreign hf).2.references⟩⟩

/-- **What a run inside holds.** It holds what is held anyway and what is anchored; the run outside
holds what is held anyway and foreign objects that lead to what is anchored. -/
theorem held_within {inner held rs : List Ref} (hw : (Embedding.within s (· ∈ inner)).Widens e)
    (hinner : ∀ r ∈ inner, s.Has r) (hheld : ∀ r ∈ held, s.Has r) (hrs : ∀ r ∈ rs, e.foreign r)
    (hreached : ∀ r ∈ inner, Reached e (rs ++ held) r) : Held e (inner ++ held) (rs ++ held) := by
  have hself {r : Ref} (hr : s.Has r) : e.same r r := by
    rw [hw.same]
    exact ⟨rfl, hr⟩
  have hanchored {r : Ref} : e.anchored r ↔ r ∈ inner := by
    rw [hw.anchored]
    rfl
  constructor
  · intro r hr
    rcases List.mem_append.1 hr with hr | hr
    · exact ⟨r, hself (hinner r hr), .inr (hanchored.2 hr)⟩
    · exact ⟨r, hself (hheld r hr), .inl (List.mem_append_right _ hr)⟩
  · intro r hr
    rcases List.mem_append.1 hr with hr | hr
    · exact .inr (hrs r hr)
    · exact .inl ⟨r, List.mem_append_right _ hr, hself (hheld r hr)⟩
  · intro r hr
    have hmem := hanchored.1 hr
    exact ⟨⟨r, List.mem_append_left _ hmem, hself (hinner r hmem)⟩, hreached r hmem⟩

end Embeds

end MiniScheme
