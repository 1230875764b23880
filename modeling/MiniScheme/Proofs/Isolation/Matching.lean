import Mathlib.Data.List.Forall2
import MiniScheme.Eval
import MiniScheme.Proofs.Holding
import MiniScheme.Proofs.Lists
import MiniScheme.Proofs.Unfolding
import MiniScheme.Store.Scope

/-!
# Matching stores

Two stores can hold the same objects under other identifiers. A `Matching` says which object of
one is which object of the other; values match when they are equal up to it, and objects match
when their contents do. A store *matches into* another one when its objects all have a partner
there. The other store may hold more: nothing here depends on that.

What can be asked of matching stores has matching answers. The printer is the delicate case. It
knows cells by their identity, and it has fuel for as many cells as the whole store has; the walk
on both sides meets partners only, so it is the cells of the smaller store that count.

## Results

* `Matched.chain`, `Matched.lookup?`, `Matched.root`: scopes.
* `Matched.elements?`: lists.
* `Matched.text`: printed forms.
-/

namespace MiniScheme

/-! ## Related options -/

section

variable {α β γ δ : Type} {R S : α → β → Prop} {Q : γ → δ → Prop} {o : Option α} {o' : Option β}
  {xs : List α} {ys : List β}

theorem rel_imp (h : ∀ a b, R a b → S a b) (ho : Option.Rel R o o') : Option.Rel S o o' := by
  cases ho with
  | some hr => exact .some (h _ _ hr)
  | none => exact .none

theorem isSome_eq_of_rel (h : Option.Rel R o o') : o.isSome = o'.isSome := by
  cases h with
  | some _ => rfl
  | none => rfl

theorem rel_getD (h : Option.Rel R o o') {a : α} {b : β} (hd : R a b) :
    R (o.getD a) (o'.getD b) := by
  cases h with
  | some hr => exact hr
  | none => exact hd

theorem rel_findSome? {f : α → Option γ} {g : β → Option δ} (h : List.Forall₂ R xs ys)
    (hfg : ∀ x y, R x y → Option.Rel Q (f x) (g y)) :
    Option.Rel Q (xs.findSome? f) (ys.findSome? g) := by
  induction h with
  | nil => exact .none
  | @cons x y xs ys hr _ ih =>
    have hxy := hfg x y hr
    rw [List.findSome?_cons, List.findSome?_cons]
    generalize f x = a at hxy ⊢
    generalize g y = b at hxy ⊢
    cases hxy with
    | some hq => exact .some hq
    | none => exact ih

theorem rel_find? {p : α → Bool} {q : β → Bool} (h : List.Forall₂ R xs ys)
    (hpq : ∀ x y, R x y → p x = q y) : Option.Rel R (xs.find? p) (ys.find? q) := by
  induction h with
  | nil => exact .none
  | @cons x y xs ys hr _ ih =>
    rw [List.find?_cons, List.find?_cons, hpq x y hr]
    cases q y with
    | true => exact .some hr
    | false => exact ih

theorem rel_head? (h : List.Forall₂ R xs ys) : Option.Rel R xs.head? ys.head? := by
  cases h with
  | nil => exact .none
  | cons hr _ => exact .some hr

theorem rel_getLast? (h : List.Forall₂ R xs ys) : Option.Rel R xs.getLast? ys.getLast? := by
  rw [List.getLast?_eq_head?_reverse, List.getLast?_eq_head?_reverse]
  exact rel_head? (List.rel_reverse h)

end

/-! ## Matchings -/

/-- Which objects of two stores are the same. -/
abbrev Matching := Ref → Ref → Prop

namespace Matching

variable {ρ σ : Matching}

/-- The values are equal up to the matching. -/
inductive Values (ρ : Matching) : Value → Value → Prop
  | atom (a : Atom) : Values ρ (.atom a) (.atom a)
  | nil : Values ρ .nil .nil
  | pair {c c' : CellId} (h : ρ (.cell c) (.cell c')) : Values ρ (.pair c) (.pair c')
  | primitive (p : Primitive) : Values ρ (.procedure (.primitive p)) (.procedure (.primitive p))
  | closure {k k' : ClosureId} (h : ρ (.closure k) (.closure k')) :
      Values ρ (.procedure (.closure k)) (.procedure (.closure k'))
  | unspecified : Values ρ .unspecified .unspecified

/-- The nodes have values that are equal up to the matching, and the same range. -/
structure Nodes (ρ : Matching) (n n' : Node) : Prop where
  value : ρ.Values n.value n'.value
  span : n.span = n'.span

/-- The same name with values that are equal up to the matching. -/
structure Entries (ρ : Matching) (e e' : String × Node) : Prop where
  name : e.1 = e'.1
  node : ρ.Nodes e.2 e'.2

/-- The frames bind the same names in the same order, beneath matching frames. -/
structure Frames (ρ : Matching) (fr fr' : Frame) : Prop where
  outer : Option.Rel (fun g g' => ρ (.frame g) (.frame g')) fr.outer fr'.outer
  entries : List.Forall₂ ρ.Entries fr.bindings.entries fr'.bindings.entries

/-- The closures have the same name and parameters, matching bodies and matching frames. -/
structure Closures (ρ : Matching) (k k' : Closure) : Prop where
  name : k.name = k'.name
  params : k.params = k'.params
  body : ρ.Nodes k.body k'.body
  frame : ρ (.frame k.frame) (.frame k'.frame)

/-- The contents of two objects match. A frame is made after the frame around it. -/
def Contents (ρ : Matching) (s t : Store) : Ref → Ref → Prop
  | .cell c, .cell c' =>
    ρ.Nodes (s.cell c).car (t.cell c').car ∧ ρ.Nodes (s.cell c).cdr (t.cell c').cdr
  | .frame f, .frame f' =>
    ρ.Frames (s.frame f) (t.frame f') ∧ (∀ g, (s.frame f).outer = some g → g.index < f.index) ∧
      ∀ g, (t.frame f').outer = some g → g.index < f'.index
  | .closure k, .closure k' => ρ.Closures (s.closure k) (t.closure k')
  | _, _ => False

theorem values_pair {c c' : CellId} :
    ρ.Values (.pair c) (.pair c') ↔ ρ (.cell c) (.cell c') := by
  constructor
  · rintro ⟨h⟩
    assumption
  · exact .pair

theorem values_closure {k k' : ClosureId} :
    ρ.Values (.procedure (.closure k)) (.procedure (.closure k')) ↔
      ρ (.closure k) (.closure k') := by
  constructor
  · rintro ⟨h⟩
    assumption
  · exact .closure

theorem contents_cell {s t : Store} {c c' : CellId} :
    ρ.Contents s t (.cell c) (.cell c') ↔
      ρ.Nodes (s.cell c).car (t.cell c').car ∧ ρ.Nodes (s.cell c).cdr (t.cell c').cdr := Iff.rfl

theorem contents_frame {s t : Store} {f f' : FrameId} :
    ρ.Contents s t (.frame f) (.frame f') ↔
      ρ.Frames (s.frame f) (t.frame f') ∧ (∀ g, (s.frame f).outer = some g → g.index < f.index) ∧
        ∀ g, (t.frame f').outer = some g → g.index < f'.index := Iff.rfl

theorem contents_closure {s t : Store} {k k' : ClosureId} :
    ρ.Contents s t (.closure k) (.closure k') ↔ ρ.Closures (s.closure k) (t.closure k') := Iff.rfl

/-! ## Larger matchings -/

theorem Values.mono (h : ∀ r r', ρ r r' → σ r r') {v v' : Value} (hv : ρ.Values v v') :
    σ.Values v v' := by
  cases hv with
  | atom a => exact .atom a
  | nil => exact .nil
  | pair hc => exact .pair (h _ _ hc)
  | primitive p => exact .primitive p
  | closure hk => exact .closure (h _ _ hk)
  | unspecified => exact .unspecified

theorem Nodes.mono (h : ∀ r r', ρ r r' → σ r r') {n n' : Node} (hn : ρ.Nodes n n') :
    σ.Nodes n n' :=
  ⟨hn.value.mono h, hn.span⟩

theorem Entries.mono (h : ∀ r r', ρ r r' → σ r r') {e e' : String × Node}
    (he : ρ.Entries e e') : σ.Entries e e' :=
  ⟨he.name, he.node.mono h⟩

theorem Frames.mono (h : ∀ r r', ρ r r' → σ r r') {fr fr' : Frame} (hf : ρ.Frames fr fr') :
    σ.Frames fr fr' where
  outer := rel_imp (fun _ _ => h _ _) hf.outer
  entries := hf.entries.imp fun _ _ he => he.mono h

theorem Closures.mono (h : ∀ r r', ρ r r' → σ r r') {k k' : Closure} (hk : ρ.Closures k k') :
    σ.Closures k k' :=
  ⟨hk.name, hk.params, hk.body.mono h, h _ _ hk.frame⟩

theorem Contents.mono (h : ∀ r r', ρ r r' → σ r r') {s t : Store} {r r' : Ref}
    (hr : ρ.Contents s t r r') : σ.Contents s t r r' := by
  match r, r', hr with
  | .cell _, .cell _, ⟨hcar, hcdr⟩ => exact ⟨hcar.mono h, hcdr.mono h⟩
  | .frame _, .frame _, ⟨hf, hlow⟩ => exact ⟨hf.mono h, hlow⟩
  | .closure _, .closure _, hk => exact Closures.mono h hk

/-! ## References -/

theorem Values.refs {v v' : Value} (h : ρ.Values v v') : List.Forall₂ ρ v.refs v'.refs := by
  cases h with
  | pair hc => exact .cons hc .nil
  | closure hk => exact .cons hk .nil
  | atom | nil | primitive | unspecified => exact .nil

theorem refs_outer {o o' : Option FrameId}
    (h : Option.Rel (fun g g' => ρ (.frame g) (.frame g')) o o') :
    List.Forall₂ ρ (o.map Ref.frame).toList (o'.map Ref.frame).toList := by
  cases h with
  | some hg => exact .cons hg .nil
  | none => exact .nil

/-- Objects with matching contents refer to matching objects. -/
theorem Contents.references {s t : Store} {r r' : Ref} (h : ρ.Contents s t r r') :
    List.Forall₂ ρ (s.references r) (t.references r') := by
  match r, r', h with
  | .cell _, .cell _, ⟨hcar, hcdr⟩ => exact List.rel_append hcar.value.refs hcdr.value.refs
  | .frame f, .frame f', ⟨hf, _⟩ =>
    exact List.rel_append (refs_outer hf.outer)
      (List.rel_flatMap hf.entries fun _ _ he => he.node.value.refs)
  | .closure _, .closure _, hk => exact List.rel_append hk.body.value.refs (.cons hk.frame .nil)

theorem refsOf_nodes {ns ns' : List Node} (h : List.Forall₂ ρ.Nodes ns ns') :
    List.Forall₂ ρ (refsOf ns) (refsOf ns') :=
  List.rel_flatMap h fun _ _ hn => hn.value.refs

/-! ## Tables -/

theorem entries_lookup {es es' : List (String × Node)} (h : List.Forall₂ ρ.Entries es es')
    (name : String) : Option.Rel ρ.Nodes (es.lookup name) (es'.lookup name) := by
  induction h with
  | nil => exact .none
  | @cons e e' es es' he _ ih =>
    obtain ⟨a, n⟩ := e
    obtain ⟨a', n'⟩ := e'
    obtain rfl : a = a' := he.name
    simp only [List.lookup_cons]
    split
    · exact .some he.node
    · exact ih

theorem entries_insert {es es' : List (String × Node)} (h : List.Forall₂ ρ.Entries es es')
    (name : String) {n n' : Node} (hn : ρ.Nodes n n') :
    List.Forall₂ ρ.Entries (Table.insertEntry name n es) (Table.insertEntry name n' es') := by
  induction h with
  | nil => exact .cons ⟨rfl, hn⟩ .nil
  | @cons e e' es es' he hes ih =>
    simp only [Table.insertEntry, he.name]
    split
    · exact .cons ⟨rfl, hn⟩ hes
    · exact .cons he ih

theorem entries_insertAll {es es' : List (String × Node)} (h : List.Forall₂ ρ.Entries es es')
    {b b' : Bindings} (hb : List.Forall₂ ρ.Entries b.entries b'.entries) :
    List.Forall₂ ρ.Entries (b.insertAll es).entries (b'.insertAll es').entries := by
  induction h generalizing b b' with
  | nil => exact hb
  | @cons e e' es es' he _ ih =>
    obtain ⟨a, n⟩ := e
    obtain ⟨a', n'⟩ := e'
    obtain rfl : a = a' := he.name
    exact ih (entries_insert hb a he.node)

theorem names_eq {es es' : List (String × Node)} (h : List.Forall₂ ρ.Entries es es') :
    es.map Prod.fst = es'.map Prod.fst := by
  induction h with
  | nil => rfl
  | cons he _ ih => rw [List.map_cons, List.map_cons, he.name, ih]

end Matching

/-- The first store matches into the second one. -/
structure Matched (ρ : Matching) (s t : Store) : Prop where
  has : ∀ {r r'}, ρ r r' → s.Has r ∧ t.Has r'
  contents : ∀ {r r'}, ρ r r' → ρ.Contents s t r r'
  unique : ∀ {r r' q q'}, ρ r r' → ρ q q' → (r = q ↔ r' = q')
  total : ∀ {r}, s.Has r → ∃ r', ρ r r'

namespace Matched

variable {ρ : Matching} {s t : Store} (h : Matched ρ s t)

include h

theorem cell {c c' : CellId} (hc : ρ (.cell c) (.cell c')) :
    ρ.Nodes (s.cell c).car (t.cell c').car ∧ ρ.Nodes (s.cell c).cdr (t.cell c').cdr :=
  h.contents hc

theorem frame {f f' : FrameId} (hf : ρ (.frame f) (.frame f')) :
    ρ.Frames (s.frame f) (t.frame f') :=
  (h.contents hf).1

theorem closure {k k' : ClosureId} (hk : ρ (.closure k) (.closure k')) :
    ρ.Closures (s.closure k) (t.closure k') :=
  h.contents hk

/-! ## Scopes -/

/-- Matching frames see matching frames. -/
theorem chain {f f' : FrameId} (hf : ρ (.frame f) (.frame f')) :
    List.Forall₂ (fun g g' => ρ (.frame g) (.frame g')) (s.chain f) (t.chain f') := by
  obtain ⟨⟨houter, -⟩, hlow, hlow'⟩ := h.contents hf
  rw [Store.chain, Store.chain]
  revert houter
  cases hg : (s.frame f).outer with
  | none =>
    cases hg' : (t.frame f').outer with
    | none => exact fun _ => .cons hf .nil
    | some g' =>
      intro houter
      cases houter
  | some g =>
    cases hg' : (t.frame f').outer with
    | none =>
      intro houter
      cases houter
    | some g' =>
      rintro ⟨houter⟩
      have hlt := hlow g hg
      simp only [if_pos hlt, if_pos (hlow' g' hg')]
      exact .cons hf (chain houter)
termination_by f.index

theorem lookup? {f f' : FrameId} (hf : ρ (.frame f) (.frame f')) (name : String) :
    Option.Rel ρ.Nodes (s.lookup? f name) (t.lookup? f' name) :=
  rel_findSome? (h.chain hf) fun _ _ hg => Matching.entries_lookup (h.frame hg).entries name

theorem contains_eq {f f' : FrameId} (hf : ρ (.frame f) (.frame f')) (name : String) :
    (s.frame f).bindings.contains name = (t.frame f').bindings.contains name :=
  isSome_eq_of_rel (Matching.entries_lookup (h.frame hf).entries name)

theorem owner? {f f' : FrameId} (hf : ρ (.frame f) (.frame f')) (name : String) :
    Option.Rel (fun g g' => ρ (.frame g) (.frame g')) (s.owner? f name) (t.owner? f' name) :=
  rel_find? (h.chain hf) fun _ _ hg => h.contains_eq hg name

theorem root {f f' : FrameId} (hf : ρ (.frame f) (.frame f')) :
    ρ (.frame (s.root f)) (.frame (t.root f')) :=
  rel_getD (R := fun g g' => ρ (.frame g) (.frame g')) (rel_getLast? (h.chain hf)) hf

theorem frameText {f f' : FrameId} (hf : ρ (.frame f) (.frame f')) :
    s.frameText f = t.frameText f' := by
  have hnames : (s.frame f).bindings.names = (t.frame f').bindings.names :=
    Matching.names_eq (h.frame hf).entries
  have houter := isSome_eq_of_rel (h.frame hf).outer
  unfold Store.frameText
  dsimp only
  rw [hnames, houter]

/-! ## Lists -/

/-- The elements that are found on the left are found on the right as well. -/
theorem isList_of_left {n : Nat} {v v' : Value} {items : List Node} (hv : ρ.Values v v')
    (hn : s.elementsWithin n v = some items) :
    s.IsList v items ∧ ∃ items', t.IsList v' items' ∧ List.Forall₂ ρ.Nodes items items' := by
  induction n generalizing v v' items with
  | zero =>
    cases hv <;> cases hn
    exact ⟨.nil, [], .nil, .nil⟩
  | succ n ih =>
    cases hv with
    | nil =>
      cases hn
      exact ⟨.nil, [], .nil, .nil⟩
    | pair hc =>
      obtain ⟨rest, hrest, rfl⟩ := Option.map_eq_some_iff.1 hn
      obtain ⟨hcar, hcdr⟩ := h.cell hc
      obtain ⟨hlist, rest', hlist', hall⟩ := ih hcdr.value hrest
      exact ⟨.pair (h.has hc).1 hlist, _, .pair (h.has hc).2 hlist', .cons hcar hall⟩
    | atom | primitive | closure | unspecified => cases hn

/-- The elements that are found on the right are found on the left as well. -/
theorem isList_of_right {n : Nat} {v v' : Value} {items' : List Node} (hv : ρ.Values v v')
    (hn : t.elementsWithin n v' = some items') : ∃ items, s.IsList v items := by
  induction n generalizing v v' items' with
  | zero =>
    cases hv <;> cases hn
    exact ⟨[], .nil⟩
  | succ n ih =>
    cases hv with
    | nil => exact ⟨[], .nil⟩
    | pair hc =>
      obtain ⟨rest, hrest, -⟩ := Option.map_eq_some_iff.1 hn
      obtain ⟨items, hlist⟩ := ih (h.cell hc).2.value hrest
      exact ⟨_, .pair (h.has hc).1 hlist⟩
    | atom | primitive | closure | unspecified => cases hn

/-- Matching values have matching elements. -/
theorem elements? {v v' : Value} (hv : ρ.Values v v') :
    Option.Rel (List.Forall₂ ρ.Nodes) (s.elements? v) (t.elements? v') := by
  cases hs : s.elements? v with
  | some items =>
    obtain ⟨-, items', hlist', hall⟩ := h.isList_of_left hv hs
    rw [hlist'.elements?_eq]
    exact .some hall
  | none =>
    cases ht : t.elements? v' with
    | none => exact .none
    | some items' =>
      obtain ⟨items, hlist⟩ := h.isList_of_right hv ht
      rw [hlist.elements?_eq] at hs
      cases hs

/-! ## Printed forms -/

omit h in
/-- Partners are on both paths or on neither. -/
def Paths (ρ : Matching) (path path' : List CellId) : Prop :=
  ∀ c c', ρ (.cell c) (.cell c') → (c ∈ path ↔ c' ∈ path')

theorem paths_cons {path path' : List CellId} (hp : Paths ρ path path') {c c' : CellId}
    (hc : ρ (.cell c) (.cell c')) : Paths ρ (c :: path) (c' :: path') := by
  intro d d' hd
  have hiff : d = c ↔ d' = c' := by
    have := h.unique hd hc
    simpa using this
  rw [List.mem_cons, List.mem_cons, hp d d' hd, hiff]

theorem leafChars {v v' : Value} (hv : ρ.Values v v') : s.leafChars v = t.leafChars v' := by
  cases hv with
  | closure hk =>
    unfold Store.leafChars Store.procedureChars
    dsimp only
    rw [(h.closure hk).name]
  | primitive p =>
    unfold Store.leafChars Store.procedureChars
    dsimp only
  | atom | nil | pair | unspecified => rfl

/-- **Two unfoldings in step.** What unfolds on the left unfolds on the right, with the same
text. -/
theorem unfolds {path path' : List CellId} {v v' : Value} {u : Unfolding}
    (hu : s.Unfolds path v u) (hv : ρ.Values v v') (hp : Paths ρ path path') :
    ∃ u', t.Unfolds path' v' u' ∧ u'.chars t = u.chars s ∧ u'.tailChars t = u.tailChars s := by
  induction hu generalizing path' v' with
  | leaf hleaf =>
    have hchars := h.leafChars hv
    cases hv with
    | pair hc => exact absurd rfl (hleaf _)
    | nil => exact ⟨_, .leaf fun _ => Value.noConfusion, rfl, rfl⟩
    | atom | primitive | closure | unspecified =>
      refine ⟨_, .leaf fun _ => Value.noConfusion, hchars.symm, ?_⟩
      simp only [Unfolding.tailChars, hchars]
  | cycle hmem =>
    cases hv with
    | pair hc => exact ⟨.cycle, .cycle ((hp _ _ hc).1 hmem), rfl, rfl⟩
  | pair hmem _ _ ihcar ihcdr =>
    cases hv with
    | pair hc =>
      obtain ⟨hcar, hcdr⟩ := h.cell hc
      obtain ⟨car, hcar, hchars, -⟩ := ihcar hcar.value (h.paths_cons hp hc)
      obtain ⟨cdr, hcdr, -, htail⟩ := ihcdr hcdr.value (h.paths_cons hp hc)
      refine ⟨.pair car cdr, .pair (mt (hp _ _ hc).2 hmem) hcar hcdr, ?_, ?_⟩
      · rw [Unfolding.chars, Unfolding.chars, hchars, htail]
      · rw [Unfolding.tailChars, Unfolding.tailChars, hchars, htail]

/-- **Matching values are printed alike.** -/
theorem text {v v' : Value} (hv : ρ.Values v v') : s.text v = t.text v' := by
  obtain ⟨u, hu, -⟩ := s.exists_unfolds [] v
  have hempty : Paths ρ [] [] := fun _ _ _ => by simp
  obtain ⟨u', hu', hchars, -⟩ := h.unfolds hu hv hempty
  rw [hu.text_eq, hu'.text_eq, hchars]

end Matched

end MiniScheme
