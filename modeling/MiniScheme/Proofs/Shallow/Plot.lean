import MiniScheme.Proofs.Code.Immutable
import MiniScheme.Proofs.Grammar
import MiniScheme.Proofs.Mutation
import MiniScheme.Proofs.Whole

/-!
# What a program without closures can come by

The objects that a program can come by are those that it can reach from its global frame and those
that it makes itself. If no closure is among the former and the program makes none then it never
comes by one, whatever there is elsewhere in the store. A `Plot` records these objects: frames,
cells of data, and the cells of code that the program was read into. Nothing that belongs to a plot
refers to anything outside it (`Plot.Fits`).

An operation adds an object or changes one. `Plot.Fits.add` and `Plot.Fits.change` say once what
has to be known of either kind.

`Layout.Within` says that a node of code can be read in a role with a number of levels of nesting,
each list taking one, and that no list in it is a `lambda` form.

## Results

* `Plot.Fits.newCell`, `Plot.Fits.enclose` and so on: the operations of an evaluation.
* `Plot.Fits.load`: what is read belongs to the plot, and it takes as many levels as it is nested.
* `Store.exists_fits`: the objects that can be reached from a frame are a plot.
-/

namespace MiniScheme

/-! ## Plots -/

/-- Some objects of a store: cells, each with its use, and frames. Closures are not among them;
`closures` is what the store has of those. -/
structure Plot where
  layout : Layout
  frame : FrameId → Prop
  closures : Array Closure

namespace Plot

instance : Preorder Plot where
  le P P' := P.layout ≤ P'.layout ∧ (∀ f, P.frame f → P'.frame f) ∧ P'.closures = P.closures
  le_refl P := ⟨le_rfl, fun _ h => h, rfl⟩
  le_trans _ _ _ h h' :=
    ⟨h.1.trans h'.1, fun f hf => h'.2.1 f (h.2.1 f hf), h'.2.2.trans h.2.2⟩

/-- The object belongs to the plot, as something that values refer to. -/
def Own (P : Plot) : Ref → Prop
  | .cell c => P.layout.mark c = some .data
  | .frame f => P.frame f
  | .closure _ => False

/-- All these objects belong to the plot. -/
def Owns (P : Plot) (refs : List Ref) : Prop := ∀ r ∈ refs, P.Own r

/-- The store has the objects of the plot. Cells of code are as they were built, and what belongs
to the plot refers to nothing else. -/
structure Fits (P : Plot) (s : Store) : Prop where
  code : ∀ {c k}, P.layout.mark c = some (.code k) → s.Has (.cell c) ∧ s.cell c = k
  has : ∀ {r}, P.Own r → s.Has r
  closed : ∀ {r}, P.Own r → P.Owns (s.references r)
  closures : s.closures = P.closures

variable {P P' : Plot} {s t : Store}

theorem Own.mono (h : P ≤ P') {r : Ref} (hr : P.Own r) : P'.Own r := by
  cases r with
  | cell c => exact h.1 c _ hr
  | frame f => exact h.2.1 f hr
  | closure k => exact hr

theorem Owns.mono (h : P ≤ P') {refs : List Ref} (hr : P.Owns refs) : P'.Owns refs :=
  fun r hmem => (hr r hmem).mono h

theorem owns_nil (P : Plot) : P.Owns [] := List.forall_mem_nil _

theorem owns_append {refs refs' : List Ref} :
    P.Owns (refs ++ refs') ↔ P.Owns refs ∧ P.Owns refs' := List.forall_mem_append

/-- A value that belongs to the plot is no closure. -/
theorem Owns.ne_closure {n : Node} (h : P.Owns n.refs) (k : ClosureId) :
    n.value ≠ .procedure (.closure k) := by
  intro hk
  refine h (.closure k) ?_
  rw [Node.refs, hk]
  exact List.mem_cons_self

theorem Owns.cell {n : Node} (h : P.Owns n.refs) {c : CellId} (hc : n.value = .pair c) :
    P.Own (.cell c) := by
  refine h _ ?_
  rw [Node.refs, hc]
  exact List.mem_cons_self

/-! ## Adding and changing one object -/

/-- The plot with one more object, be it a frame or a cell of data. -/
def add (P : Plot) : Ref → Plot
  | .cell c => { P with layout := Separated.addData P.layout c }
  | .frame f => { P with frame := fun g => P.frame g ∨ g = f }
  | .closure _ => P

namespace Fits

theorem has_mark (h : P.Fits s) {c : CellId} {k : Mark} (hc : P.layout.mark c = some k) :
    s.Has (.cell c) := by
  cases k with
  | code k => exact (h.code hc).1
  | data => exact h.has (r := .cell c) hc

theorem le_add (h : P.Fits s) {r₀ : Ref} (hnew : ¬s.Has r₀) : P ≤ P.add r₀ := by
  cases r₀ with
  | cell c =>
    refine ⟨fun d k hd => ?_, fun _ hf => hf, rfl⟩
    have hne : d ≠ c := by
      rintro rfl
      exact hnew (h.has_mark hd)
    simp only [add, Separated.addData, if_neg hne, hd]
  | frame f => exact ⟨le_rfl, fun _ hg => .inl hg, rfl⟩
  | closure k => exact le_rfl

end Fits

theorem own_add {r₀ r : Ref} (h : (P.add r₀).Own r) : P.Own r ∨ r = r₀ := by
  cases r₀ with
  | cell c =>
    cases r with
    | cell d =>
      by_cases hd : d = c
      · exact .inr (congrArg Ref.cell hd)
      · simp only [add, Own, Separated.addData, if_neg hd] at h
        exact .inl h
    | frame f => exact .inl h
    | closure k => exact .inl h
  | frame f =>
    cases r with
    | frame g => exact h.imp_right (congrArg Ref.frame)
    | cell c => exact .inl h
    | closure k => exact .inl h
  | closure k => exact .inl h

theorem own_add_self {r₀ : Ref} (h : ∀ k, r₀ ≠ .closure k) : (P.add r₀).Own r₀ := by
  cases r₀ with
  | cell c => simp [add, Own, Separated.addData]
  | frame f => exact .inr rfl
  | closure k => exact absurd rfl (h k)

theorem code_of_add {r₀ : Ref} {c : CellId} {k : Cell}
    (h : (P.add r₀).layout.mark c = some (.code k)) : P.layout.mark c = some (.code k) := by
  cases r₀ with
  | cell d =>
    simp only [add, Separated.addData] at h
    split at h
    · cases h
    · exact h
  | frame f => exact h
  | closure k => exact h

namespace Fits

/-- **One more object.** It may refer to what belongs to the plot. -/
theorem add (h : P.Fits s) {r₀ : Ref} (ha : s.Adds t r₀) (hclosures : t.closures = s.closures)
    (hrefs : P.Owns (t.references r₀)) : (P.add r₀).Fits t where
  code hc := by
    obtain ⟨hhas, hk⟩ := h.code (code_of_add hc)
    exact ⟨(ha.has _).2 (.inl hhas), Eq.trans (ha.same _ hhas) hk⟩
  has hr := (ha.has _).2 ((own_add hr).imp_left h.has)
  closed {r} hr := by
    refine Owns.mono (h.le_add ha.new) ?_
    rcases own_add hr with hold | rfl
    · rw [(ha.same r (h.has hold)).references]
      exact h.closed hold
    · exact hrefs
  closures := by
    rw [hclosures, h.closures]
    cases r₀ <;> rfl

/-- **One object with other content.** It has to belong to the plot, and it may refer to what
does. -/
theorem change (h : P.Fits s) {r₀ : Ref} (hr₀ : P.Own r₀) (hc : s.Changes t r₀)
    (hclosures : t.closures = s.closures) (hrefs : P.Owns (t.references r₀)) : P.Fits t where
  code {c k} hk := by
    have hne : Ref.cell c ≠ r₀ := by
      rintro rfl
      cases hk.symm.trans hr₀
    obtain ⟨hhas, hcell⟩ := h.code hk
    exact ⟨(hc.has _).2 hhas, Eq.trans (hc.same _ hne) hcell⟩
  has hr := (hc.has _).2 (h.has hr)
  closed {r} hr := by
    by_cases heq : r = r₀
    · rw [heq]
      exact hrefs
    · rw [(hc.same r heq).references]
      exact h.closed hr
  closures := hclosures.trans h.closures

/-! ## What objects hold -/

theorem half (h : P.Fits s) {c : CellId} (hc : P.Own (.cell c)) (half : Half) :
    P.Owns ((s.cell c).half half).refs := by
  obtain ⟨hcar, hcdr⟩ := owns_append.1 (h.closed hc)
  cases half with
  | car => exact hcar
  | cdr => exact hcdr

theorem outer (h : P.Fits s) {f g : FrameId} (hf : P.frame f) (hg : (s.frame f).outer = some g) :
    P.frame g := by
  refine h.closed (r := .frame f) hf (.frame g) (List.mem_append_left _ ?_)
  rw [hg]
  exact List.mem_cons_self

theorem binding (h : P.Fits s) {f : FrameId} (hf : P.frame f) {name : String} {v : Node}
    (hv : (s.frame f).bindings.get? name = some v) : P.Owns v.refs := by
  intro r hr
  have hmem := Table.mem_entries_of_get? hv
  exact h.closed (r := .frame f) hf r
    (List.mem_append_right _ (List.mem_flatMap.2 ⟨(name, v), hmem, hr⟩))

/-- The frames that are visible from a frame of the plot belong to it. -/
theorem chain (h : P.Fits s) {f : FrameId} (hf : P.frame f) : ∀ g ∈ s.chain f, P.frame g := by
  fun_induction Store.chain s f with
  | case1 f g ho hlt ih => exact List.forall_mem_cons.2 ⟨hf, ih (h.outer hf ho)⟩
  | case2 f g ho hlt => exact List.forall_mem_singleton.2 hf
  | case3 f ho => exact List.forall_mem_singleton.2 hf

theorem root (h : P.Fits s) {f : FrameId} (hf : P.frame f) : P.frame (s.root f) := by
  obtain ⟨g, hg⟩ := Option.ne_none_iff_exists'.1
    (mt List.getLast?_eq_none_iff.1 (s.chain_ne_nil f))
  unfold Store.root
  rw [hg]
  exact h.chain hf g (List.mem_of_getLast? hg)

theorem lookup (h : P.Fits s) {f : FrameId} (hf : P.frame f) {name : String} {v : Node}
    (hv : s.lookup? f name = some v) : P.Owns v.refs := by
  obtain ⟨g, hg, hget⟩ := List.exists_of_findSome?_eq_some hv
  exact h.binding (h.chain hf g hg) hget

theorem owner (h : P.Fits s) {f g : FrameId} (hf : P.frame f) {name : String}
    (hg : s.owner? f name = some g) : P.frame g :=
  h.chain hf g (List.mem_of_find?_eq_some hg)

/-! ## Operations -/

theorem newCell (h : P.Fits s) {car cdr : Node} (hcar : P.Owns car.refs) (hcdr : P.Owns cdr.refs) :
    ∃ P', P ≤ P' ∧ P'.Fits (s.newCell car cdr).2 ∧ P'.Own (.cell (s.newCell car cdr).1) := by
  have hadds := s.adds_newCell car cdr
  refine ⟨P.add _, h.le_add hadds.new, h.add hadds rfl ?_, own_add_self nofun⟩
  rw [Store.references, Store.cell_newCell, if_pos rfl]
  exact owns_append.2 ⟨hcar, hcdr⟩

theorem newTail (h : P.Fits s) (stop : Nat) {items : List Node}
    (hitems : ∀ x ∈ items, P.Owns x.refs) :
    ∃ P', P ≤ P' ∧ P'.Fits (s.newTail stop items).2 ∧ P'.Owns (s.newTail stop items).1.refs := by
  induction items with
  | nil => exact ⟨P, le_rfl, h, P.owns_nil⟩
  | cons item items ih =>
    obtain ⟨hitem, hitems⟩ := List.forall_mem_cons.1 hitems
    obtain ⟨P₁, hle₁, h₁, htail⟩ := ih hitems
    obtain ⟨P₂, hle₂, h₂, hcell⟩ := h₁.newCell (hitem.mono hle₁) htail
    exact ⟨P₂, hle₁.trans hle₂, h₂, List.forall_mem_singleton.2 hcell⟩

theorem enclose (h : P.Fits s) (held : List Ref) {f : FrameId} (hf : P.frame f)
    {entries : List (String × Node)} (hentries : ∀ e ∈ entries, P.Owns e.2.refs) :
    ∃ P', P ≤ P' ∧ P'.Fits (s.enclose held f entries).2 ∧
      P'.frame (s.enclose held f entries).1 := by
  have hadds := s.adds_enclose held f entries
  refine ⟨P.add (.frame (s.enclose held f entries).1), h.le_add hadds.new, h.add hadds rfl ?_,
    .inr rfl⟩
  rw [Store.references, Store.frame_enclose, if_pos rfl]
  refine owns_append.2 ⟨List.forall_mem_singleton.2 hf, fun r hr => ?_⟩
  obtain ⟨e, he, hr⟩ := List.mem_flatMap.1 hr
  obtain ⟨entry, hentry, heq⟩ := (Store.exists_of_mem_insertAll he).resolve_right List.not_mem_nil
  rw [heq] at hr
  exact hentries entry hentry r hr

theorem setHalf (h : P.Fits s) {c : CellId} (hc : P.Own (.cell c)) (half : Half) {n : Node}
    (hn : P.Owns n.refs) : P.Fits (s.setHalf c half n) := by
  have hhalf (half' : Half) : P.Owns (((s.setHalf c half n).cell c).half half').refs := by
    rcases s.half_setHalf c c half half' n with heq | heq
    · rw [heq]
      exact hn
    · rw [heq]
      exact h.half hc half'
  exact h.change hc (s.changes_setHalf c half n) rfl (owns_append.2 ⟨hhalf .car, hhalf .cdr⟩)

theorem bind (h : P.Fits s) {f : FrameId} (hf : P.frame f) (name : String) {n : Node}
    (hn : P.Owns n.refs) : P.Fits (s.bind f name n) := by
  have hown : P.Own (.frame f) := hf
  obtain ⟨houter, hbindings⟩ := owns_append.1 (h.closed hown)
  refine h.change hown (s.changes_bind f name n) rfl ?_
  rw [Store.references, Store.frame_bind, if_pos ⟨rfl, h.has hown⟩]
  refine owns_append.2 ⟨houter, fun r hr => ?_⟩
  obtain ⟨e, he, hr⟩ := List.mem_flatMap.1 hr
  rcases Store.mem_insertEntry he with heq | he
  · rw [heq] at hr
    exact hn r hr
  · exact hbindings r (List.mem_flatMap.2 ⟨e, he, hr⟩)

theorem defineGlobal (h : P.Fits s) {f : FrameId} (hf : P.frame f) (name : String) {n : Node}
    (hn : P.Owns n.refs) : P.Fits (s.defineGlobal f name n) := h.bind (h.root hf) name hn

end Fits

end Plot

/-! ## Code -/

/-- The node can be read in the role with a number of levels of nesting, of which each list takes
one, and no list in it is a `lambda` form. -/
inductive Layout.Within (L : Layout) : Nat → Role → Node → Prop
  | leaf {room : Nat} {r : Role} {n : Node} (h : n.refs = []) : Within L (room + 1) r n
  | datum {room : Nat} {n : Node} (h : L.Data n.value)
      (hk : ∀ k, n.value ≠ .procedure (.closure k)) : Within L (room + 1) .datum n
  | list {room : Nat} {r : Role} {n : Node} {items : List Node} (hr : r ≠ .datum)
      (hc : L.Chain n.value items) (hl : headForm items ≠ some .lambda)
      (hi : ∀ i x, items[i]? = some x → Within L room (r.item (headForm items) i) x) :
      Within L (room + 1) r n

namespace Layout.Within

variable {L L' : Layout} {room room' : Nat} {r : Role} {n : Node}

theorem mono (hL : L ≤ L') (h : L.Within room r n) (hroom : room ≤ room') :
    L'.Within room' r n := by
  induction h generalizing room' with
  | leaf h =>
    obtain ⟨k, rfl⟩ : ∃ k, room' = k + 1 := ⟨room' - 1, by omega⟩
    exact .leaf h
  | datum h hk =>
    obtain ⟨k, rfl⟩ : ∃ k, room' = k + 1 := ⟨room' - 1, by omega⟩
    exact .datum (h.mono hL) hk
  | list hr hc hl _ ih =>
    obtain ⟨k, rfl⟩ : ∃ k, room' = k + 1 := ⟨room' - 1, by omega⟩
    exact .list hr (hc.mono hL) hl fun i x hx => ih i x hx (Nat.le_of_succ_le_succ hroom)

theorem ne_zero (h : L.Within room r n) : room ≠ 0 := by
  cases h <;> exact Nat.succ_ne_zero _

end Layout.Within

/-- What is no closure refers to a cell at most. -/
theorem Plot.owns_of_data {P : Plot} {n : Node} (h : P.layout.Data n.value)
    (hk : ∀ k, n.value ≠ .procedure (.closure k)) : P.Owns n.refs := by
  obtain ⟨v, span⟩ := n
  match v with
  | .pair c => exact List.forall_mem_singleton.2 (h c rfl)
  | .procedure (.closure k) => exact absurd rfl (hk k)
  | .atom _ | .nil | .unspecified | .procedure (.primitive _) => exact P.owns_nil

/-- Code that is quoted, or that is no pair, is a value. -/
theorem Layout.Within.owns {P : Plot} {room : Nat} {r : Role} {n : Node}
    (h : P.layout.Within room r n) (hn : r = .datum ∨ ∀ c, n.value ≠ .pair c) :
    P.Owns n.refs := by
  cases h with
  | leaf h =>
    rw [h]
    exact P.owns_nil
  | datum h hk => exact Plot.owns_of_data h hk
  | list hr hc =>
    have hleaf := hn.resolve_left hr
    obtain ⟨v, span⟩ := n
    cases hc with
    | nil => exact P.owns_nil
    | pair => exact absurd rfl (hleaf _)

namespace Plot.Fits

variable {P : Plot} {s : Store}

theorem isList (h : P.Fits s) {v : Value} {items : List Node} (hc : P.layout.Chain v items) :
    s.IsList v items := by
  induction hc with
  | nil => exact .nil
  | pair hc _ ih =>
    obtain ⟨hhas, rfl⟩ := h.code hc
    exact .pair hhas ih

/-- **Taking code apart.** The items of a list have one level less. -/
theorem elements (h : P.Fits s) {room : Nat} {r : Role} {n : Node}
    (hn : P.layout.Within (room + 1) r n) (hr : r ≠ .datum) {items : List Node}
    (hi : s.elements? n.value = some items) :
    headForm items ≠ some .lambda ∧
      ∀ i x, items[i]? = some x → P.layout.Within room (r.item (headForm items) i) x := by
  cases hn with
  | leaf hrefs =>
    have hleaf : ∀ c, n.value ≠ .pair c := by
      intro c hc
      rw [Node.refs, hc] at hrefs
      cases hrefs
    obtain ⟨-, rfl⟩ := Store.elements?_leaf hleaf hi
    refine ⟨fun hform => ?_, fun i x hx => ?_⟩
    · cases hform
    · rw [List.getElem?_nil] at hx
      cases hx
  | datum => exact absurd rfl hr
  | list _ hc hl hitems =>
    cases hi.symm.trans (h.isList hc).elements?_eq
    exact ⟨hl, hitems⟩

/-- The items of a list have as many levels as the list at least. -/
theorem parts (h : P.Fits s) {room : Nat} {r : Role} {n : Node} (hn : P.layout.Within room r n)
    (hr : r ≠ .datum) {items : List Node} (hi : s.elements? n.value = some items) :
    ∀ i x, items[i]? = some x → P.layout.Within room (r.item (headForm items) i) x := by
  obtain ⟨k, rfl⟩ : ∃ k, room = k + 1 := Nat.exists_eq_succ_of_ne_zero hn.ne_zero
  exact fun i x hx => ((h.elements hn hr hi).2 i x hx).mono le_rfl (Nat.le_succ k)

end Plot.Fits

/-! ## Reading -/

theorem Datum.symbols_subset_symbolsAll {d : Datum} {ds : List Datum} (hd : d ∈ ds) :
    d.symbols ⊆ symbolsAll ds := by
  induction ds with
  | nil => cases hd
  | cons e ds ih =>
    intro name hname
    rcases List.mem_cons.1 hd with rfl | hd
    · exact List.mem_append_left _ hname
    · exact List.mem_append_right _ (ih hd hname)

/-- A list that is built of a datum is a `lambda` form only if the datum mentions `lambda`. -/
theorem Store.headForm_ne_lambda {s : Store} {nodes : List Node} {items : List Datum}
    (h : List.Forall₂ s.Holds nodes items) (hl : Form.lambda.keyword ∉ Datum.symbolsAll items) :
    headForm nodes ≠ some .lambda := by
  intro hform
  cases h with
  | nil => cases hform
  | cons hhead _ =>
    refine hl (List.mem_append_left _ (hhead.mem_symbols ?_))
    rw [Value.eq_of_symbol? (symbol?_of_formOf hform)]
    exact .symbol

namespace Plot.Fits

variable {P : Plot} {s : Store}

/-- **A datum takes as many levels as it is nested.** -/
theorem within (h : P.Fits s) {r : Role} {n : Node} (hn : P.layout.Reads r n) {d : Datum}
    (hd : s.Holds n d) (hl : Form.lambda.keyword ∉ d.symbols) {room : Nat}
    (hroom : d.depth ≤ room) : P.layout.Within (room + 1) r n := by
  induction hn generalizing d room with
  | leaf hleaf =>
    cases hd with
    | atom a span => exact .leaf rfl
    | list span chain _ =>
      cases chain with
      | nil => exact .leaf rfl
      | pair => exact absurd rfl (hleaf _)
  | datum hdata =>
    refine .datum hdata ?_
    cases hd with
    | atom a span => exact nofun
    | list span chain _ => cases chain <;> exact nofun
  | list hr hc _ ih =>
    cases hd with
    | atom a span => cases hc
    | @list v nodes items span chain elements =>
      cases (h.isList hc).unique chain
      rw [Datum.depth] at hroom
      obtain ⟨k, rfl⟩ : ∃ k, room = k + 1 := ⟨room - 1, by omega⟩
      refine .list hr hc (Store.headForm_ne_lambda elements hl) fun i x hx => ?_
      obtain ⟨e, he, hholds⟩ : ∃ e, items[i]? = some e ∧ s.Holds x e := by
        obtain ⟨hlt, rfl⟩ := List.getElem?_eq_some_iff.1 hx
        have hlt' : i < items.length := elements.length_eq ▸ hlt
        exact ⟨_, List.getElem?_eq_getElem hlt', (List.forall₂_iff_get.1 elements).2 i hlt hlt'⟩
      have hmem : e ∈ items := List.mem_of_getElem? he
      refine ih i x hx hholds (fun hname => hl (Datum.symbols_subset_symbolsAll hmem hname)) ?_
      exact (Datum.depth_le_depthAll hmem).trans (Nat.le_of_succ_le_succ hroom)

end Plot.Fits

/-- No cell from the index on holds a closure. -/
def Store.FreeFrom (t : Store) (start : Nat) : Prop :=
  ∀ c : CellId, start ≤ c.index → ∀ half k, ((t.cell c).half half).value ≠ .procedure (.closure k)

namespace Store.FreeFrom

variable {s : Store} {start : Nat}

theorem newCell (h : s.FreeFrom start) {car cdr : Node}
    (hcar : ∀ k, car.value ≠ .procedure (.closure k))
    (hcdr : ∀ k, cdr.value ≠ .procedure (.closure k)) : (s.newCell car cdr).2.FreeFrom start := by
  intro c hc half
  rcases s.half_newCell car cdr c half with heq | heq | heq
  · rw [heq]
    exact hcar
  · rw [heq]
    exact hcdr
  · rw [heq]
    exact h c hc half

theorem newTail (h : s.FreeFrom start) (stop : Nat) {items : List Node}
    (hitems : ∀ x ∈ items, ∀ k, x.value ≠ .procedure (.closure k)) :
    (s.newTail stop items).2.FreeFrom start ∧
      ∀ k, (s.newTail stop items).1.value ≠ .procedure (.closure k) := by
  induction items with
  | nil => exact ⟨h, nofun⟩
  | cons item items ih =>
    obtain ⟨hitem, hitems⟩ := List.forall_mem_cons.1 hitems
    obtain ⟨htail, hnode⟩ := ih hitems
    exact ⟨htail.newCell hitem hnode, nofun⟩

mutual

/-- Reading makes no closures. -/
theorem load : ∀ {s : Store}, s.FreeFrom start → ∀ d : Datum,
    (s.load d).2.FreeFrom start ∧ ∀ k, (s.load d).1.value ≠ .procedure (.closure k)
  | _, h, .atom _ _ => ⟨h, nofun⟩
  | _, h, .list items span => by
    obtain ⟨hall, hnodes⟩ := loadAll h items
    exact hall.newTail span.stop hnodes

theorem loadAll : ∀ {s : Store}, s.FreeFrom start → ∀ ds : List Datum,
    (s.loadAll ds).2.FreeFrom start ∧
      ∀ x ∈ (s.loadAll ds).1, ∀ k, x.value ≠ .procedure (.closure k)
  | _, h, [] => ⟨h, nofun⟩
  | _, h, d :: ds => by
    obtain ⟨hd, hnode⟩ := load h d
    obtain ⟨hds, hnodes⟩ := loadAll hd ds
    exact ⟨hds, List.forall_mem_cons.2 ⟨hnode, hnodes⟩⟩

end

end Store.FreeFrom

namespace Store

variable {s : Store}

/-- There are no cells beyond the last one. -/
theorem freeFrom_size (s : Store) : s.FreeFrom s.cells.size := by
  intro c hc half
  rw [cell_of_not_has (Nat.not_lt.2 hc)]
  cases half <;> exact nofun

theorem Grows.has {t : Store} (h : Grows s t) {r : Ref} (hr : s.Has r) : t.Has r := by
  cases r with
  | cell c => exact Nat.lt_of_lt_of_le hr h.size
  | frame f =>
    unfold Has
    rw [h.frames]
    exact hr
  | closure k =>
    unfold Has
    rw [h.closures]
    exact hr

theorem Grows.sameAt {t : Store} (h : Grows s t) {r : Ref} (hr : s.Has r) : s.SameAt t r := by
  cases r with
  | cell c => exact h.cell c hr
  | frame f =>
    unfold SameAt frame
    rw [h.frames]
  | closure k =>
    unfold SameAt closure
    rw [h.closures]

end Store

namespace Plot

variable {P : Plot} {s : Store}

/-- The plot after a datum was read. -/
def load (P : Plot) (s : Store) (d : Datum) : Plot := { P with layout := P.layout.load s d }

/-- What belongs to the plot then did so before, or it is a new cell of data. -/
theorem own_load {d : Datum} {r : Ref} (h : (P.load s d).Own r) :
    P.Own r ∨ ∃ i, (d.marks .expression)[i]? = some false ∧ r = .cell ⟨s.cells.size + i⟩ := by
  cases r with
  | cell c =>
    rcases Layout.mark_load_cases h with ⟨-, hold⟩ | ⟨i, b, hb, rfl, hk⟩
    · exact .inl hold
    · cases b with
      | true => cases hk
      | false => exact .inr ⟨i, hb, rfl⟩
  | frame f => exact .inl h
  | closure k => exact .inl h

namespace Fits

theorem le_load (h : P.Fits s) (d : Datum) : P ≤ P.load s d := by
  refine ⟨fun c k hc => ?_, fun _ hf => hf, rfl⟩
  have hlt : c.index < s.cells.size := h.has_mark hc
  simp only [Plot.load, Layout.load, if_pos hlt, hc]

theorem fits_load (h : P.Fits s) (d : Datum) : (P.load s d).Fits (s.load d).2 := by
  have hgrows := Store.grows_load s d
  have hfree := (s.freeFrom_size.load d).1
  obtain ⟨-, hsealed⟩ := Layout.reads_load (L := (P.load s d).layout) s .expression d (.refl _)
    fun i b hb => P.layout.mark_load_new s d hb
  have hnew {i : Nat} {b : Bool} (hb : (d.marks .expression)[i]? = some b) :
      (s.load d).2.Has (.cell ⟨s.cells.size + i⟩) := by
    unfold Store.Has
    rw [Layout.size_cells_load s .expression d]
    exact Nat.add_lt_add_left (List.getElem?_eq_some_iff.1 hb).1 _
  refine ⟨fun {c k} hc => ?_, fun {r} hr => ?_, fun {r} hr => ?_, ?_⟩
  · rcases Layout.mark_load_cases hc with ⟨hlt, hold⟩ | ⟨i, b, hb, rfl, hk⟩
    · exact ⟨hgrows.has (r := .cell c) hlt, (hgrows.cell c hlt).trans (h.code hold).2⟩
    · cases b with
      | true =>
        cases hk
        exact ⟨hnew hb, rfl⟩
      | false => cases hk
  · rcases own_load hr with hold | ⟨i, hb, rfl⟩
    · exact hgrows.has (h.has hold)
    · exact hnew hb
  · rcases own_load hr with hold | ⟨i, hb, rfl⟩
    · rw [(hgrows.sameAt (h.has hold)).references]
      exact (h.closed hold).mono (h.le_load d)
    · have hindex : s.cells.size ≤ s.cells.size + i := Nat.le_add_right _ _
      exact owns_append.2 ⟨owns_of_data (hsealed i hb).1 (hfree ⟨s.cells.size + i⟩ hindex .car),
        owns_of_data (hsealed i hb).2 (hfree ⟨s.cells.size + i⟩ hindex .cdr)⟩
  · exact hgrows.closures.trans h.closures

/-- **Reading a text.** What is read is code that takes as many levels as it is nested. -/
theorem load (h : P.Fits s) {d : Datum} (hl : Form.lambda.keyword ∉ d.symbols) {room : Nat}
    (hroom : d.depth ≤ room) :
    ∃ P', P ≤ P' ∧ P'.Fits (s.load d).2 ∧
      P'.layout.Within (room + 1) .expression (s.load d).1 := by
  obtain ⟨hreads, -⟩ := Layout.reads_load (L := (P.load s d).layout) s .expression d (.refl _)
    fun i b hb => P.layout.mark_load_new s d hb
  have hfits := h.fits_load d
  exact ⟨P.load s d, h.le_load d, hfits,
    hfits.within hreads (Store.holds_load s d (.refl _)) hl hroom⟩

end Fits

end Plot

/-! ## What can be reached -/

/-- The second object can be reached from the first one. -/
def Store.Reaches (s : Store) : Ref → Ref → Prop :=
  Relation.ReflTransGen fun q r => r ∈ s.references q

/-- What can be reached from an object of the plot belongs to it. -/
theorem Plot.Fits.own_of_reaches {P : Plot} {s : Store} (h : P.Fits s) {q r : Ref}
    (hq : P.Own q) (hr : s.Reaches q r) : P.Own r := by
  induction hr with
  | refl => exact hq
  | tail _ hmem ih => exact h.closed ih _ hmem

open Classical in
/-- **The plot of a frame**: what can be reached from it, if no closure can be. -/
theorem Store.exists_fits {s : Store} (h : s.Whole) {f : FrameId} (hf : s.Has (.frame f))
    (hno : ∀ k, ¬s.Reaches (.frame f) (.closure k)) : ∃ P : Plot, P.Fits s ∧ P.frame f := by
  let P : Plot := ⟨⟨fun c => if s.Reaches (.frame f) (.cell c) then some .data else none⟩,
    fun g => s.Reaches (.frame f) (.frame g), s.closures⟩
  have hown {r : Ref} : P.Own r ↔ s.Reaches (.frame f) r := by
    cases r with
    | cell c => simp [P, Plot.Own]
    | frame g => exact Iff.rfl
    | closure k => exact iff_of_false id (hno k)
  have hhas {r : Ref} (hr : s.Reaches (.frame f) r) : s.Has r := by
    induction hr with
    | refl => exact hf
    | tail _ hmem ih => exact h.closed _ ih _ hmem
  refine ⟨P, ⟨fun {c k} hc => ?_, fun hr => hhas (hown.1 hr), fun hr q hq => ?_, rfl⟩, .refl⟩
  · simp only [P] at hc
    split at hc <;> cases hc
  · exact hown.2 ((hown.1 hr).tail hq)

end MiniScheme
