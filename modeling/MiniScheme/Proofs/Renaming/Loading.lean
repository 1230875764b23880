import MiniScheme.Proofs.Renaming.Code
import MiniScheme.Store.Holding

/-!
# Two expressions in two stores

Code with a parameter replaced, once it is built of pairs. The two sides are nodes of two stores
with a layout each. They consist of the same cells: what differs is the content of cells of code,
and there only the names of symbols.

## Results

* `Layout.Altered.reads`: both sides can be read in their role.
* `Layout.altered_load`: the reader builds data that differ in the name of a parameter alike, cell
  by cell.
-/

namespace MiniScheme

namespace Layout

variable {L R L' R' : Layout} {x y : String} {z : Zone} {r : Role} {n n' : Node}

/-- The list is a `lambda` expression whose parameters are the given names. -/
def Parameters (L : Layout) (items : List Node) (names : List String) : Prop :=
  ∃ head params body nodes, items = [head, params, body] ∧ headForm items = some .lambda ∧
    L.Chain params.value nodes ∧ nodes.map (·.value.symbol?) = names.map some

/-- What two nodes of code have in common that are read in a role and stand in a zone. -/
inductive Altered (L R : Layout) (x y : String) : Zone → Role → Node → Node → Prop
  | leaf {z : Zone} {r : Role} {n n' : Node} (hspan : n'.span = n.span)
      (h : z.Leaf x y r n.value n'.value) : Altered L R x y z r n n'
  | datum {z : Zone} {n : Node} {c : CellId} (hn : n.value = .pair c)
      (hl : L.mark c = some .data) (hr : R.mark c = some .data) : Altered L R x y z .datum n n
  | list {z : Zone} {r : Role} {n n' : Node} {items items' : List Node} {zones : Nat → Zone}
      (hr : r ≠ .datum) (hspan : n'.span = n.span) (hvalue : n'.value = n.value)
      (hc : L.Chain n.value items) (hc' : R.Chain n'.value items')
      (hlength : items.length = items'.length) (hz : Zone.Items x (L.Parameters items) z r zones)
      (hi : ∀ {i a a'}, items[i]? = some a → items'[i]? = some a' →
        Altered L R x y (zones i) (r.item (headForm items) i) a a') : Altered L R x y z r n n'

theorem Parameters.mono (h : L ≤ L') {items : List Node} {names : List String}
    (hp : L.Parameters items names) : L'.Parameters items names := by
  obtain ⟨head, params, body, nodes, hitems, hform, hc, hnames⟩ := hp
  exact ⟨head, params, body, nodes, hitems, hform, hc.mono h, hnames⟩

/-- Code that has not been altered. -/
theorem Reads.altered (h : L.Reads r n) : L.Altered L x y .outside r n n := by
  induction h with
  | leaf hl => exact .leaf rfl (.outside x y _ hl)
  | @datum n hd =>
    by_cases hp : ∃ c, n.value = .pair c
    · obtain ⟨c, hc⟩ := hp
      exact .datum hc (hd c hc) (hd c hc)
    · exact .leaf rfl (.outside x y _ fun c hc => hp ⟨c, hc⟩)
  | list hr hc _ ih =>
    refine .list hr rfl rfl hc hc rfl (.same _ _) fun {i a a'} ha ha' => ?_
    cases ha.symm.trans ha'
    exact ih i a ha

namespace Altered

theorem mono (hL : L ≤ L') (hR : R ≤ R') (h : L.Altered R x y z r n n') :
    L'.Altered R' x y z r n n' := by
  induction h with
  | leaf hspan h => exact .leaf hspan h
  | datum hn hl hr => exact .datum hn (hL _ _ hl) (hR _ _ hr)
  | list hr hspan hvalue hc hc' hlength hz _ ih =>
    exact .list hr hspan hvalue (hc.mono hL) (hc'.mono hR) hlength
      (hz.imp fun _ => Parameters.mono hL) ih

theorem span_eq (h : L.Altered R x y z r n n') : n'.span = n.span := by
  cases h with
  | leaf hspan => exact hspan
  | datum => rfl
  | list _ hspan => exact hspan

/-- Two leaves, or the same pair. -/
theorem shape (h : L.Altered R x y z r n n') :
    z.Leaf x y r n.value n'.value ∨ ∃ c, n.value = .pair c ∧ n'.value = .pair c := by
  cases h with
  | leaf _ h => exact .inl h
  | @datum _ _ c hn => exact .inr ⟨c, hn, hn⟩
  | list _ _ hvalue hc =>
    rw [hvalue]
    revert hc
    generalize n.value = v
    intro hc
    cases hc with
    | nil => exact .inl (.constant rfl nofun)
    | @pair c => exact .inr ⟨c, rfl, rfl⟩

theorem refs_eq (h : L.Altered R x y z r n n') : n'.refs = n.refs := by
  rcases h.shape with hl | ⟨c, hc, hc'⟩
  · exact hl.refs_eq
  · simp only [Node.refs, hc, hc']

theorem closureBound_eq (h : L.Altered R x y z r n n') : n'.closureBound = n.closureBound := by
  obtain ⟨v, s⟩ := n
  obtain ⟨v', s'⟩ := n'
  rcases h.shape with hl | ⟨c, hc, hc'⟩
  · cases hl <;> rfl
  · cases hc
    cases hc'
    rfl

theorem typeName_eq (h : L.Altered R x y z r n n') : n'.value.typeName = n.value.typeName := by
  rcases h.shape with hl | ⟨c, hc, hc'⟩
  · exact hl.typeName_eq
  · rw [hc, hc']

theorem symbol?_eq (h : L.Altered R x y z r n n') :
    n'.value.symbol? = n.value.symbol?.map (z.rename x y) := by
  rcases h.shape with hl | ⟨c, hc, hc'⟩
  · exact hl.symbol?_eq
  · rw [hc, hc']
    rfl

/-- The name that is bound is the same on both sides, except in the parameter list. -/
theorem target_eq (h : L.Altered R x y z .target n n') (hz : z ≠ .binder) :
    n'.value = n.value := by
  rcases h.shape with hl | ⟨c, hc, hc'⟩
  · exact hl.eq_of_fixed (.inl hz) (.inl rfl)
  · rw [hc, hc']

/-- It stays, and in the body it is not `x`. -/
theorem target_name (h : L.Altered R x y z .target n n') (hz : z ≠ .binder) {a : String}
    (ha : n.value.symbol? = some a) : z.rename x y a = a ∧ (z = .body → a ≠ x) := by
  rcases h.shape with hl | ⟨c, hc, -⟩
  · revert hl ha
    generalize n.value = v
    generalize n'.value = v'
    intro ha hl
    cases hl with
    | name h =>
      cases ha
      refine ⟨h.rename_eq (.inl hz) (.inl rfl), ?_⟩
      rintro rfl heq
      exact (h.2 heq).1 rfl
    | constant hs => cases hs.symm.trans ha
  · rw [hc] at ha
    cases ha

/-- What is quoted is the same on both sides, and it is data. -/
theorem eq_of_datum (h : L.Altered R x y z .datum n n') :
    n' = n ∧ L.Data n.value ∧ R.Data n.value := by
  cases h with
  | leaf hspan h =>
    have hvalue := h.eq_of_fixed (.inr rfl) (.inr rfl)
    obtain ⟨v, s⟩ := n
    obtain ⟨v', s'⟩ := n'
    cases hspan
    cases hvalue
    exact ⟨rfl, data_of_leaf h.not_pair.1, data_of_leaf h.not_pair.1⟩
  | datum hn hl hr =>
    refine ⟨rfl, fun c hc => ?_, fun c hc => ?_⟩
    · cases hn.symm.trans hc
      exact hl
    · cases hn.symm.trans hc
      exact hr
  | list hr => exact absurd rfl hr

section

variable (hx : isReserved x = false) (hy : isReserved y = false)

include hx hy

theorem formOf_eq (h : L.Altered R x y z r n n') : Likeness.formOf n' = Likeness.formOf n := by
  unfold Likeness.formOf
  rw [h.symbol?_eq]
  cases n.value.symbol? with
  | none => rfl
  | some a => exact (Zone.rename_reserved hx hy z a).1

theorem else_iff (h : L.Altered R x y z r n n') :
    n.value.symbol? = some elseKeyword ↔ n'.value.symbol? = some elseKeyword := by
  rw [h.symbol?_eq]
  cases n.value.symbol? with
  | none => simp
  | some a => simp [(Zone.rename_reserved hx hy z a).2]

theorem headForm_eq {items items' : List Node} {zones : Nat → Zone} {roles : Nat → Role}
    (hlength : items.length = items'.length)
    (hi : ∀ {i a a'}, items[i]? = some a → items'[i]? = some a' →
      L.Altered R x y (zones i) (roles i) a a') : headForm items' = headForm items := by
  match items, items' with
  | [], [] => rfl
  | [], _ :: _ | _ :: _, [] => cases hlength
  | a :: _, a' :: _ => exact formOf_eq hx hy (hi (i := 0) rfl rfl)

/-- **Both sides can be read** in their role. -/
theorem reads (h : L.Altered R x y z r n n') : L.Reads r n ∧ R.Reads r n' := by
  induction h with
  | leaf _ h => exact ⟨.leaf h.not_pair.1, .leaf h.not_pair.2⟩
  | datum hn hl hr =>
    refine ⟨.datum fun c hc => ?_, .datum fun c hc => ?_⟩
    · cases hn.symm.trans hc
      exact hl
    · cases hn.symm.trans hc
      exact hr
  | @list z r n n' items items' zones hr _ _ hc hc' hlength _ hi ih =>
    refine ⟨.list hr hc fun i a ha => ?_, .list hr hc' fun i a' ha' => ?_⟩
    · obtain ⟨hlt, -⟩ := List.getElem?_eq_some_iff.1 ha
      exact (ih ha (List.getElem?_eq_getElem (hlength ▸ hlt))).1
    · obtain ⟨hlt, -⟩ := List.getElem?_eq_some_iff.1 ha'
      rw [headForm_eq hx hy hlength hi]
      exact (ih (List.getElem?_eq_getElem (hlength ▸ hlt)) ha').2

end

end Altered

/-! ## What the reader builds -/

/-- The cells from index `start` on, of which `bs` says whether they are code, refer to the same
objects in both stores; those of data have the same content. -/
def Agree (t t' : Store) (start : Nat) (bs : List Bool) : Prop :=
  ∀ i b, bs[i]? = some b →
    t'.references (.cell ⟨start + i⟩) = t.references (.cell ⟨start + i⟩) ∧
      (b = false → t'.cell ⟨start + i⟩ = t.cell ⟨start + i⟩)

variable {t t' : Store}

theorem agree_append {start : Nat} {bs cs : List Bool} (h : Agree t t' start bs)
    (h' : Agree t t' (start + bs.length) cs) : Agree t t' start (bs ++ cs) := by
  intro i b hb
  by_cases hi : i < bs.length
  · rw [List.getElem?_append_left hi] at hb
    exact h i b hb
  · rw [List.getElem?_append_right (by omega)] at hb
    have := h' _ b hb
    rwa [Nat.add_assoc, Nat.add_sub_cancel' (by omega)] at this

/-- The cells of two lists whose items refer to the same objects. -/
theorem agree_newTail {s s' : Store} (hsize : s'.cells.size = s.cells.size) {stop : Nat} {b : Bool}
    {items items' : List Node}
    (hitems : List.Forall₂ (fun a a' => a'.span = a.span ∧ a'.refs = a.refs) items items')
    (hb : b = false → items' = items) (ht : Store.Grows (s.newTail stop items).2 t)
    (ht' : Store.Grows (s'.newTail stop items').2 t') :
    (s'.newTail stop items').1 = (s.newTail stop items).1 ∧
      Agree t t' s.cells.size (List.replicate items.length b) := by
  induction hitems with
  | nil => exact ⟨rfl, fun i b h => absurd h (by simp)⟩
  | @cons a a' as as' ha has ih =>
    obtain ⟨hnode, hagree⟩ := ih (fun hf => (List.cons.inj (hb hf)).2)
      ((Store.grows_newCell _ _ _).trans ht) ((Store.grows_newCell _ _ _).trans ht')
    obtain ⟨hvalue, hcell⟩ := s.newTail_cons stop a as
    obtain ⟨hvalue', hcell'⟩ := s'.newTail_cons stop a' as'
    have hlen := has.length_eq
    refine ⟨?_, ?_⟩
    · have hspan : (s'.newTail stop (a' :: as')).1.span = (s.newTail stop (a :: as)).1.span :=
        congrArg (fun sp : Span => (⟨sp.start, stop⟩ : Span)) ha.1
      rw [hsize, ← hlen, ← hvalue] at hvalue'
      generalize (s'.newTail stop (a' :: as')).1 = m' at hspan hvalue'
      generalize (s.newTail stop (a :: as)).1 = m at hspan hvalue'
      obtain ⟨v, sp⟩ := m
      obtain ⟨v', sp'⟩ := m'
      cases hspan
      cases hvalue'
      rfl
    · rw [List.length_cons, List.replicate_succ']
      refine agree_append hagree fun i b' h => ?_
      obtain rfl : i = 0 := by
        have := (List.getElem?_eq_some_iff.1 h).1
        simpa using this
      cases h
      rw [hsize, ← hlen] at hcell'
      rw [List.length_replicate, Nat.add_zero]
      have hnew : t.cell ⟨s.cells.size + as.length⟩ = ⟨a, (s.newTail stop as).1⟩ := by
        rw [ht.cell _ (by simp), hcell]
      have hnew' : t'.cell ⟨s.cells.size + as.length⟩ = ⟨a', (s'.newTail stop as').1⟩ := by
        rw [ht'.cell _ (by simp [hsize, hlen]), hcell']
      simp only [Store.references, hnew, hnew', hnode, ha.2, true_and]
      intro hf
      rw [(List.cons.inj (hb hf)).1]

/-- The list that the reader builds of items is a list of cells of code, unless it is quoted. -/
theorem chain_load {s : Store} {items : List Datum} {span : Span} (hr : r ≠ .datum)
    (ht : Store.Grows (s.load (.list items span)).2 t)
    (hm : L.Marked t s.cells.size ((Datum.list items span).marks r)) :
    L.Chain (s.load (.list items span)).1.value (s.loadAll items).1 := by
  rw [Datum.marks, marked_append] at hm
  have htail := hm.2
  rw [← size_cells_loadAll, bne_iff_ne.2 hr, ← Store.length_loadAll s items] at htail
  exact chain_newTail ht htail

theorem symbol?_load (s : Store) (d : Datum) : (s.load d).1.value.symbol? = d.symbol? := by
  cases d with
  | atom a span => rfl
  | list items span =>
    change Value.symbol? ((s.loadAll items).2.newTail span.stop (s.loadAll items).1).1.value = _
    cases (s.loadAll items).1 with
    | nil => rfl
    | cons item nodes =>
      rw [(Store.newTail_cons _ _ item nodes).1]
      rfl

theorem symbols_loadAll (s : Store) (ds : List Datum) :
    (s.loadAll ds).1.map (·.value.symbol?) = ds.map Datum.symbol? := by
  induction ds generalizing s with
  | nil => rfl
  | cons d ds ih =>
    change (s.load d).1.value.symbol? :: ((s.load d).2.loadAll ds).1.map _ = _
    rw [symbol?_load, ih]
    rfl

/-- The parameters of a `lambda` expression are found in what the reader builds of it. -/
theorem parameters_load {s : Store} {items : List Datum} {names : List String}
    (h : Datum.Parameters items names) (ht : Store.Grows (s.loadAll items).2 t)
    (hm : L.Marked t s.cells.size
      (Datum.marksAll (Role.expression.item (Datum.headForm items)) items)) :
    L.Parameters (s.loadAll items).1 names := by
  obtain ⟨head, params, span, body, rfl, hform, hnames⟩ := h
  match head with
  | .list _ _ => cases hform
  | .atom a kspan =>
    rw [hform] at hm
    have hparams := (marked_append.1 (marked_append.1 hm).2).1
    refine ⟨_, _, _, (s.loadAll params).1, rfl, (headForm_loadAll s _).trans hform, ?_, ?_⟩
    · exact chain_load (r := .parameters) nofun ((Store.grows_load _ body).trans ht) hparams
    · rw [symbols_loadAll, hnames]

mutual

/-- **What the reader builds** of two data that differ in the name of a parameter. The stores have
the same number of cells, so the new cells are the same too. -/
theorem altered_load (hx : isReserved x = false) (hy : isReserved y = false) :
    ∀ (s s' : Store) (z : Zone) (r : Role) (d : Datum) {d' : Datum},
    d.Altered x y z r d' → s'.cells.size = s.cells.size → Store.Grows (s.load d).2 t →
    Store.Grows (s'.load d').2 t' → L.Marked t s.cells.size (d.marks r) →
    R.Marked t' s'.cells.size (d'.marks r) →
    L.Altered R x y z r (s.load d).1 (s'.load d').1 ∧
      (s'.load d').2.cells.size = (s.load d).2.cells.size ∧ Agree t t' s.cells.size (d.marks r)
  | s, s', z, r, .atom a span, d', h, hsize, _, _, _, _ => by
    cases h with
    | atom _ h => exact ⟨.leaf rfl h, hsize, fun i b hb => by simp [Datum.marks] at hb⟩
  | s, s', z, r, .list items span, d', h, hsize, ht, ht', hm, hm' => by
    cases h with
    | @list _ _ _ items' zones _ hlength hz hi =>
    have hitems := (marked_append.1 hm).1
    have hitems' := (marked_append.1 hm').1
    rw [Datum.headForm_eq_of_altered hx hy hlength hi] at hitems'
    obtain ⟨hnodes, hsize₁, hagree⟩ := altered_loadAll hx hy s s' zones
      (r.item (Datum.headForm items)) items items' hlength hi hsize
      ((Store.grows_newTail _ _ _).trans ht) ((Store.grows_newTail _ _ _).trans ht') hitems hitems'
    have hlen : (s.loadAll items).1.length = (s'.loadAll items').1.length := by
      rw [Store.length_loadAll, Store.length_loadAll, hlength]
    have hpointwise : List.Forall₂ (fun a a' => a'.span = a.span ∧ a'.refs = a.refs)
        (s.loadAll items).1 (s'.loadAll items').1 := by
      refine List.forall₂_iff_get.2 ⟨hlen, fun i hi hi' => ?_⟩
      have h := hnodes (List.getElem?_eq_getElem hi) (List.getElem?_eq_getElem hi')
      exact ⟨h.span_eq, h.refs_eq⟩
    have hsame (hb : (r != .datum) = false) : (s'.loadAll items').1 = (s.loadAll items).1 := by
      obtain rfl : r = .datum := by simpa using hb
      refine (List.ext_getElem hlen fun i hi hi' => ?_).symm
      have h := hnodes (List.getElem?_eq_getElem hi) (List.getElem?_eq_getElem hi')
      rw [Role.item_datum] at h
      exact h.eq_of_datum.1.symm
    obtain ⟨hnode, htail⟩ := agree_newTail hsize₁ hpointwise hsame ht ht'
    refine ⟨?_, ?_, ?_⟩
    · have hvalue : (s'.load (.list items' span)).1 = (s.load (.list items span)).1 :=
        congrArg (fun n : Node => (⟨n.value, span⟩ : Node)) hnode
      by_cases hr : r = .datum
      · subst hr
        have hl := (reads_load s .datum _ ht hm).1.data
        have hr := (reads_load s' .datum _ ht' hm').1.data
        rw [hvalue] at hr ⊢
        by_cases hp : ∃ c, (s.load (.list items span)).1.value = .pair c
        · obtain ⟨c, hc⟩ := hp
          exact .datum hc (hl c hc) (hr c hc)
        · exact .leaf rfl (.constant (symbol?_load s _) fun c hc => hp ⟨c, hc⟩)
      · have hzones : Zone.Items x (L.Parameters (s.loadAll items).1) z r zones := by
          cases hz with
          | same => exact .same z r
          | lambda h hnodup hx =>
            have hnames := parameters_load h ((Store.grows_newTail _ _ _).trans ht) hitems
            exact .lambda hnames hnodup hx
        refine .list hr rfl (congrArg Node.value hvalue) (chain_load hr ht hm)
          (chain_load hr ht' hm') hlen hzones fun ha ha' => ?_
        rw [headForm_loadAll]
        exact hnodes ha ha'
    · change ((s'.loadAll items').2.newTail span.stop (s'.loadAll items').1).2.cells.size =
        ((s.loadAll items).2.newTail span.stop (s.loadAll items).1).2.cells.size
      rw [Store.size_cells_newTail, Store.size_cells_newTail, hsize₁, hlen]
    · refine agree_append hagree ?_
      rw [← size_cells_loadAll, ← Store.length_loadAll s items]
      exact htail

theorem altered_loadAll (hx : isReserved x = false) (hy : isReserved y = false) :
    ∀ (s s' : Store) (zones : Nat → Zone) (roles : Nat → Role) (ds ds' : List Datum),
    ds.length = ds'.length →
    (∀ {i d d'}, ds[i]? = some d → ds'[i]? = some d' →
      Datum.Altered x y (zones i) (roles i) d d') →
    s'.cells.size = s.cells.size → Store.Grows (s.loadAll ds).2 t →
    Store.Grows (s'.loadAll ds').2 t' → L.Marked t s.cells.size (Datum.marksAll roles ds) →
    R.Marked t' s'.cells.size (Datum.marksAll roles ds') →
    (∀ {i n n'}, (s.loadAll ds).1[i]? = some n → (s'.loadAll ds').1[i]? = some n' →
        L.Altered R x y (zones i) (roles i) n n') ∧
      (s'.loadAll ds').2.cells.size = (s.loadAll ds).2.cells.size ∧
      Agree t t' s.cells.size (Datum.marksAll roles ds)
  | s, s', zones, roles, [], [], _, _, hsize, _, _, _, _ =>
    ⟨fun h => by simp [Store.loadAll] at h, hsize, fun i b hb => by simp [Datum.marksAll] at hb⟩
  | s, s', zones, roles, d :: ds, d' :: ds', hlength, h, hsize, ht, ht', hm, hm' => by
    rw [Datum.marksAll, marked_append] at hm hm'
    obtain ⟨hd, hds⟩ := hm
    obtain ⟨hd', hds'⟩ := hm'
    obtain ⟨hfirst, hsize₁, hagree₁⟩ := altered_load hx hy s s' (zones 0) (roles 0) d
      (h (i := 0) rfl rfl) hsize ((Store.grows_loadAll _ ds).trans ht)
      ((Store.grows_loadAll _ ds').trans ht') hd hd'
    rw [← size_cells_load] at hds hds'
    obtain ⟨hrest, hsize₂, hagree₂⟩ := altered_loadAll hx hy (s.load d).2 (s'.load d').2
      (fun i => zones (i + 1)) (fun i => roles (i + 1)) ds ds' (Nat.succ.inj hlength)
      (fun {i _ _} he he' => h (i := i + 1) he he') hsize₁ ht ht' hds hds'
    rw [size_cells_load s (roles 0)] at hagree₂
    refine ⟨fun {i n n'} hn hn' => ?_, hsize₂, agree_append hagree₁ hagree₂⟩
    cases i with
    | zero =>
      cases hn
      cases hn'
      exact hfirst
    | succ i => exact hrest hn hn'

end

end Layout

end MiniScheme
