import MiniScheme.Proofs.Code.Immutable
import MiniScheme.Proofs.Printing
import MiniScheme.Proofs.Renaming.Loading
import MiniScheme.Proofs.Scope.Frames

/-!
# Two stores that differ in the name of a parameter

One program runs on two stores; in one of them the parameter `x` of a `lambda` expression is called
`y`. The stores have the same objects. Cells of data are equal, and cells of code are what the
reader made of the two texts. A frame is *inside* if it is a frame of a call of the `lambda`
expression or beneath one, else it is *outside*. Outside frames are equal. Inside frames have `y` in
the place of `x`, and going outwards from one there is exactly one frame that binds `x` before the
outside is reached. So every name that the code means is found in both stores, in the same frame.

A `Twinning` records the layouts of both stores and the zone of each frame; it can only grow.

## Results

* `Twins.owner?_eq`, `Twins.lookup?_eq`: names are found in the same frames.
* `Twins.enclose`, `Twins.bind` and so on: the operations of an evaluation.
* `Twins.load`: reading a text.
* `Twins.text_eq`: what is printed.
-/

namespace MiniScheme

/-! ## Tables -/

namespace Table

variable {α : Type} {ρ : String → String}

/-- The table with other names. -/
def mapNames (ρ : String → String) (t : Table α) : Table α :=
  ⟨t.entries.map fun e => (ρ e.1, e.2)⟩

theorem values_mapNames (ρ : String → String) (t : Table α) : (t.mapNames ρ).values = t.values := by
  simp [values, mapNames]

theorem get?_mapNames (hρ : Function.Injective ρ) (t : Table α) (a : String) :
    (t.mapNames ρ).get? (ρ a) = t.get? a := by
  obtain ⟨es⟩ := t
  unfold get? mapNames
  induction es with
  | nil => rfl
  | cons e es ih =>
    rw [List.map_cons, List.lookup_cons, List.lookup_cons, ih]
    simp [beq_eq_decide, hρ.eq_iff]

theorem contains_mapNames (hρ : Function.Injective ρ) (t : Table α) (a : String) :
    (t.mapNames ρ).contains (ρ a) = t.contains a := by
  rw [contains, contains, get?_mapNames hρ]

theorem insert_mapNames (hρ : Function.Injective ρ) (t : Table α) (a : String) (v : α) :
    (t.mapNames ρ).insert (ρ a) v = (t.insert a v).mapNames ρ := by
  obtain ⟨es⟩ := t
  unfold insert mapNames
  congr 1
  induction es with
  | nil => rfl
  | cons e es ih =>
    simp only [List.map_cons, insertEntry, beq_iff_eq, hρ.eq_iff]
    split
    · rfl
    · rw [List.map_cons, ih]

theorem insertAll_mapNames (hρ : Function.Injective ρ) (t : Table α) (es : List (String × α)) :
    (t.mapNames ρ).insertAll (es.map fun e => (ρ e.1, e.2)) = (t.insertAll es).mapNames ρ := by
  induction es generalizing t with
  | nil => rfl
  | cons e es ih =>
    change ((t.mapNames ρ).insert (ρ e.1) e.2).insertAll (es.map fun e => (ρ e.1, e.2)) = _
    rw [insert_mapNames hρ, ih]
    rfl

theorem mem_names_insert {t : Table α} {a b : String} {v : α} :
    b ∈ (t.insert a v).names ↔ b = a ∨ b ∈ t.names := by
  obtain ⟨es⟩ := t
  unfold insert names
  induction es with
  | nil => simp [insertEntry]
  | cons e es ih =>
    simp only [insertEntry]
    split
    · rename_i h
      simp [eq_of_beq h]
    · simp only [List.map_cons, List.mem_cons, ih]
      exact or_left_comm

theorem mem_names_insertAll {t : Table α} {es : List (String × α)} {b : String} :
    b ∈ (t.insertAll es).names ↔ b ∈ es.map Prod.fst ∨ b ∈ t.names := by
  induction es generalizing t with
  | nil => simp [insertAll]
  | cons e es ih =>
    change b ∈ ((t.insert e.1 e.2).insertAll es).names ↔ _
    rw [ih, mem_names_insert, List.map_cons, List.mem_cons]
    exact or_left_comm.trans or_assoc.symm

theorem contains_iff_mem_names {t : Table α} {a : String} : t.contains a = true ↔ a ∈ t.names := by
  obtain ⟨es⟩ := t
  unfold contains get? names
  induction es with
  | nil => simp
  | cons e es ih =>
    rw [List.lookup_cons, List.map_cons, List.mem_cons, ← ih]
    split
    · rename_i h
      simp [eq_of_beq h]
    · rename_i h
      simp [show a ≠ e.1 from fun heq => by simp [heq] at h]

end Table

/-! ## Frames and closures -/

/-- Beneath a frame of the first zone, a frame with the given names is of the second zone: a call of
the `lambda` expression leads inside, and nothing there binds `x` again. -/
inductive Zone.Beneath (x : String) : Zone → List String → Zone → Prop
  | outside (names : List String) : Beneath x .outside names .outside
  | enter {names : List String} (hx : x ∈ names) : Beneath x .outside names .body
  | stay {names : List String} (hx : x ∉ names) : Beneath x .body names .body

theorem Zone.Beneath.ne_binder {x : String} {z z' : Zone} {names : List String}
    (h : Zone.Beneath x z names z') : .binder ≠ z' := by
  cases h <;> exact nofun

/-- A frame that does not bind `x` leads nowhere else. -/
theorem Zone.Beneath.self {x : String} {z : Zone} {names : List String} (hz : z ≠ .binder)
    (hx : ∀ a ∈ names, z = .body → a ≠ x) : Zone.Beneath x z names z := by
  cases z with
  | outside => exact .outside names
  | binder => exact absurd rfl hz
  | body => exact .stay fun hmem => hx x hmem rfl rfl

theorem Zone.Beneath.congr {x : String} {z z' : Zone} {names names' : List String}
    (h : Zone.Beneath x z names z') (hx : x ∈ names' ↔ x ∈ names) :
    Zone.Beneath x z names' z' := by
  cases h with
  | outside => exact .outside names'
  | enter h => exact .enter (hx.2 h)
  | stay h => exact .stay fun h' => h (hx.1 h')

/-- The layouts of two stores and the zones of their frames. -/
structure Twinning where
  left : Layout
  right : Layout
  zones : List Zone
  /-- a frame is outside or inside -/
  frames : .binder ∉ zones

namespace Twinning

instance : Preorder Twinning where
  le T T' := T.left ≤ T'.left ∧ T.right ≤ T'.right ∧ T.zones <+: T'.zones
  le_refl T := ⟨le_rfl, le_rfl, List.prefix_rfl⟩
  le_trans _ _ _ h h' := ⟨h.1.trans h'.1, h.2.1.trans h'.2.1, h.2.2.trans h'.2.2⟩

/-- The zone of a frame. -/
def zone (T : Twinning) (f : FrameId) : Option Zone := T.zones[f.index]?

/-- The value is data in both stores. -/
def Data (T : Twinning) (v : Value) : Prop := T.left.Data v ∧ T.right.Data v

/-- The nodes are code that is read in a role and stands in a zone. -/
abbrev Altered (T : Twinning) (x y : String) (z : Zone) (r : Role) (n n' : Node) : Prop :=
  Layout.Altered T.left T.right x y z r n n'

/-- The content of a frame of a zone in both stores. -/
structure Frames (T : Twinning) (x y : String) (z : Zone) (f : FrameId) (fr fr' : Frame) :
    Prop where
  outer : fr'.outer = fr.outer
  bindings : fr'.bindings = fr.bindings.mapNames (z.rename x y)
  beneath : ∀ {g}, fr.outer = some g → g.index < f.index ∧
    ∃ zg, T.zone g = some zg ∧ Zone.Beneath x zg fr.bindings.names z
  global : fr.outer = none → z = .outside

/-- The content of a closure in both stores. A call of it makes a frame of the zone in which its
body stands. -/
structure Closures (T : Twinning) (x y : String) (k k' : Closure) : Prop where
  name : k'.name = k.name
  frame : k'.frame = k.frame
  call : ∃ zf z, T.zone k.frame = some zf ∧ Zone.Beneath x zf k.params z ∧
    k'.params = k.params.map (z.rename x y) ∧ T.Altered x y z .expression k.body k'.body

variable {T T' : Twinning} {x y : String} {z : Zone}

theorem zone_mono (h : T ≤ T') {f : FrameId} (hz : T.zone f = some z) : T'.zone f = some z := by
  obtain ⟨more, hmore⟩ := h.2.2
  rw [zone, ← hmore, List.getElem?_append_left (List.getElem?_eq_some_iff.1 hz).1]
  exact hz

theorem zone_ne_binder {f : FrameId} (hf : T.zone f = some z) : z ≠ .binder := by
  rintro rfl
  exact T.frames (List.mem_of_getElem? hf)

theorem Data.mono (h : T ≤ T') {v : Value} (hv : T.Data v) : T'.Data v :=
  ⟨hv.1.mono h.1, hv.2.mono h.2.1⟩

theorem data_of_leaf {v : Value} (h : ∀ c, v ≠ .pair c) : T.Data v :=
  ⟨Layout.data_of_leaf h, Layout.data_of_leaf h⟩

theorem altered_mono (h : T ≤ T') {r : Role} {n n' : Node} (hn : T.Altered x y z r n n') :
    T'.Altered x y z r n n' :=
  hn.mono h.1 h.2.1

theorem Frames.mono (h : T ≤ T') {f : FrameId} {fr fr' : Frame} (hf : T.Frames x y z f fr fr') :
    T'.Frames x y z f fr fr' where
  outer := hf.outer
  bindings := hf.bindings
  beneath ho := by
    obtain ⟨hlt, zg, hzg, hb⟩ := hf.beneath ho
    exact ⟨hlt, zg, zone_mono h hzg, hb⟩
  global := hf.global

theorem Closures.mono (h : T ≤ T') {k k' : Closure} (hk : T.Closures x y k k') :
    T'.Closures x y k k' where
  name := hk.name
  frame := hk.frame
  call := by
    obtain ⟨zf, z, hzf, hb, hparams, hbody⟩ := hk.call
    exact ⟨zf, z, zone_mono h hzf, hb, hparams, altered_mono h hbody⟩

end Twinning

/-- The stores are the same up to the name of the parameter. -/
structure Twins (x y : String) (T : Twinning) (s t : Store) : Prop where
  left : Separated (fun _ _ => True) T.left s
  right : Separated (fun _ _ => True) T.right t
  size_cells : t.cells.size = s.cells.size
  cell : ∀ c, t.references (.cell c) = s.references (.cell c) ∧
    (t.cell c = s.cell c ∨ ∃ k, T.left.mark c = some (.code k))
  size_frames : s.frames.size = T.zones.length ∧ t.frames.size = T.zones.length
  frame : ∀ {f z}, T.zone f = some z → T.Frames x y z f (s.frame f) (t.frame f)
  size_closures : t.closures.size = s.closures.size
  closure : ∀ k, T.Closures x y (s.closure k) (t.closure k)
  settled : t.settled = s.settled

namespace Store

/-- Who holds an object is a matter of the number of objects and of what they refer to. -/
theorem isOnlyHeldHere_congr {s t : Store} (hcells : t.cells.size = s.cells.size)
    (hframes : t.frames.size = s.frames.size) (hclosures : t.closures.size = s.closures.size)
    (hrefs : ∀ r, t.references r = s.references r) (hsettled : t.settled = s.settled)
    (held : List Ref) (k : ClosureId) : t.isOnlyHeldHere held k = s.isOnlyHeldHere held k := by
  have hobjects : t.objects = s.objects := by
    unfold objects
    rw [hcells, hframes, hclosures]
  have hpeel (fuel : Nat) (work : List Ref) (n : Census) :
      Census.peel t fuel work n = Census.peel s fuel work n := by
    induction fuel generalizing work n with
    | zero => rfl
    | succ fuel ih =>
      cases work with
      | nil => rfl
      | cons r work =>
        simp only [Census.peel, hrefs]
        exact ih _ _
  unfold isOnlyHeldHere holders tally census Census.zero
  simp only [hpeel, hobjects, hrefs, hsettled, hcells, hframes, hclosures]

theorem settled_newTail (s : Store) (stop : Nat) {items : List Node}
    (hi : ∀ n ∈ items, n.closureBound = 0) :
    (s.newTail stop items).2.settled = s.settled ∧ (s.newTail stop items).1.closureBound = 0 := by
  induction items with
  | nil => exact ⟨rfl, rfl⟩
  | cons item items ih =>
    obtain ⟨hitem, hitems⟩ := List.forall_mem_cons.1 hi
    obtain ⟨hsettled, hbound⟩ := ih hitems
    refine ⟨?_, rfl⟩
    simp [newTail, newCell, settle, hitem, hbound, hsettled]

mutual

/-- What is read refers to no closure. -/
theorem settled_load : ∀ (s : Store) (d : Datum),
    (s.load d).2.settled = s.settled ∧ (s.load d).1.closureBound = 0
  | _, .atom _ _ => ⟨rfl, rfl⟩
  | s, .list items span => by
    obtain ⟨hsettled, hbound⟩ := settled_loadAll s items
    obtain ⟨htail, hnode⟩ := settled_newTail (s.loadAll items).2 span.stop hbound
    exact ⟨htail.trans hsettled, hnode⟩

theorem settled_loadAll : ∀ (s : Store) (ds : List Datum),
    (s.loadAll ds).2.settled = s.settled ∧ ∀ n ∈ (s.loadAll ds).1, n.closureBound = 0
  | _, [] => ⟨rfl, nofun⟩
  | s, d :: ds => by
    obtain ⟨hsettled, hbound⟩ := settled_load s d
    obtain ⟨hrest, hbounds⟩ := settled_loadAll (s.load d).2 ds
    exact ⟨hrest.trans hsettled, List.forall_mem_cons.2 ⟨hbound, hbounds⟩⟩

end

/-- A name has the value that the first frame which binds it gives to it. -/
theorem lookup?_eq_owner? (s : Store) (f : FrameId) (a : String) :
    s.lookup? f a = (s.owner? f a).bind fun g => (s.frame g).bindings.get? a := by
  unfold lookup? owner?
  induction s.chain f with
  | nil => rfl
  | cons g fs ih =>
    rw [List.findSome?_cons, List.find?_cons, Table.contains]
    cases hv : (s.frame g).bindings.get? a with
    | some v => simp [hv]
    | none => simpa [hv] using ih

end Store

namespace Twins

variable {x y : String} {T : Twinning} {s t : Store} {f : FrameId} {z : Zone}

/-! ## Names -/

theorem frame_eq_of_none (h : Twins x y T s t) (hf : T.zone f = none) : t.frame f = s.frame f := by
  have hlen := List.getElem?_eq_none_iff.1 hf
  rw [Store.frame, Store.frame, Array.getElem?_eq_none (h.size_frames.1.trans_le hlen),
    Array.getElem?_eq_none (h.size_frames.2.trans_le hlen)]

theorem outer_eq (h : Twins x y T s t) (f : FrameId) : (t.frame f).outer = (s.frame f).outer := by
  cases hf : T.zone f with
  | some z => exact (h.frame hf).outer
  | none => rw [h.frame_eq_of_none hf]

/-- Induction outwards along the chain of a frame. -/
theorem outward_induction (h : Twins x y T s t)
    {motive : ∀ f z, T.zone f = some z → Prop}
    (global : ∀ f hf, (s.frame f).outer = none → motive f .outside hf)
    (inner : ∀ f g z zg hf hg, (s.frame f).outer = some g → g.index < f.index →
      Zone.Beneath x zg (s.frame f).bindings.names z → motive g zg hg → motive f z hf)
    (f : FrameId) (z : Zone) (hf : T.zone f = some z) : motive f z hf := by
  cases ho : (s.frame f).outer with
  | none =>
    obtain rfl := (h.frame hf).global ho
    exact global f hf ho
  | some g =>
    obtain ⟨hlt, zg, hzg, hb⟩ := (h.frame hf).beneath ho
    exact inner f g z zg hf hzg ho hlt hb (h.outward_induction global inner g zg hzg)
termination_by f.index

theorem contains_eq (h : Twins x y T s t) (hf : T.zone f = some z) (a : String) :
    (t.frame f).bindings.contains (z.rename x y a) = (s.frame f).bindings.contains a := by
  rw [(h.frame hf).bindings, Table.contains_mapNames (Zone.rename_injective x y z)]

/-- **Names are found in the same frames.** Where a name is not found it is the same on both sides,
since `x` is bound by some frame on the way from inside to the outside. -/
theorem owner?_eq (h : Twins x y T s t) {a : String} (hf : T.zone f = some z)
    (ha : z = .body → a ≠ y) :
    t.owner? f (z.rename x y a) = s.owner? f a ∧ (s.owner? f a = none → z.rename x y a = a) ∧
      ∀ {g}, s.owner? f a = some g → a ∈ (s.frame g).bindings.names ∧
        ∃ zg, T.zone g = some zg ∧ zg.rename x y a = z.rename x y a := by
  have hfound {f : FrameId} {z : Zone} (hz : T.zone f = some z)
      (hc : (s.frame f).bindings.contains a = true) {g : FrameId} (hg : some f = some g) :
      a ∈ (s.frame g).bindings.names ∧
        ∃ zg, T.zone g = some zg ∧ zg.rename x y a = z.rename x y a := by
    cases hg
    exact ⟨Table.contains_iff_mem_names.1 hc, z, hz, rfl⟩
  revert ha
  unfold Store.owner?
  induction f, z, hf using h.outward_induction with
  | global f hz ho =>
    intro _
    have hcontains := h.contains_eq hz a
    rw [Store.chain_of_global ho, Store.chain_of_global ((h.outer_eq f).trans ho), List.find?_cons,
      List.find?_cons, hcontains]
    cases hc : (s.frame f).bindings.contains a with
    | true => exact ⟨rfl, nofun, fun hg => hfound hz hc hg⟩
    | false => exact ⟨rfl, fun _ => rfl, nofun⟩
  | inner f g z zg hz _ ho hlt hb ih =>
    intro ha
    have hcontains := h.contains_eq hz a
    rw [Store.chain_of_outer ho hlt, Store.chain_of_outer ((h.outer_eq f).trans ho) hlt,
      List.find?_cons, List.find?_cons, hcontains]
    cases hc : (s.frame f).bindings.contains a with
    | true => exact ⟨rfl, nofun, fun hg => hfound hz hc hg⟩
    | false =>
      -- going outwards the name stays what it is, for the frame does not bind it
      have hname : zg.rename x y a = z.rename x y a ∧ (zg = .body → a ≠ y) := by
        cases hb with
        | outside => exact ⟨rfl, nofun⟩
        | stay => exact ⟨rfl, ha⟩
        | enter hx =>
          refine ⟨(Zone.rename_of_ne ?_ (ha rfl)).symm, nofun⟩
          rintro rfl
          rw [Table.contains_iff_mem_names.2 hx] at hc
          cases hc
      rw [← hname.1]
      exact ih hname.2

/-- **Names have the same values.** -/
theorem lookup?_eq (h : Twins x y T s t) {a : String} (hf : T.zone f = some z)
    (ha : z = .body → a ≠ y) :
    t.lookup? f (z.rename x y a) = s.lookup? f a ∧ (s.lookup? f a = none → z.rename x y a = a) := by
  obtain ⟨howner, hnone, hsome⟩ := h.owner?_eq hf ha
  rw [Store.lookup?_eq_owner?, Store.lookup?_eq_owner?, howner]
  cases ho : s.owner? f a with
  | none => exact ⟨rfl, fun _ => hnone ho⟩
  | some g =>
    obtain ⟨hmem, zg, hzg, hname⟩ := hsome ho
    rw [← hname, Option.bind_some, Option.bind_some, (h.frame hzg).bindings,
      Table.get?_mapNames (Zone.rename_injective x y zg)]
    refine ⟨rfl, fun hget => ?_⟩
    have hcontains := Table.contains_iff_mem_names.2 hmem
    rw [Table.contains, hget] at hcontains
    cases hcontains

/-- The global frame of a chain is the same on both sides, and it is outside. -/
theorem root_eq (h : Twins x y T s t) (hf : T.zone f = some z) :
    t.root f = s.root f ∧ T.zone (s.root f) = some .outside := by
  unfold Store.root
  induction f, z, hf using h.outward_induction with
  | global f hz ho =>
    rw [Store.chain_of_global ho, Store.chain_of_global ((h.outer_eq f).trans ho)]
    exact ⟨rfl, hz⟩
  | inner f g z zg hz _ ho hlt hb ih =>
    rw [Store.chain_of_outer ho hlt, Store.chain_of_outer ((h.outer_eq f).trans ho) hlt,
      List.getLast?_cons, List.getLast?_cons]
    rw [List.getLast?_eq_some_getLast (Store.chain_ne_nil s g),
      List.getLast?_eq_some_getLast (Store.chain_ne_nil t g)] at ih ⊢
    exact ih

/-! ## New objects -/

theorem newCell (h : Twins x y T s t) {a b : Node} (ha : T.Data a.value) (hb : T.Data b.value) :
    ∃ T', T ≤ T' ∧ Twins x y T' (s.newCell a b).2 (t.newCell a b).2 ∧
      (t.newCell a b).1 = (s.newCell a b).1 ∧ T'.Data (.pair (s.newCell a b).1) := by
  obtain ⟨L, hL, hleft, hmark⟩ := h.left.newCell ha.1 hb.1
  obtain ⟨R, hR, hright, hmark'⟩ := h.right.newCell ha.2 hb.2
  have hid : (t.newCell a b).1 = (s.newCell a b).1 := congrArg CellId.mk h.size_cells
  have hle : T ≤ { T with left := L, right := R } := ⟨hL, hR, List.prefix_rfl⟩
  refine ⟨_, hle, ⟨hleft, hright, ?_, fun c => ?_, h.size_frames,
    fun hf => (h.frame hf).mono hle, h.size_closures, fun k => (h.closure k).mono hle, ?_⟩, hid,
    ?_, ?_⟩
  · rw [Store.size_cells_newCell, Store.size_cells_newCell, h.size_cells]
  · simp only [Store.references]
    rw [Store.cell_newCell, Store.cell_newCell, hid]
    split
    · exact ⟨rfl, .inl rfl⟩
    · obtain ⟨hrefs, hcell⟩ := h.cell c
      refine ⟨hrefs, hcell.imp_right ?_⟩
      rintro ⟨k, hk⟩
      exact ⟨k, hL _ _ hk⟩
  · simp only [Store.newCell, Store.settle, h.settled]
  · rintro _ ⟨⟩
    exact hmark
  · rintro _ ⟨⟩
    rw [← hid]
    exact hmark'

theorem newTail (h : Twins x y T s t) (stop : Nat) {items : List Node}
    (hi : ∀ n ∈ items, T.Data n.value) :
    ∃ T', T ≤ T' ∧ Twins x y T' (s.newTail stop items).2 (t.newTail stop items).2 ∧
      (t.newTail stop items).1 = (s.newTail stop items).1 ∧
      T'.Data (s.newTail stop items).1.value := by
  induction items with
  | nil => exact ⟨T, le_rfl, h, rfl, Twinning.data_of_leaf nofun⟩
  | cons item items ih =>
    obtain ⟨hitem, hitems⟩ := List.forall_mem_cons.1 hi
    obtain ⟨T₁, hle₁, h₁, hnode, hd⟩ := ih hitems
    obtain ⟨T₂, hle₂, h₂, hc, hdata⟩ := h₁.newCell (hitem.mono hle₁) hd
    refine ⟨T₂, hle₁.trans hle₂, ?_, ?_, hdata⟩
    · rw [Store.newTail, Store.newTail]
      simp only [hnode]
      exact h₂
    · rw [Store.newTail, Store.newTail]
      simp only [hnode, hc]

/-- **A new frame** beneath another one, with its names replaced as its zone wants it. -/
theorem enclose (h : Twins x y T s t) {zf : Zone} (hf : T.zone f = some zf)
    {es : List (String × Node)} (hes : ∀ e ∈ es, T.Data e.2.value)
    (hb : Zone.Beneath x zf (es.map Prod.fst) z) (held held' : List Ref) :
    ∃ T', T ≤ T' ∧
      Twins x y T' (s.enclose held f es).2
        (t.enclose held' f (es.map fun e => (z.rename x y e.1, e.2))).2 ∧
      (t.enclose held' f (es.map fun e => (z.rename x y e.1, e.2))).1 = (s.enclose held f es).1 ∧
      T'.zone (s.enclose held f es).1 = some z := by
  have hid : (t.enclose held' f (es.map fun e => (z.rename x y e.1, e.2))).1 =
      (s.enclose held f es).1 :=
    congrArg FrameId.mk (h.size_frames.2.trans h.size_frames.1.symm)
  have hindex : (s.enclose held f es).1.index = T.zones.length := h.size_frames.1
  have hzones : .binder ∉ T.zones ++ [z] := by
    rw [List.mem_append, List.mem_singleton, not_or]
    exact ⟨T.frames, hb.ne_binder⟩
  have hle : T ≤ ⟨T.left, T.right, T.zones ++ [z], hzones⟩ :=
    ⟨le_rfl, le_rfl, List.prefix_append _ _⟩
  have htable : Table.empty.insertAll (es.map fun e => (z.rename x y e.1, e.2)) =
      (Table.empty.insertAll es).mapNames (z.rename x y) :=
    Table.insertAll_mapNames (Zone.rename_injective x y z) Table.empty es
  refine ⟨_, hle, ⟨h.left.enclose _ _ fun e he => (hes e he).1,
    h.right.enclose _ _ fun e he => ?_, h.size_cells, h.cell, ⟨?_, ?_⟩, fun {g zg} hg => ?_,
    h.size_closures, fun k => (h.closure k).mono hle, ?_⟩, hid, ?_⟩
  · obtain ⟨e', he', rfl⟩ := List.mem_map.1 he
    exact (hes e' he').2
  · simp [Store.enclose, Store.track, h.size_frames.1]
  · simp [Store.enclose, Store.track, h.size_frames.2]
  · rw [Store.frame_enclose, Store.frame_enclose, hid, htable]
    split
    · rename_i hnew
      obtain rfl : z = zg := by
        rw [hnew, Twinning.zone, hindex, List.getElem?_concat_length] at hg
        exact Option.some.inj hg
      refine ⟨rfl, rfl, fun ho => ?_, nofun⟩
      cases ho
      refine ⟨?_, zf, Twinning.zone_mono hle hf, hb.congr ?_⟩
      · rw [hnew, hindex]
        exact (List.getElem?_eq_some_iff.1 hf).1
      · rw [Table.mem_names_insertAll]
        simp [Table.empty, Table.names]
    · rename_i hnew
      have hold : T.zone g = some zg := by
        have hlt := (List.getElem?_eq_some_iff.1 hg).1
        have hne : g.index ≠ T.zones.length :=
          fun heq => hnew (congrArg FrameId.mk (heq.trans hindex.symm))
        rw [List.length_append, List.length_singleton] at hlt
        rwa [Twinning.zone, List.getElem?_append_left (by omega)] at hg
      exact (h.frame hold).mono hle
  · simp only [Store.enclose, Store.track, Store.newFrame, Store.settle, htable,
      Table.values_mapNames, h.settled]
  · simp [Twinning.zone, hindex]

theorem newClosure (h : Twins x y T s t) (hx : isReserved x = false) (hy : isReserved y = false)
    {k k' : Closure} (hk : T.Closures x y k k') :
    Twins x y T (s.newClosure k).2 (t.newClosure k').2 ∧
      (t.newClosure k').1 = (s.newClosure k).1 := by
  obtain ⟨zf, z, -, -, -, hbody⟩ := hk.call
  obtain ⟨hreads, hreads'⟩ := hbody.reads hx hy
  have hid : (t.newClosure k').1 = (s.newClosure k).1 := congrArg ClosureId.mk h.size_closures
  refine ⟨⟨h.left.newClosure hreads, h.right.newClosure hreads', h.size_cells, h.cell,
    h.size_frames, h.frame, ?_, fun l => ?_, ?_⟩, hid⟩
  · rw [Store.size_closures_newClosure, Store.size_closures_newClosure, h.size_closures]
  · rw [Store.closure_newClosure, Store.closure_newClosure, hid]
    split
    · exact hk
    · exact h.closure l
  · simp only [Store.newClosure, Store.settle, h.settled, hbody.closureBound_eq, List.foldl_cons,
      List.foldl_nil]

/-! ## Changes -/

/-- A cell of data is the same in both stores. -/
theorem cell_eq (h : Twins x y T s t) {c : CellId} (hc : T.left.mark c = some .data) :
    t.cell c = s.cell c := by
  rcases (h.cell c).2 with heq | ⟨k, hk⟩
  · exact heq
  · cases hc.symm.trans hk

theorem half (h : Twins x y T s t) {c : CellId} (hc : T.Data (.pair c)) (half : Half) :
    (t.cell c).half half = (s.cell c).half half ∧ T.Data ((s.cell c).half half).value := by
  have heq := h.cell_eq (hc.1 c rfl)
  obtain ⟨-, hcar, hcdr⟩ := h.left.data (hc.1 c rfl)
  obtain ⟨-, hcar', hcdr'⟩ := h.right.data (hc.2 c rfl)
  rw [heq] at hcar' hcdr' ⊢
  cases half with
  | car => exact ⟨rfl, hcar, hcar'⟩
  | cdr => exact ⟨rfl, hcdr, hcdr'⟩

theorem setHalf (h : Twins x y T s t) {c : CellId} (half : Half) {n : Node}
    (hc : T.Data (.pair c)) (hn : T.Data n.value) :
    Twins x y T (s.setHalf c half n) (t.setHalf c half n) where
  left := h.left.setHalf half (hc.1 c rfl) hn.1
  right := h.right.setHalf half (hc.2 c rfl) hn.2
  size_cells := by rw [Store.size_cells_setHalf, Store.size_cells_setHalf, h.size_cells]
  cell d := by
    simp only [Store.references]
    rw [Store.cell_setHalf, Store.cell_setHalf, h.size_cells]
    split
    · rename_i hcd
      rw [← hcd.1, h.cell_eq (hc.1 c rfl)]
      exact ⟨rfl, .inl rfl⟩
    · exact h.cell d
  size_frames := h.size_frames
  frame := h.frame
  size_closures := h.size_closures
  closure := h.closure
  settled := by simp only [Store.setHalf, Store.settle, h.settled]

/-- **A name is bound** in a frame, outside or where it is bound already. -/
theorem bind (h : Twins x y T s t) (hf : T.zone f = some z) {a : String} {n : Node}
    (ha : z = .outside ∨ a ∈ (s.frame f).bindings.names) (hn : T.Data n.value) :
    Twins x y T (s.bind f a n) (t.bind f (z.rename x y a) n) where
  left := h.left.bind f a hn.1
  right := h.right.bind f _ hn.2
  size_cells := h.size_cells
  cell := h.cell
  size_frames := by
    rw [Store.size_frames_bind, Store.size_frames_bind]
    exact h.size_frames
  frame {g zg} hg := by
    have hsize : f.index < s.frames.size ∧ f.index < t.frames.size := by
      rw [h.size_frames.1, h.size_frames.2]
      exact ⟨(List.getElem?_eq_some_iff.1 hf).1, (List.getElem?_eq_some_iff.1 hf).1⟩
    have hframe := h.frame hg
    rw [Store.frame_bind, Store.frame_bind]
    by_cases hfg : f = g
    · subst hfg
      cases hf.symm.trans hg
      rw [if_pos ⟨rfl, hsize.1⟩, if_pos ⟨rfl, hsize.2⟩]
      refine ⟨hframe.outer, ?_, fun ho => ?_, hframe.global⟩
      · rw [hframe.bindings, Table.insert_mapNames (Zone.rename_injective x y z)]
      · obtain ⟨hlt, zo, hzo, hb⟩ := hframe.beneath ho
        refine ⟨hlt, zo, hzo, ?_⟩
        rcases ha with rfl | hmem
        · cases hb
          exact .outside _
        · refine hb.congr ?_
          rw [Table.mem_names_insert]
          exact ⟨fun hx => hx.elim (fun hxa => hxa ▸ hmem) id, .inr⟩
    · rw [if_neg fun h => hfg h.1, if_neg fun h => hfg h.1]
      exact hframe
  size_closures := h.size_closures
  closure := h.closure
  settled := by simp only [Store.bind, Store.settle, Store.modifyBindings, h.settled]

theorem references_eq (h : Twins x y T s t) (r : Ref) : t.references r = s.references r := by
  cases r with
  | cell c => exact (h.cell c).1
  | frame f =>
    unfold Store.references
    cases hf : T.zone f with
    | none => simp only [h.frame_eq_of_none hf]
    | some z =>
      simp only [(h.frame hf).outer, (h.frame hf).bindings, Table.mapNames, List.flatMap_map]
  | closure k =>
    obtain ⟨zf, z, -, -, -, hbody⟩ := (h.closure k).call
    simp only [Store.references, (h.closure k).frame, hbody.refs_eq]

/-- A closure is named on both sides or on neither. -/
theorem nameFresh (h : Twins x y T s t) (held : List Ref) (v : Value) (name : String) :
    Twins x y T (MiniScheme.nameFresh held v name s) (MiniScheme.nameFresh held v name t) := by
  have hleft := h.left.nameFresh held v name
  have hright := h.right.nameFresh held v name
  revert hleft hright
  unfold MiniScheme.nameFresh
  split
  · rename_i k
    have honly := Store.isOnlyHeldHere_congr h.size_cells
      (h.size_frames.2.trans h.size_frames.1.symm) h.size_closures h.references_eq h.settled held k
    rw [(h.closure k).name, honly]
    split
    · intro hleft hright
      refine ⟨hleft, hright, h.size_cells, h.cell, h.size_frames, h.frame, ?_, fun l => ?_,
        h.settled⟩
      · rw [Store.size_closures_nameClosure, Store.size_closures_nameClosure, h.size_closures]
      · rw [Store.closure_nameClosure, Store.closure_nameClosure, h.size_closures]
        obtain ⟨hname, hframe, hcall⟩ := h.closure l
        split
        · exact ⟨rfl, hframe, hcall⟩
        · exact ⟨hname, hframe, hcall⟩
    · exact fun _ _ => h
  · exact fun _ _ => h

/-! ## Reading a text -/

/-- The cells of what has been read, old and new ones. -/
theorem cell_load (h : Twins x y T s t) {d d' : Datum}
    (hsize : (t.load d').2.cells.size = (s.load d).2.cells.size)
    (hagree : Layout.Agree (s.load d).2 (t.load d').2 s.cells.size (d.marks .expression))
    (c : CellId) :
    (t.load d').2.references (.cell c) = (s.load d).2.references (.cell c) ∧
      ((t.load d').2.cell c = (s.load d).2.cell c ∨
        ∃ k, (T.left.load s d).mark c = some (.code k)) := by
  by_cases hold : c.index < s.cells.size
  · have hs := (Store.grows_load s d).cell c hold
    have ht := (Store.grows_load t d').cell c (h.size_cells ▸ hold)
    obtain ⟨hrefs, hcell⟩ := h.cell c
    simp only [Store.references, hs, ht]
    refine ⟨hrefs, hcell.imp_right ?_⟩
    rintro ⟨k, hk⟩
    exact ⟨k, h.left.le_load d c _ hk⟩
  · obtain ⟨i, rfl⟩ : ∃ i, c = ⟨s.cells.size + i⟩ :=
      ⟨c.index - s.cells.size, congrArg CellId.mk (by omega)⟩
    cases hb : (d.marks .expression)[i]? with
    | some b =>
      obtain ⟨hrefs, hcell⟩ := hagree i b hb
      refine ⟨hrefs, ?_⟩
      cases b with
      | false => exact .inl (hcell rfl)
      | true => exact .inr ⟨_, T.left.mark_load_new s d hb⟩
    | none =>
      -- there is no such cell
      have hlen := List.getElem?_eq_none_iff.1 hb
      have hout : (s.load d).2.cells.size ≤ s.cells.size + i := by
        rw [Layout.size_cells_load s .expression d]
        omega
      have hs := Store.cell_of_size_le (c := ⟨s.cells.size + i⟩) hout
      have ht := Store.cell_of_size_le (c := ⟨s.cells.size + i⟩) (hsize.trans_le hout)
      simp only [Store.references, hs, ht]
      exact ⟨trivial, .inl trivial⟩

/-- **Reading two texts** that differ in the name of a parameter, or the same text twice. -/
theorem load (h : Twins x y T s t) (hx : isReserved x = false) (hy : isReserved y = false)
    {d d' : Datum} (hd : d.Altered x y .outside .expression d') :
    ∃ T', T ≤ T' ∧ Twins x y T' (s.load d).2 (t.load d').2 ∧
      T'.Altered x y .outside .expression (s.load d).1 (t.load d').1 := by
  have hle : T ≤ { T with left := T.left.load s d, right := T.right.load t d' } :=
    ⟨h.left.le_load d, h.right.le_load d', List.prefix_rfl⟩
  obtain ⟨haltered, hsize, hagree⟩ := Layout.altered_load (L := T.left.load s d)
    (R := T.right.load t d') hx hy s t .outside .expression d hd h.size_cells (.refl _) (.refl _)
    (fun _ _ hb => T.left.mark_load_new s d hb) fun _ _ hb => T.right.mark_load_new t d' hb
  have hs := Store.grows_load s d
  have ht := Store.grows_load t d'
  refine ⟨_, hle, ⟨(h.left.load d fun _ _ _ => trivial).1, (h.right.load d' fun _ _ _ => trivial).1,
    hsize, h.cell_load hsize hagree, ?_, fun {f z} hf => ?_, ?_, fun k => ?_, ?_⟩, haltered⟩
  · rw [hs.frames, ht.frames]
    exact h.size_frames
  · rw [Store.frame, Store.frame, hs.frames, ht.frames]
    exact (h.frame hf).mono hle
  · rw [hs.closures, ht.closures, h.size_closures]
  · rw [Store.closure, Store.closure, hs.closures, ht.closures]
    exact (h.closure k).mono hle
  · rw [(Store.settled_load s d).1, (Store.settled_load t d').1, h.settled]

/-! ## What is printed -/

/-- **Data are printed alike**: their cells are the same, and so are the names of closures. -/
theorem text_eq (h : Twins x y T s t) {v : Value} (hv : T.Data v) : t.text v = s.text v :=
  Store.text_congr (fun hc => h.cell_eq (hc.1 _ rfl)) (fun half hc => (h.half hc half).2)
    (fun {k} _ => (h.closure k).name) hv

end Twins

end MiniScheme
