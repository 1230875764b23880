import MiniScheme.Proofs.Code.Separation
import MiniScheme.Proofs.Invariant
import MiniScheme.Proofs.Scope.Frames

/-!
# Frames in the course of an evaluation

`scopeConduct` follows the frames through an evaluation. Its worlds are the moments of the run: a
sound store, with the layout that tells which of its cells are code. The code is needed to say
where a frame has its names from: they are the parameters of a closure, which never change, or the
names of a `let`, and its form is code and never changes either.

One moment comes before another if the store has only become `Later`. A function `F` tells names
that no `define` form is to bind in a global frame; then the frame does not get such a name.

## Results

* `Moment.store_scoped`: what holds of the frames at every moment.
* `scopeConduct.kept`: every operation of an evaluation leads to a later moment.
* `Moment.exists_eval`: whole evaluations, and what it takes for a global frame to get a name.
* `Moment.exists_passed`: the moments that an evaluation comes by.
-/

namespace MiniScheme

variable {F : FrameId → String → Bool}

/-! ## Where names come from -/

namespace Store

/-- The names are the parameters of a closure over the frame. -/
def Parameters (s : Store) (o : FrameId) (names : List String) : Prop :=
  ∃ k : ClosureId, k.index < s.closures.size ∧ (s.closure k).frame = o ∧
    (s.closure k).params = names

/-- Every chain of outer links ends in a global frame, and no frame binds a name twice. The names
of a frame that is not global are the parameters of a closure over the frame around it, or they
are the names of a `let` form. -/
structure Scoped (s : Store) : Prop where
  chain : ∀ {f}, s.HasFrame f → s.Outward f (s.chain f)
  names : ∀ f, (s.namesOf f).Nodup
  origin : ∀ {f o}, (s.frame f).outer = some o → s.Parameters o (s.namesOf f) ∨
    LetNames (fun _ n items => s.elements? n.value = some items) (s.namesOf f)

theorem Later.parameters {s t : Store} (h : Later F s t) {o : FrameId} {names : List String}
    (hp : s.Parameters o names) : t.Parameters o names := by
  obtain ⟨k, hk, hframe, hparams⟩ := hp
  obtain ⟨hparams', hframe'⟩ := h.closure hk
  exact ⟨k, Nat.lt_of_lt_of_le hk h.closures, hframe'.trans hframe, hparams'.trans hparams⟩

theorem hasFrame_enclose (s : Store) (held : List Ref) (f : FrameId)
    (entries : List (String × Node)) :
    (s.enclose held f entries).2.HasFrame (s.enclose held f entries).1 := by
  change s.frames.size < (s.newFrame _ _).2.frames.size
  rw [size_frames_newFrame]
  exact Nat.lt_succ_self _

theorem outer_of_not_hasFrame {s : Store} {f : FrameId} (h : ¬s.HasFrame f) :
    (s.frame f).outer = none := by
  rw [frame, Array.getElem?_eq_none (Nat.le_of_not_lt h)]
  rfl

end Store

/-- The frame has its names from a closure or from a `let` of the code. -/
def Layout.Origin (L : Layout) (s : Store) (f o : FrameId) : Prop :=
  s.Parameters o (s.namesOf f) ∨
    LetNames (fun _ n items => L.Chain n.value items) (s.namesOf f)

/-! ## Moments -/

/-- A store at some moment, and which of its cells are code. -/
structure Moment (F : FrameId → String → Bool) where
  store : Store
  layout : Layout
  sound : store.Sound
  separated : Separated (fun _ _ => True) layout store
  origin : ∀ {f o}, (store.frame f).outer = some o → layout.Origin store f o

namespace Moment

instance : Preorder (Moment F) where
  le w u := w.layout ≤ u.layout ∧ Store.Later F w.store u.store
  le_refl w := ⟨le_rfl, Store.later_of_eq rfl rfl⟩
  le_trans _ _ _ h h' := ⟨h.1.trans h'.1, h.2.trans h'.2⟩

/-- Nothing has been made yet. -/
def start : Moment F where
  store := .empty
  layout := ⟨fun _ => none⟩
  sound := {
    cell := fun _ half => by cases half <;> exact Store.known_leaf nofun
    binding := nofun
    closure := nofun
    outer := nofun
    names := fun _ => .nil }
  separated := .empty
  origin := nofun

/-- **What holds of the frames** at every moment. -/
theorem store_scoped (w : Moment F) : w.store.Scoped where
  chain {f} _ := w.sound.forest.outward f
  names f := w.sound.names f
  origin ho := (w.origin ho).imp_right fun hlet =>
    hlet.imp fun _ hc => (w.separated.isList hc).elements?_eq

/-- A later store makes a later moment, if it is known where its new frames have their names
from. -/
theorem exists_next (w : Moment F) {t : Store} {L : Layout} (hL : w.layout ≤ L) (ht : t.Sound)
    (hsep : Separated (fun _ _ => True) L t) (hlater : Store.Later F w.store t)
    (hnew : ∀ {f o}, ¬w.store.HasFrame f → (t.frame f).outer = some o → L.Origin t f o) :
    ∃ u : Moment F, w ≤ u ∧ u.store = t ∧ u.layout = L := by
  refine ⟨⟨t, L, ht, hsep, fun {f o} ho => ?_⟩, ⟨hL, hlater⟩, rfl, rfl⟩
  by_cases hf : w.store.HasFrame f
  · rw [hlater.outer hf] at ho
    rw [Layout.Origin, hlater.inner hf ho]
    exact (w.origin ho).imp hlater.parameters fun hlet => hlet.imp fun _ hc => hc.mono hL
  · exact hnew hf ho

/-- The same without new frames. -/
theorem exists_next_of_size (w : Moment F) {t : Store} {L : Layout} (hL : w.layout ≤ L)
    (ht : t.Sound) (hsep : Separated (fun _ _ => True) L t) (hlater : Store.Later F w.store t)
    (hsize : t.frames.size = w.store.frames.size) :
    ∃ u : Moment F, w ≤ u ∧ u.store = t ∧ u.layout = L := by
  refine w.exists_next hL ht hsep hlater fun {f o} hf ho => ?_
  have hnone : (t.frame f).outer = none := Store.outer_of_not_hasFrame fun hf' => by
    rw [Store.HasFrame, hsize] at hf'
    exact hf hf'
  rw [hnone] at ho
  cases ho

/-- A frame beneath another one, with names of which the origin is known. -/
theorem exists_enclose (w : Moment F) (held : List Ref) {f : FrameId}
    {entries : List (String × Node)}
    (hf : w.store.HasFrame f) (hnames : (entries.map Prod.fst).Nodup)
    (hvalues : ∀ e ∈ entries, e.2.Known w.store ∧ w.layout.Data e.2.value)
    (horigin : w.store.Parameters f (entries.map Prod.fst) ∨
      LetNames (fun _ n items => w.layout.Chain n.value items) (entries.map Prod.fst)) :
    ∃ u : Moment F, w ≤ u ∧ u.store = (w.store.enclose held f entries).2 ∧
      u.store.HasFrame (w.store.enclose held f entries).1 := by
  have hnew {g o : FrameId} (hg : ¬w.store.HasFrame g)
      (ho : ((w.store.enclose held f entries).2.frame g).outer = some o) :
      w.layout.Origin (w.store.enclose held f entries).2 g o := by
    by_cases heq : g = (w.store.enclose held f entries).1
    · rw [Store.frame_enclose, if_pos heq] at ho
      cases ho
      rw [Layout.Origin, Store.namesOf, Store.frame_enclose, if_pos heq,
        Store.names_enclosed hnames]
      exact horigin
    · rw [Store.frame_enclose, if_neg heq, Store.outer_of_not_hasFrame hg] at ho
      cases ho
  obtain ⟨u, hu, hstore, -⟩ := w.exists_next le_rfl
    (w.sound.enclose held hf hnames fun e he => (hvalues e he).1)
    (w.separated.enclose held f fun e he => (hvalues e he).2) (Store.later_enclose _ _ _) hnew
  refine ⟨u, hu, hstore, ?_⟩
  rw [hstore]
  exact Store.hasFrame_enclose w.store held f entries

/-- A populated global frame. -/
theorem exists_newPopulated (w : Moment F) :
    ∃ u : Moment F, w ≤ u ∧ u.store = w.store.newPopulated.2 ∧
      u.store.HasFrame w.store.newPopulated.1 ∧
      (u.store.frame w.store.newPopulated.1).outer = none := by
  have hleaf : ∀ e ∈ Primitive.all.map fun p =>
      (p.name, (⟨.procedure (.primitive p), default⟩ : Node)),
      e.2.Known w.store ∧ w.layout.Data e.2.value := by
    intro e he
    obtain ⟨p, -, rfl⟩ := List.mem_map.1 he
    exact ⟨Store.known_leaf nofun, Layout.data_of_leaf nofun⟩
  have hnew {f o : FrameId} (hf : ¬w.store.HasFrame f)
      (ho : (w.store.newPopulated.2.frame f).outer = some o) :
      w.layout.Origin w.store.newPopulated.2 f o := by
    unfold Store.newPopulated at ho
    rw [Store.frame_newFrame] at ho
    split at ho
    · cases ho
    · rw [Store.outer_of_not_hasFrame hf] at ho
      cases ho
  obtain ⟨u, hu, hstore, -⟩ := w.exists_next (t := w.store.newPopulated.2) le_rfl
    (w.sound.newFrame (fun _ h => by cases h) (by decide) fun e he => (hleaf e he).1)
    (w.separated.newFrame none fun e he => (hleaf e he).2) (Store.later_newFrame _ _) hnew
  refine ⟨u, hu, hstore, ?_⟩
  rw [hstore, Store.newPopulated, Store.HasFrame, Store.size_frames_newFrame,
    Store.frame_newFrame, if_pos rfl]
  exact ⟨Nat.lt_succ_self _, rfl⟩

theorem exists_bind (w : Moment F) {f : FrameId} {name : String} {v : Node}
    (hv : v.Known w.store ∧ w.layout.Data v.value)
    (h : name ∈ w.store.namesOf f ∨ (w.store.frame f).outer = none ∧ F f name = false) :
    ∃ u : Moment F, w ≤ u ∧ u.store = w.store.bind f name v ∧ u.layout = w.layout :=
  w.exists_next_of_size le_rfl (w.sound.bind f name hv.1) (w.separated.bind f name hv.2)
    (Store.later_bind v h) (by simp)

/-- A cell for two values. -/
theorem exists_newCell (w : Moment F) {a b : Node} (ha : a.Known w.store ∧ w.layout.Data a.value)
    (hb : b.Known w.store ∧ w.layout.Data b.value) :
    ∃ u : Moment F, w ≤ u ∧ u.store = (w.store.newCell a b).2 ∧
      u.layout.Data (.pair (w.store.newCell a b).1) := by
  obtain ⟨L, hle, hsep, hdata⟩ := w.separated.newCell ha.2 hb.2
  obtain ⟨u, hu, hstore, rfl⟩ := w.exists_next_of_size hle (w.sound.newCell ha.1 hb.1) hsep
    (Store.later_of_eq rfl rfl) rfl
  refine ⟨u, hu, hstore, ?_⟩
  rintro _ ⟨⟩
  exact hdata

end Moment

/-! ## The conduct -/

/-- Frames and names go on as they should; see `Moment`. -/
def scopeConduct (F : FrameId → String → Bool) : Conduct (Moment F) where
  machine w m := m.store = w.store
  span _ _ := True
  frame w f := w.store.HasFrame f
  value w n := n.Known w.store ∧ w.layout.Data n.value
  code w r n := n.Known w.store ∧ w.layout.Reads r n
  definition w f ns := ∀ target e name, ns = [target, e] → target.value.symbol? = some name →
    F (w.store.root f) name = false
  name _ _ := True
  error _ _ := True

namespace scopeConduct

variable {w : Moment F} {m : Machine}

theorem chain_of_opened {r : Role} {n : Node} {items : List Node} (hr : r ≠ .datum)
    (h : (scopeConduct F).Opened w r n items) : w.layout.Chain n.value items := by
  obtain ⟨v, m, hv, hm, hn, hi⟩ := h
  rw [show m.store = v.store from hm] at hi
  exact (v.separated.elements? hn.2 hr hi).1.mono hv.1

theorem value_leaf {v : Value} {span : Span} (hk : ∀ k, v ≠ .procedure (.closure k))
    (hp : ∀ c, v ≠ .pair c) : (scopeConduct F).value w ⟨v, span⟩ :=
  ⟨Store.known_leaf hk, Layout.data_of_leaf hp⟩

theorem change {p : Primitive} {span : Span} {c : Store → Node × Store}
    (hm : (scopeConduct F).machine w m) (hc : p.Change ((scopeConduct F).value w) span c) :
    ∃ u, w ≤ u ∧ (scopeConduct F).machine u { m with store := (c m.store).2 } ∧
      (scopeConduct F).value u (c m.store).1 := by
  obtain ⟨s, recording, log⟩ := m
  obtain rfl : s = w.store := hm
  cases hc with
  | integer n => exact ⟨w, le_rfl, rfl, value_leaf nofun nofun⟩
  | boolean b => exact ⟨w, le_rfl, rfl, value_leaf nofun nofun⟩
  | @list args hargs _ =>
    obtain ⟨L, hle, hsep, hdata⟩ := w.separated.newTail span.stop fun x hx => (hargs x hx).2
    have hgrows := Store.grows_newTail w.store span.stop args
    obtain ⟨u, hu, hstore, rfl⟩ := w.exists_next_of_size hle
      (w.sound.newTail span.stop fun x hx => (hargs x hx).1) hsep
      (Store.later_of_eq hgrows.frames hgrows.closures) (by rw [hgrows.frames])
    exact ⟨u, hu, hstore.symm, fun k hk => Store.known_newTail span.stop args _ k hk, hdata⟩
  | cons ha hb =>
    obtain ⟨u, hu, hstore, hdata⟩ := w.exists_newCell ha hb
    exact ⟨u, hu, hstore.symm, Store.known_leaf nofun, hdata⟩
  | half half ha hc =>
    obtain ⟨-, hcar, hcdr⟩ := w.separated.data (ha.2 _ hc)
    refine ⟨w, le_rfl, rfl, w.sound.cell _ half, ?_⟩
    cases half with
    | car => exact hcar
    | cdr => exact hcdr
  | setHalf half ha hb hc =>
    obtain ⟨u, hu, hstore, -⟩ := w.exists_next_of_size le_rfl (w.sound.setHalf _ half hb.1)
      (w.separated.setHalf half (ha.2 _ hc) hb.2) (Store.later_of_eq rfl rfl) rfl
    exact ⟨u, hu, hstore.symm, value_leaf nofun nofun⟩

/-- The frame of a call has the parameters for its names. -/
theorem enterClosure {held : List Ref} {v : Node} {k : ClosureId} {args : List Node} {span : Span}
    (hm : (scopeConduct F).machine w m) (hv : (scopeConduct F).value w v)
    (hk : v.value = .procedure (.closure k)) (hargs : ∀ a ∈ args, (scopeConduct F).value w a) :
    (scopeConduct F).Ends w
      (fun u x => (scopeConduct F).frame u x.1 ∧ (scopeConduct F).code u .expression x.2)
      (enterClosure held k args span m) := by
  obtain ⟨log, hrun⟩ := enterClosure_run held k args span m
  rw [hrun, show m.store = w.store from hm]
  have hlt := hv.1 k hk
  obtain ⟨hframe, hparams, hbody⟩ := w.sound.closure hlt
  split
  · rename_i hlen
    have hnames : ((w.store.closure k).params.zip args).map Prod.fst = (w.store.closure k).params :=
      List.map_fst_zip (Nat.le_of_eq hlen)
    have hnodup : (((w.store.closure k).params.zip args).map Prod.fst).Nodup := by rwa [hnames]
    obtain ⟨u, hu, hstore, hnew⟩ := w.exists_enclose held hframe hnodup
      (fun e he => hargs e.2 (List.of_mem_zip he).2) (.inl ⟨k, hlt, rfl, hnames.symm⟩)
    exact ⟨u, hu, hstore.symm, hnew, Store.known_mono hu.2.closures hbody,
      (w.separated.body k).mono hu.1⟩
  · exact ⟨w, le_rfl, rfl, trivial⟩

/-- A `define` binds its name in a global frame. -/
theorem bindGlobal {f : FrameId} {n e v : Node} {name : String} (held : List Ref)
    (hm : (scopeConduct F).machine w m) (hf : (scopeConduct F).frame w f)
    (hd : (scopeConduct F).definition w f [n, e]) (hname : n.value.symbol? = some name)
    (hv : (scopeConduct F).value w v) :
    (scopeConduct F).Ends w (fun _ _ => True) (bindGlobal held f name v m) := by
  obtain ⟨log, hrun⟩ := bindGlobal_run held f name v m
  rw [hrun, show m.store = w.store from hm]
  have hrenamed := Store.renamed_nameFresh held v.value name w.store
  have hlater : Store.Later F w.store (nameFresh held v.value name w.store) := hrenamed.later
  obtain ⟨u, hu, hstore, hlayout⟩ := w.exists_next_of_size le_rfl (w.sound.renamed hrenamed)
    (w.separated.nameFresh held v.value name) hlater (by rw [hrenamed.frames])
  have hroot : u.store.root f = w.store.root f := hu.2.root w.sound hf
  have hfree : (u.store.frame (u.store.root f)).outer = none ∧ F (u.store.root f) name = false :=
    ⟨u.sound.forest.outer_root f, hroot ▸ hd n e name rfl hname⟩
  obtain ⟨x, hx, hstore', -⟩ :=
    u.exists_bind ⟨Store.known_mono hu.2.closures hv.1, hv.2.mono hu.1⟩ (.inr hfree)
  refine ⟨x, hu.trans hx, ?_, trivial⟩
  rw [hstore] at hstore'
  exact hstore'.symm

/-- A `set!` binds a name where it is bound already. -/
theorem assignName {f : FrameId} {v : Node} {name : String} {span : Span}
    (hm : (scopeConduct F).machine w m) (hv : (scopeConduct F).value w v) :
    (scopeConduct F).Ends w (fun _ _ => True) (assignName f name v span m) := by
  rw [assignName_run, show m.store = w.store from hm]
  cases ho : w.store.owner? f name with
  | some g =>
    obtain ⟨u, hu, hstore, -⟩ := w.exists_bind hv (.inl (Store.mem_namesOf_owner ho))
    exact ⟨u, hu, hstore.symm, trivial⟩
  | none => exact ⟨w, le_rfl, hm, trivial⟩

/-- **Every operation leads to a later moment.** -/
theorem kept (F : FrameId → String → Bool) : (scopeConduct F).Kept where
  span_mono _ h := h
  frame_mono hle hf := hle.2.hasFrame hf
  value_mono hle h := ⟨Store.known_mono hle.2.closures h.1, h.2.mono hle.1⟩
  code_mono hle h := ⟨Store.known_mono hle.2.closures h.1, h.2.mono hle.1⟩
  definition_mono {w u f ns} hle hf h target e name hns hname := by
    rw [hle.2.root w.sound hf]
    exact h target e name hns hname
  note event h := (Machine.store_note _ event).trans h
  code_span _ := trivial
  code_name _ _ := trivial
  item {w m r n items i x} hm hn hr hi hx := by
    rw [show m.store = w.store from hm] at hi
    exact ⟨w.sound.elementsWithin hi x (List.mem_of_getElem? hx),
      (w.separated.elements? hn.2 hr hi).2 i x hx⟩
  constant h _ hp := ⟨h.1, Layout.data_of_leaf hp⟩
  quoted h := ⟨h.1, h.2.data⟩
  boolean _ _ := value_leaf nofun nofun
  symbol _ _ := value_leaf nofun nofun
  unspecified _ := value_leaf nofun nofun
  found {w m f n name v} hm _ _ _ hv := by
    rw [show m.store = w.store from hm] at hv
    exact ⟨w.sound.lookup hv, w.separated.lookup hv⟩
  value_name _ _ := trivial
  primitive_name _ := trivial
  located _ _ := trivial
  mismatch _ _ _ _ := trivial
  divisionByZero _ _ := trivial
  change hm _ _ _ hc := change hm hc
  enterClosure hm hv hk hargs _ := enterClosure hm hv hk hargs
  bindGlobal {w f n e name held v m} hm hf hd hname _ hv := bindGlobal held hm hf hd hname hv
  assignName hm _ _ _ hv := assignName hm hv
  newClosure {w f names body s m} hm hf hnodup hbody _ := by
    obtain ⟨t, recording, log⟩ := m
    obtain rfl : t = w.store := hm
    obtain ⟨u, hu, hstore, -⟩ := w.exists_next_of_size (t := (w.store.newClosure
      ⟨none, names, body, f⟩).2) le_rfl (w.sound.newClosure hf hnodup hbody.1)
      (w.separated.newClosure hbody.2) (Store.later_newClosure _) rfl
    refine ⟨u, hu, hstore.symm, fun k hk => ?_, Layout.data_of_leaf nofun⟩
    cases hk
    rw [hstore, Store.size_closures_newClosure]
    exact Nat.lt_succ_self _
  enclose {w held f entries m} hm hf hvalues hnodup hlet := by
    obtain ⟨t, recording, log⟩ := m
    obtain rfl : t = w.store := hm
    obtain ⟨u, hu, hstore, hnew⟩ := w.exists_enclose held hf hnodup hvalues
      (.inr (hlet.imp fun hr ho => chain_of_opened hr ho))
    exact ⟨u, hu, hstore.symm, hnew⟩

end scopeConduct

/-! ## Whole evaluations -/

/-- The name that a `define` form is for. -/
def Store.definition? (s : Store) (n : Node) : Option String :=
  match s.elements? n.value with
  | some [head, target, _] =>
    if Likeness.formOf head = some .define then target.value.symbol? else none
  | _ => none

/-- The node is a `define` form that is to bind, in the global frame of the frame in which it is
evaluated, a name that `F` tells. -/
def definesOf (F : FrameId → String → Bool) (n : Node) (f : FrameId) (m : Machine) : Bool :=
  (m.store.definition? n).any (F (m.store.root f))

namespace Moment

variable {w : Moment F} {m : Machine} {f : FrameId} {n : Node} {limit room : Nat} {held : List Ref}

theorem spared_of_definition {head : Node} {ns : List Node} (hm : m.store = w.store)
    (hp : definesOf F n f m = false) (hi : m.store.elements? n.value = some (head :: ns))
    (hform : Likeness.formOf head = some .define) : (scopeConduct F).definition w f ns := by
  rintro target e name rfl hname
  have hdefinition : m.store.definition? n = some name := by
    rw [Store.definition?, hi]
    simp only [hform, if_true, hname]
  rw [definesOf, hdefinition, hm] at hp
  exact hp

/-- **A whole evaluation** leads to a later moment, if it comes by no `define` form for a name
that `F` tells. -/
theorem exists_eval (hm : m.store = w.store) (hf : w.store.HasFrame f) (hn : n.Known w.store)
    (hcode : w.layout.Reads .expression n)
    (hmeets : ¬Meets (definesOf F) limit room held n f m) :
    ∃ u, w ≤ u ∧ u.store = (finalMachine (eval limit room held n f m)).store := by
  have hsame : evalUntil (definesOf F) (.depthExceeded limit n.span) limit room held n f m =
      eval limit room held n f m := by
    by_contra hne
    exact hmeets ⟨_, hne⟩
  have hends : (scopeConduct F).Ends w (scopeConduct F).value
      (evalUntil (definesOf F) (.depthExceeded limit n.span) limit room held n f m) :=
    (scopeConduct.kept F).evalUntil_ends (fun _ => trivial)
      (fun hm _ _ hp hi hform => spared_of_definition hm hp hi hform) limit room held hm hf
      ⟨hn, hcode⟩
  rw [hsame] at hends
  revert hends
  cases eval limit room held n f m with
  | ok v m' => exact fun ⟨u, hu, hstore, _⟩ => ⟨u, hu, hstore.symm⟩
  | error e m' => exact fun ⟨u, hu, hstore, _⟩ => ⟨u, hu, hstore.symm⟩

/-- **The moments of an evaluation** lie between its start and its end. -/
theorem exists_passed {w : Moment fun _ _ => false} {q : Node → FrameId → Machine → Bool}
    (hm : m.store = w.store) (hf : w.store.HasFrame f) (hn : n.Known w.store)
    (hcode : w.layout.Reads .expression n) (hmeets : Meets q limit room held n f m) :
    ∃ n₁ f₁ m₁, q n₁ f₁ m₁ = true ∧ ∃ v u : Moment fun _ _ => false, v.store = m₁.store ∧
      w ≤ v ∧ v ≤ u ∧ u.store = (finalMachine (eval limit room held n f m)).store := by
  obtain ⟨v, u, hwv, ⟨n₁, f₁, m₁, hq, hm₁⟩, hvu, hu⟩ :=
    (scopeConduct.kept fun _ _ => false).eval_passes (fun _ _ _ _ _ => rfl) hm hf ⟨hn, hcode⟩ hmeets
  exact ⟨n₁, f₁, m₁, hq, v, u, hm₁.symm, hwv, hvu, hu.symm⟩

end Moment

end MiniScheme
