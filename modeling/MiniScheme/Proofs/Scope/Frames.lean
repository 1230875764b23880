import MiniScheme.Eval
import MiniScheme.Proofs.Updates

/-!
# Frames

What holds of the frames of a store while programs run. A store is `Sound` if what is referred to
exists, the frame around a frame was made before it and the names of a frame are distinct. So the
chain of a frame goes outwards to a global frame and ends there, `IsForest.outward`.

From one moment to a later one a store `Keeps` its frames: their outer links stay, frames that
are not global keep exactly their names, and global frames lose none. Every operation of an
evaluation keeps a store sound and leads to a `Later` one. What has to be known for it is that
a name is bound only in a global frame or where it is bound already.

## Results

* `Store.IsForest.outward`: chains of outer links end in global frames.
* `Store.later_bind`: the names that a binding adds.
* `Store.Keeps.lookup?`: a name that is found from a frame is found ever after.
-/

namespace MiniScheme

/-! ## Tables -/

namespace Table

variable {α : Type}

theorem names_insertEntry (name : String) (a : α) (es : List (String × α)) :
    (insertEntry name a es).map Prod.fst =
      if name ∈ es.map Prod.fst then es.map Prod.fst else es.map Prod.fst ++ [name] := by
  induction es with
  | nil => rfl
  | cons e es ih =>
    rw [insertEntry]
    split
    · rename_i hname
      have heq : name = e.1 := by simpa using hname
      simp [heq]
    · rename_i hname
      have hne : name ≠ e.1 := by simpa using hname
      simp only [List.map_cons, ih, List.mem_cons, hne, false_or]
      split
      · rfl
      · rfl

/-- A name that was inserted is one of the names, at the end if it is new. -/
theorem names_insert (t : Table α) (name : String) (a : α) :
    (t.insert name a).names = if name ∈ t.names then t.names else t.names ++ [name] :=
  names_insertEntry name a t.entries

theorem contains_iff {t : Table α} {name : String} : t.contains name = true ↔ name ∈ t.names := by
  unfold contains get? names
  induction t.entries with
  | nil => simp
  | cons e es ih =>
    rw [List.lookup_cons]
    by_cases hname : name = e.1
    · simp [hname]
    · have hne : (name == e.1) = false := by simpa using hname
      simp only [hne, List.map_cons, List.mem_cons, hname, false_or]
      exact ih

theorem nodup_insert {t : Table α} (h : t.names.Nodup) (name : String) (a : α) :
    (t.insert name a).names.Nodup := by
  rw [names_insert]
  split
  · exact h
  · rename_i hname
    rw [List.nodup_append]
    refine ⟨h, by simp, fun x hx y hy => ?_⟩
    rw [List.mem_singleton.1 hy]
    rintro rfl
    exact hname hx

/-- Distinct names that are inserted one after the other follow the names that were there. -/
theorem names_insertAll {t : Table α} {entries : List (String × α)}
    (h : (t.names ++ entries.map Prod.fst).Nodup) :
    (t.insertAll entries).names = t.names ++ entries.map Prod.fst := by
  induction entries generalizing t with
  | nil => simp [insertAll]
  | cons e es ih =>
    have hnew : e.1 ∉ t.names := fun hmem =>
      (List.nodup_append.1 h).2.2 e.1 hmem e.1 (by simp) rfl
    have hnames : (t.insert e.1 e.2).names = t.names ++ [e.1] := by
      rw [names_insert, if_neg hnew]
    change ((t.insert e.1 e.2).insertAll es).names = _
    rw [ih (by rw [hnames]; simpa using h), hnames]
    simp

end Table

/-- A closure that the node refers to exists. -/
def Node.Known (s : Store) (n : Node) : Prop :=
  ∀ k, n.value = .procedure (.closure k) → k.index < s.closures.size

namespace Store

variable {s : Store}

/-- There is such a frame. -/
def HasFrame (s : Store) (f : FrameId) : Prop := f.index < s.frames.size

instance (s : Store) (f : FrameId) : Decidable (s.HasFrame f) := inferInstanceAs (Decidable (_ < _))

/-- The names of a frame, in the order in which they were bound. -/
def namesOf (s : Store) (f : FrameId) : List String := (s.frame f).bindings.names

/-! ## Sound stores -/

/-- What is referred to exists, the frame around a frame was made before it, and the names of a
frame and the parameters of a closure are distinct. -/
structure Sound (s : Store) : Prop where
  cell : ∀ c half, ((s.cell c).half half).Known s
  binding : ∀ {f name v}, (s.frame f).bindings.get? name = some v → v.Known s
  closure : ∀ {k : ClosureId}, k.index < s.closures.size →
    s.HasFrame (s.closure k).frame ∧ (s.closure k).params.Nodup ∧ (s.closure k).body.Known s
  outer : ∀ {f g}, (s.frame f).outer = some g → g.index < f.index
  names : ∀ f, (s.namesOf f).Nodup

theorem known_mono {t : Store} (h : s.closures.size ≤ t.closures.size) {n : Node}
    (hn : n.Known s) : n.Known t :=
  fun k hk => Nat.lt_of_lt_of_le (hn k hk) h

theorem known_leaf {v : Value} {span : Span} (h : ∀ k, v ≠ .procedure (.closure k)) :
    Node.Known s ⟨v, span⟩ :=
  fun k hk => absurd hk (h k)

theorem known_newTail (stop : Nat) (items : List Node) (t : Store) :
    (s.newTail stop items).1.Known t := by
  cases items with
  | nil => exact known_leaf nofun
  | cons _ _ => exact known_leaf nofun

theorem known_load (d : Datum) (t : Store) : (s.load d).1.Known t := by
  cases d with
  | atom a span => exact known_leaf nofun
  | list items span => exact fun k hk => known_newTail span.stop (s.loadAll items).1 t k hk

theorem names_enclosed {entries : List (String × Node)} (h : (entries.map Prod.fst).Nodup) :
    (Table.empty.insertAll entries).names = entries.map Prod.fst :=
  Table.names_insertAll (t := Table.empty) h

/-- The same closures with other names. -/
structure Renamed (s t : Store) : Prop where
  cells : t.cells = s.cells
  frames : t.frames = s.frames
  size : t.closures.size = s.closures.size
  closure : ∀ k, (t.closure k).params = (s.closure k).params ∧
    (t.closure k).body = (s.closure k).body ∧ (t.closure k).frame = (s.closure k).frame

theorem renamed_nameFresh (held : List Ref) (v : Value) (name : String) (s : Store) :
    Renamed s (nameFresh held v name s) := by
  have hsame : Renamed s s := ⟨rfl, rfl, rfl, fun _ => ⟨rfl, rfl, rfl⟩⟩
  unfold nameFresh
  split
  · split
    · refine ⟨rfl, rfl, size_closures_nameClosure _ _ _, fun l => ?_⟩
      rw [closure_nameClosure]
      split
      · exact ⟨rfl, rfl, rfl⟩
      · exact ⟨rfl, rfl, rfl⟩
    · exact hsame
  · exact hsame

theorem Renamed.frame {t : Store} (h : Renamed s t) (f : FrameId) : t.frame f = s.frame f := by
  rw [Store.frame, h.frames]
  rfl

namespace Sound

theorem newCell (h : s.Sound) {car cdr : Node} (hcar : car.Known s) (hcdr : cdr.Known s) :
    (s.newCell car cdr).2.Sound where
  cell c half := by
    rcases half_newCell s car cdr c half with heq | heq | heq <;> rw [heq]
    · exact hcar
    · exact hcdr
    · exact h.cell c half
  binding hv := h.binding hv
  closure hk := h.closure hk
  outer ho := h.outer ho
  names f := h.names f

theorem setHalf (h : s.Sound) (c : CellId) (half : Half) {n : Node} (hn : n.Known s) :
    (s.setHalf c half n).Sound where
  cell d half' := by
    rcases half_setHalf s c d half half' n with heq | heq <;> rw [heq]
    · exact hn
    · exact h.cell d half'
  binding hv := h.binding hv
  closure hk := h.closure hk
  outer ho := h.outer ho
  names f := h.names f

theorem newClosure (h : s.Sound) {k : Closure} (hframe : s.HasFrame k.frame)
    (hparams : k.params.Nodup) (hbody : k.body.Known s) : (s.newClosure k).2.Sound where
  cell c half := known_mono (by simp) (h.cell c half)
  binding hv := known_mono (by simp) (h.binding hv)
  closure {l} hl := by
    have hle : s.closures.size ≤ (s.newClosure k).2.closures.size := by simp
    rw [closure_newClosure]
    split
    · exact ⟨hframe, hparams, known_mono hle hbody⟩
    · rename_i hne
      have hold : l.index < s.closures.size := by
        rw [size_closures_newClosure] at hl
        rcases Nat.lt_succ_iff_lt_or_eq.1 hl with hlt | heq
        · exact hlt
        · exact absurd (congrArg ClosureId.mk heq) hne
      obtain ⟨hframe', hparams', hbody'⟩ := h.closure hold
      exact ⟨hframe', hparams', known_mono hle hbody'⟩
  outer ho := h.outer ho
  names f := h.names f

theorem newFrame (h : s.Sound) {outer : Option FrameId}
    (houter : ∀ g, outer = some g → s.HasFrame g) {entries : List (String × Node)}
    (hnames : (entries.map Prod.fst).Nodup) (he : ∀ e ∈ entries, e.2.Known s) :
    (s.newFrame outer (Table.empty.insertAll entries)).2.Sound where
  cell := h.cell
  binding hv := (of_get?_newFrame hv).elim (he _) h.binding
  closure hk := by
    obtain ⟨hframe, hrest⟩ := h.closure hk
    refine ⟨?_, hrest⟩
    rw [HasFrame, size_frames_newFrame]
    exact Nat.lt_succ_of_lt hframe
  outer {f g} ho := by
    rw [frame_newFrame] at ho
    split at ho
    · rename_i hf
      rw [hf]
      exact houter g ho
    · exact h.outer ho
  names f := by
    rw [namesOf, frame_newFrame]
    split
    · rw [names_enclosed hnames]
      exact hnames
    · exact h.names f

theorem enclose (h : s.Sound) (held : List Ref) {f : FrameId} (hf : s.HasFrame f)
    {entries : List (String × Node)} (hnames : (entries.map Prod.fst).Nodup)
    (he : ∀ e ∈ entries, e.2.Known s) : (s.enclose held f entries).2.Sound := by
  obtain ⟨hcell, hbinding, hclosure, houter, hnames⟩ :=
    h.newFrame (fun g (hg : some f = some g) => Option.some.inj hg ▸ hf) hnames he
  exact ⟨hcell, hbinding, hclosure, houter, hnames⟩

theorem bind (h : s.Sound) (f : FrameId) (name : String) {n : Node} (hn : n.Known s) :
    (s.bind f name n).Sound where
  cell := h.cell
  binding hv := (of_get?_bind hv).elim (fun heq => heq ▸ hn) h.binding
  closure hk := by
    obtain ⟨hframe, hrest⟩ := h.closure hk
    refine ⟨?_, hrest⟩
    rw [HasFrame, size_frames_bind]
    exact hframe
  outer {g o} ho := by
    rw [frame_bind] at ho
    split at ho
    · exact h.outer ho
    · exact h.outer ho
  names g := by
    rw [namesOf, frame_bind]
    split
    · exact Table.nodup_insert (h.names g) name n
    · exact h.names g

theorem renamed (h : s.Sound) {t : Store} (ht : Renamed s t) : t.Sound := by
  have hknown {n : Node} (hn : n.Known s) : n.Known t := known_mono (Nat.le_of_eq ht.size.symm) hn
  refine ⟨fun c half => ?_, fun {f name v} hv => ?_, fun {k} hk => ?_, fun {f g} ho => ?_,
    fun f => ?_⟩
  · rw [Store.cell, ht.cells]
    exact hknown (h.cell c half)
  · rw [ht.frame] at hv
    exact hknown (h.binding hv)
  · rw [ht.size] at hk
    obtain ⟨hframe, hparams, hbody⟩ := h.closure hk
    obtain ⟨hp, hb, hf⟩ := ht.closure k
    rw [hp, hb, hf, HasFrame, ht.frames]
    exact ⟨hframe, hparams, hknown hbody⟩
  · rw [ht.frame] at ho
    exact h.outer ho
  · rw [namesOf, ht.frame]
    exact h.names f

theorem lookup (h : s.Sound) {f : FrameId} {name : String} {v : Node}
    (hv : s.lookup? f name = some v) : v.Known s := by
  obtain ⟨g, -, hg⟩ := List.exists_of_findSome?_eq_some hv
  exact h.binding hg

theorem elementsWithin (h : s.Sound) {fuel : Nat} {v : Value} {items : List Node}
    (hi : s.elementsWithin fuel v = some items) : ∀ x ∈ items, x.Known s := by
  induction fuel generalizing v items with
  | zero =>
    cases v with
    | nil =>
      cases hi
      exact nofun
    | _ => cases hi
  | succ fuel ih =>
    cases v with
    | nil =>
      cases hi
      exact nofun
    | pair c =>
      obtain ⟨rest, hrest, rfl⟩ := Option.map_eq_some_iff.1 hi
      exact List.forall_mem_cons.2 ⟨h.cell c .car, ih hrest⟩
    | _ => cases hi

theorem newTail (h : s.Sound) (stop : Nat) {items : List Node} (hi : ∀ x ∈ items, x.Known s) :
    (s.newTail stop items).2.Sound := by
  induction items with
  | nil => exact h
  | cons item items ih =>
    obtain ⟨hitem, hitems⟩ := List.forall_mem_cons.1 hi
    have hgrows := grows_newTail s stop items
    exact (ih hitems).newCell (known_mono (Nat.le_of_eq (by rw [hgrows.closures])) hitem)
      (known_newTail stop items _)

mutual

theorem load : ∀ {s : Store} (_ : s.Sound) (d : Datum), (s.load d).2.Sound
  | _, h, .atom _ _ => h
  | _, h, .list items _ => (h.loadAll items).1.newTail _ (h.loadAll items).2

theorem loadAll : ∀ {s : Store} (_ : s.Sound) (ds : List Datum),
    (s.loadAll ds).2.Sound ∧ ∀ x ∈ (s.loadAll ds).1, x.Known (s.loadAll ds).2
  | _, h, [] => ⟨h, nofun⟩
  | _, h, d :: ds =>
    ⟨((h.load d).loadAll ds).1, List.forall_mem_cons.2
      ⟨known_load d _, ((h.load d).loadAll ds).2⟩⟩

end

end Sound

/-! ## Chains -/

/-- The frames from a frame outwards to a global one, innermost first. -/
inductive Outward (s : Store) : FrameId → List FrameId → Prop
  | global {f : FrameId} (h : (s.frame f).outer = none) : Outward s f [f]
  | inner {f g : FrameId} {fs : List FrameId} (h : (s.frame f).outer = some g)
      (rest : Outward s g fs) : Outward s f (f :: fs)

theorem chain_of_outer {f g : FrameId} (h : (s.frame f).outer = some g) (hlt : g.index < f.index) :
    s.chain f = f :: s.chain g := by
  rw [chain]
  simp only [h, if_pos hlt]

theorem chain_of_global {f : FrameId} (h : (s.frame f).outer = none) : s.chain f = [f] := by
  rw [chain]
  simp only [h]

/-- Chains are a matter of the frames around frames. -/
theorem chain_congr {t : Store} (h : ∀ f, (t.frame f).outer = (s.frame f).outer) (f : FrameId) :
    t.chain f = s.chain f := by
  rw [chain, chain, h]
  split
  · split
    · rw [chain_congr h]
    · rfl
  · rfl
termination_by f.index

/-- The frame around a frame is older, so that the frames form a forest. -/
def IsForest (s : Store) : Prop := ∀ ⦃f g⦄, (s.frame f).outer = some g → g.index < f.index

theorem isForest_iff :
    s.IsForest ↔ ∀ i < s.frames.size, ∀ g ∈ (s.frame ⟨i⟩).outer, g.index < i := by
  refine ⟨fun h i _ g hg => h hg, fun h f g hg => ?_⟩
  by_cases hf : f.index < s.frames.size
  · exact h f.index hf g hg
  · rw [frame, Array.getElem?_eq_none (Nat.le_of_not_lt hf)] at hg
    cases hg

instance (s : Store) : Decidable s.IsForest := decidable_of_iff' _ isForest_iff

theorem Sound.forest (h : s.Sound) : s.IsForest := fun _ _ => h.outer

/-- Induction outwards along the chain of a frame. -/
theorem IsForest.outward_induction (h : s.IsForest) {motive : FrameId → Prop}
    (global : ∀ f, (s.frame f).outer = none → motive f)
    (inner : ∀ f g, (s.frame f).outer = some g → g.index < f.index → motive g → motive f)
    (f : FrameId) : motive f := by
  cases ho : (s.frame f).outer with
  | none => exact global f ho
  | some g =>
    have hlt := h ho
    exact inner f g ho hlt (h.outward_induction global inner g)
termination_by f.index

/-- **Chains are finite** and end in a global frame. -/
theorem IsForest.outward (h : s.IsForest) (f : FrameId) : s.Outward f (s.chain f) := by
  induction f using h.outward_induction with
  | global f ho =>
    rw [chain_of_global ho]
    exact .global ho
  | inner f g ho hlt ih =>
    rw [chain_of_outer ho hlt]
    exact .inner ho ih

theorem root_of_outer {f g : FrameId} (h : (s.frame f).outer = some g) (hlt : g.index < f.index) :
    s.root f = s.root g := by
  rw [root, root, chain_of_outer h hlt, List.getLast?_cons]
  rw [List.getLast?_eq_some_getLast (chain_ne_nil s g)]
  rfl

theorem root_of_global {f : FrameId} (h : (s.frame f).outer = none) : s.root f = f := by
  rw [root, chain_of_global h]
  rfl

/-- The last frame of a chain is a global one. -/
theorem IsForest.outer_root (h : s.IsForest) (f : FrameId) :
    (s.frame (s.root f)).outer = none := by
  induction f using h.outward_induction with
  | global f ho =>
    rw [root_of_global ho]
    exact ho
  | inner f g ho hlt ih =>
    rw [root_of_outer ho hlt]
    exact ih

theorem hasFrame_of_mem_chain {f : FrameId} (hf : s.HasFrame f) :
    ∀ g ∈ s.chain f, s.HasFrame g := by
  rw [chain]
  split
  · split
    · rename_i hlt
      exact List.forall_mem_cons.2 ⟨hf, hasFrame_of_mem_chain (Nat.lt_trans hlt hf)⟩
    · exact List.forall_mem_singleton.2 hf
  · exact List.forall_mem_singleton.2 hf
termination_by f.index

theorem isSome_lookup? {f : FrameId} {name : String} :
    (s.lookup? f name).isSome = true ↔ ∃ g ∈ s.chain f, name ∈ s.namesOf g := by
  unfold lookup?
  rw [List.findSome?_isSome_iff]
  exact exists_congr fun g => and_congr_right fun _ => Table.contains_iff

theorem mem_namesOf_owner {f g : FrameId} {name : String} (h : s.owner? f name = some g) :
    name ∈ s.namesOf g := by
  have hfound := List.find?_some h
  exact Table.contains_iff.1 hfound

/-! ## Later stores -/

/-- Frames keep their outer links, those that are not global keep exactly their names, and global
ones lose none. -/
structure Keeps (s t : Store) : Prop where
  size : s.frames.size ≤ t.frames.size
  outer : ∀ {f}, s.HasFrame f → (t.frame f).outer = (s.frame f).outer
  inner : ∀ {f g}, s.HasFrame f → (s.frame f).outer = some g → t.namesOf f = s.namesOf f
  names : ∀ {f}, s.HasFrame f → s.namesOf f <+: t.namesOf f

/-- A store at a later moment. Closures are as they were except for their names, and global frames
have not got the names that `F` tells. -/
structure Later (F : FrameId → String → Bool) (s t : Store) : Prop extends Keeps s t where
  closures : s.closures.size ≤ t.closures.size
  closure : ∀ {k : ClosureId}, k.index < s.closures.size →
    (t.closure k).params = (s.closure k).params ∧ (t.closure k).frame = (s.closure k).frame
  spared : ∀ {g name}, s.HasFrame g → F g name = true → name ∉ s.namesOf g → name ∉ t.namesOf g

variable {F : FrameId → String → Bool} {t u : Store}

theorem Keeps.hasFrame (h : s.Keeps t) {f : FrameId} (hf : s.HasFrame f) : t.HasFrame f :=
  Nat.lt_of_lt_of_le hf h.size

theorem Keeps.trans (h : s.Keeps t) (h' : t.Keeps u) : s.Keeps u where
  size := Nat.le_trans h.size h'.size
  outer hf := (h'.outer (h.hasFrame hf)).trans (h.outer hf)
  inner hf ho := (h'.inner (h.hasFrame hf) ((h.outer hf).trans ho)).trans (h.inner hf ho)
  names hf := (h.names hf).trans (h'.names (h.hasFrame hf))

theorem Later.trans (h : Later F s t) (h' : Later F t u) : Later F s u where
  toKeeps := h.toKeeps.trans h'.toKeeps
  closures := Nat.le_trans h.closures h'.closures
  closure hk := by
    obtain ⟨hp, hf⟩ := h.closure hk
    obtain ⟨hp', hf'⟩ := h'.closure (Nat.lt_of_lt_of_le hk h.closures)
    exact ⟨hp'.trans hp, hf'.trans hf⟩
  spared hg hF hn := h'.spared (h.hasFrame hg) hF (h.spared hg hF hn)

/-- If the frames and closures are the same then so is all that matters here. -/
theorem later_of_eq (hf : t.frames = s.frames) (hc : t.closures = s.closures) : Later F s t := by
  have hframe (f : FrameId) : t.frame f = s.frame f := by rw [frame, frame, hf]
  have hnames (f : FrameId) : t.namesOf f = s.namesOf f := by rw [namesOf, namesOf, hframe]
  refine ⟨⟨by simp [hf], fun _ => by rw [hframe], fun _ _ => hnames _, fun _ => by simp [hnames]⟩,
    by simp [hc], fun _ => ?_, fun _ _ hn => by rwa [hnames]⟩
  rw [closure, closure, hc]
  exact ⟨rfl, rfl⟩

theorem Renamed.later (h : Renamed s t) : Later F s t := by
  have hnames (f : FrameId) : t.namesOf f = s.namesOf f := by rw [namesOf, namesOf, h.frame]
  refine ⟨⟨by simp [h.frames], fun _ => by rw [h.frame], fun _ _ => hnames _,
    fun _ => by simp [hnames]⟩, Nat.le_of_eq h.size.symm, fun {k} _ => ?_,
    fun _ _ hn => by rwa [hnames]⟩
  exact ⟨(h.closure k).1, (h.closure k).2.2⟩

theorem later_newClosure (k : Closure) : Later F s (s.newClosure k).2 := by
  refine ⟨⟨Nat.le_refl _, fun _ => rfl, fun _ _ => rfl, fun _ => List.prefix_refl _⟩,
    by simp, fun {l} hl => ?_, fun _ _ hn => hn⟩
  rw [closure_newClosure, if_neg]
  · exact ⟨rfl, rfl⟩
  · rintro rfl
    exact absurd hl (Nat.lt_irrefl _)

theorem frame_newFrame_of_lt {f : FrameId} (hf : s.HasFrame f) (o : Option FrameId)
    (b : Bindings) : (s.newFrame o b).2.frame f = s.frame f := by
  rw [frame_newFrame, if_neg]
  rintro rfl
  exact absurd hf (Nat.lt_irrefl _)

theorem later_newFrame (o : Option FrameId) (b : Bindings) : Later F s (s.newFrame o b).2 := by
  have hnames {f : FrameId} (hf : s.HasFrame f) :
      (s.newFrame o b).2.namesOf f = s.namesOf f := by
    rw [namesOf, frame_newFrame_of_lt hf]
    rfl
  refine ⟨⟨by simp, fun hf => by rw [frame_newFrame_of_lt hf],
    fun hf _ => hnames hf, fun hf => by simp [hnames hf]⟩, Nat.le_refl _, fun _ => ⟨rfl, rfl⟩,
    fun hg _ hn => by rwa [hnames hg]⟩

theorem later_enclose (held : List Ref) (f : FrameId) (entries : List (String × Node)) :
    Later F s (s.enclose held f entries).2 :=
  (later_newFrame (some f) (Table.empty.insertAll entries)).trans (later_of_eq rfl rfl)

theorem namesOf_bind (f g : FrameId) (name : String) (n : Node) :
    (s.bind f name n).namesOf g =
      if (f = g ∧ f.index < s.frames.size) ∧ name ∉ s.namesOf g then s.namesOf g ++ [name]
      else s.namesOf g := by
  unfold namesOf
  rw [frame_bind]
  by_cases hfg : f = g ∧ f.index < s.frames.size
  · rw [if_pos hfg, Table.names_insert]
    by_cases hmem : name ∈ (s.frame g).bindings.names
    · rw [if_pos hmem, if_neg fun h => h.2 hmem]
    · rw [if_neg hmem, if_pos ⟨hfg, hmem⟩]
  · rw [if_neg hfg, if_neg fun h => hfg h.1]

/-- **A binding adds at most one name**, and to a global frame only. -/
theorem later_bind {f : FrameId} {name : String} (n : Node)
    (h : name ∈ s.namesOf f ∨ (s.frame f).outer = none ∧ F f name = false) :
    Later F s (s.bind f name n) := by
  refine ⟨⟨by simp, fun {g} _ => ?_, fun {g o} hg ho => ?_, fun {g} hg => ?_⟩, Nat.le_refl _,
    fun _ => ⟨rfl, rfl⟩, fun {g name'} hg hF hn => ?_⟩
  · rw [frame_bind]
    split
    · rfl
    · rfl
  · rw [namesOf_bind, if_neg]
    rintro ⟨⟨rfl, -⟩, hnew⟩
    rcases h with hmem | ⟨hnone, -⟩
    · exact hnew hmem
    · rw [hnone] at ho
      cases ho
  · rw [namesOf_bind]
    split
    · exact List.prefix_append _ _
    · exact List.prefix_refl _
  · rw [namesOf_bind]
    split
    · rename_i hnew
      obtain ⟨⟨rfl, -⟩, hnew⟩ := hnew
      rw [List.mem_append, List.mem_singleton]
      rintro (hold | rfl)
      · exact hn hold
      · rcases h with hmem | ⟨-, hfree⟩
        · exact hnew hmem
        · rw [hfree] at hF
          cases hF
    · exact hn

/-! ## What a later store has of an earlier one -/

theorem Keeps.chain (h : s.Keeps t) (hs : s.Sound) {f : FrameId} (hf : s.HasFrame f) :
    t.chain f = s.chain f := by
  induction f using hs.forest.outward_induction with
  | global f ho => rw [chain_of_global ho, chain_of_global ((h.outer hf).trans ho)]
  | inner f g ho hlt ih =>
    rw [chain_of_outer ho hlt, chain_of_outer ((h.outer hf).trans ho) hlt,
      ih (Nat.lt_trans hlt hf)]

theorem Keeps.root (h : s.Keeps t) (hs : s.Sound) {f : FrameId} (hf : s.HasFrame f) :
    t.root f = s.root f := by
  rw [Store.root, h.chain hs hf]
  rfl

/-- **A name that is found from a frame is found ever after.** -/
theorem Keeps.lookup? (h : s.Keeps t) (hs : s.Sound) {f : FrameId} (hf : s.HasFrame f)
    {name : String} (hn : (s.lookup? f name).isSome = true) :
    (t.lookup? f name).isSome = true := by
  obtain ⟨g, hg, hmem⟩ := isSome_lookup?.1 hn
  refine isSome_lookup?.2 ⟨g, by rwa [h.chain hs hf], ?_⟩
  exact (h.names (hasFrame_of_mem_chain hf g hg)).subset hmem

end Store

end MiniScheme
