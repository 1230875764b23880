import MiniScheme.Proofs.Code.Immutable
import MiniScheme.Proofs.Invariant
import MiniScheme.Proofs.Ranges.Reading

/-!
# Ranges of values and errors

Values carry the range of the text they come from, across commands and closures, and errors point
at such ranges. Both ends of every range stay inside the texts that were run. A range runs
forwards as long as the value is no pair: a result gets the range of the call or of the form that
made it, and that is code.

Pairs are different. The cells of a list that `list` makes reach from an item to the end of the
call, and the item may come from a place behind the call. Taking such a list apart gives a value
with a backwards range (`backwards_range_of_rest`). There is no other way to one: without `list`
every range runs forwards.

## Results

* `rangeConduct.kept`: evaluation keeps ranges inside the texts.
* `spans_stay_in_sources`: the values and errors of a session.
-/

namespace MiniScheme

/-- Both ends of the range of a value lie inside the texts, and it runs forwards unless the value
is a pair that `list` may have made. -/
structure Node.Sited (b : Bounds) (n : Node) : Prop where
  start_le : n.span.start ≤ b.size
  stop_le : n.span.stop ≤ b.size
  forwards : (∀ c, n.value ≠ .pair c) ∨ b.listless → n.span.start ≤ n.span.stop

/-- The error is about a pair where something else was wanted. -/
def EvalError.isAboutPair : EvalError → Prop
  | mismatch _ _ (.pair _) _ _ => True
  | _ => False

/-- The same for the place that an error points at. -/
structure EvalError.Sited (b : Bounds) (e : EvalError) : Prop where
  start_le : e.span.start ≤ b.size
  stop_le : e.span.stop ≤ b.size
  forwards : ¬e.isAboutPair ∨ b.listless → e.span.start ≤ e.span.stop

/-- The value is not the procedure `list`, unless some text mentions it. -/
def Value.Tame (b : Bounds) (v : Value) : Prop := b.listless → v ≠ .procedure (.primitive .list)

/-- The ranges in the store lie inside the texts, and `list` can be reached by its name only. -/
structure Store.Sited (b : Bounds) (s : Store) : Prop where
  cell : ∀ c half, ((s.cell c).half half).Sited b ∧ ((s.cell c).half half).value.Tame b
  binding : ∀ {f name v}, (s.frame f).bindings.get? name = some v →
    v.Sited b ∧ (name ≠ Primitive.list.name → v.value.Tame b)
  body : ∀ k, (s.closure k).body.Written b

variable {b : Bounds}

theorem Node.Sited.of_within {v : Value} {span : Span} (h : span.Within b.size) :
    Node.Sited b ⟨v, span⟩ :=
  ⟨h.1.trans h.2, h.2, fun _ => h.1⟩

theorem Node.Written.sited {n : Node} (h : n.Written b) : n.Sited b :=
  .of_within h.within

namespace Store.Sited

variable {s : Store}

theorem lookup (h : s.Sited b) {f : FrameId} {name : String} {v : Node}
    (hv : s.lookup? f name = some v) :
    v.Sited b ∧ (name ≠ Primitive.list.name → v.value.Tame b) := by
  obtain ⟨g, -, hg⟩ := List.exists_of_findSome?_eq_some hv
  exact h.binding hg

/-! ## Operations -/

theorem newCell (h : s.Sited b) {car cdr : Node} (hcar : car.Sited b ∧ car.value.Tame b)
    (hcdr : cdr.Sited b ∧ cdr.value.Tame b) : (s.newCell car cdr).2.Sited b where
  cell c half := by
    rcases Store.half_newCell s car cdr c half with heq | heq | heq <;> rw [heq]
    · exact hcar
    · exact hcdr
    · exact h.cell c half
  binding hv := h.binding hv
  body k := h.body k

/-- The cells that `list` makes may run backwards. -/
theorem newTail (h : s.Sited b) (hlist : ¬b.listless) {stop : Nat} (hstop : stop ≤ b.size)
    {items : List Node} (hitems : ∀ x ∈ items, x.Sited b) :
    (s.newTail stop items).2.Sited b ∧ (s.newTail stop items).1.Sited b := by
  induction items with
  | nil => exact ⟨h, .of_within ⟨Nat.le_refl _, hstop⟩⟩
  | cons item items ih =>
    obtain ⟨hitem, hitems⟩ := List.forall_mem_cons.1 hitems
    obtain ⟨htail, hnode⟩ := ih hitems
    have htame (v : Value) : v.Tame b := fun hl => absurd hl hlist
    refine ⟨htail.newCell ⟨hitem, htame _⟩ ⟨hnode, htame _⟩, hitem.start_le, hstop, ?_⟩
    rintro (hpair | hl)
    · exact absurd rfl (hpair _)
    · exact absurd hl hlist

theorem newFrame (h : s.Sited b) (outer : Option FrameId) {entries : List (String × Node)}
    (he : ∀ e ∈ entries, e.2.Sited b ∧ (e.1 ≠ Primitive.list.name → e.2.value.Tame b)) :
    (s.newFrame outer (Table.empty.insertAll entries)).2.Sited b where
  cell := h.cell
  binding hv := (Store.of_get?_newFrame hv).elim (he _) h.binding
  body := h.body

theorem enclose (h : s.Sited b) (held : List Ref) (f : FrameId) {entries : List (String × Node)}
    (he : ∀ e ∈ entries, e.2.Sited b ∧ e.2.value.Tame b) :
    (s.enclose held f entries).2.Sited b := by
  obtain ⟨hcell, hbinding, hbody⟩ :=
    h.newFrame (some f) fun e hmem => ⟨(he e hmem).1, fun _ => (he e hmem).2⟩
  exact ⟨hcell, hbinding, hbody⟩

theorem newClosure (h : s.Sited b) {k : Closure} (hk : k.body.Written b) :
    (s.newClosure k).2.Sited b where
  cell := h.cell
  binding hv := h.binding hv
  body l := by
    rw [Store.closure_newClosure]
    split
    · exact hk
    · exact h.body l

theorem setHalf (h : s.Sited b) (c : CellId) (half : Half) {n : Node}
    (hn : n.Sited b ∧ n.value.Tame b) : (s.setHalf c half n).Sited b where
  cell d half' := by
    rcases Store.half_setHalf s c d half half' n with heq | heq <;> rw [heq]
    · exact hn
    · exact h.cell d half'
  binding hv := h.binding hv
  body k := h.body k

theorem bind (h : s.Sited b) (f : FrameId) (name : String) {n : Node}
    (hn : n.Sited b ∧ n.value.Tame b) : (s.bind f name n).Sited b where
  cell := h.cell
  binding hv := (Store.of_get?_bind hv).elim (fun heq => heq ▸ ⟨hn.1, fun _ => hn.2⟩) h.binding
  body := h.body

theorem nameFresh (h : s.Sited b) (held : List Ref) (v : Value) (name : String) :
    (MiniScheme.nameFresh held v name s).Sited b := by
  unfold MiniScheme.nameFresh
  split
  · split
    · exact {
        cell := h.cell
        binding := h.binding
        body := fun l => by
          rw [Store.closure_nameClosure]
          split
          · exact h.body l
          · exact h.body l }
    · exact h
  · exact h

/-- Reading a text that the bounds cover. -/
theorem load (h : s.Sited b) {d : Datum} (hd : d.Laid b) : (s.load d).2.Sited b := by
  have hgrows := Store.grows_load s d
  have hwrites := (Datum.Laid.written s d hd).1
  refine ⟨fun c half => ?_, fun {f name v} hv => ?_, fun k => ?_⟩
  · by_cases hc : c.index < s.cells.size
    · rw [hgrows.cell c hc]
      exact h.cell c half
    · obtain ⟨hcar, hcdr⟩ := hwrites c (Nat.le_of_not_lt hc)
      cases half with
      | car => exact ⟨hcar.sited, hcar.value⟩
      | cdr => exact ⟨hcdr.sited, hcdr.value⟩
  · rw [Store.frame, hgrows.frames] at hv
    exact h.binding hv
  · rw [Store.closure, hgrows.closures]
    exact h.body k

end Store.Sited

/-! ## The conduct -/

/-- Ranges stay inside the texts. Code is told apart from data because it has ranges that run
forwards. -/
def rangeConduct (b : Bounds) : Conduct Layout where
  machine L m := Separated (fun _ k => k.car.Written b) L m.store ∧ m.store.Sited b
  span _ s := s.Within b.size
  frame _ _ := True
  value L n := L.Data n.value ∧ n.Sited b ∧ n.value.Tame b
  code L r n := L.Reads r n ∧ n.Written b
  definition _ _ _ := True
  name _ _ := True
  error _ e := e.Sited b

namespace rangeConduct

variable {L : Layout} {m : Machine}

theorem ends_ok {α : Type} {Q : Layout → α → Prop} {L' : Layout} {x : α} (hle : L ≤ L')
    (h : (rangeConduct b).machine L' m) (hq : Q L' x) :
    (rangeConduct b).Ends L Q (.ok x m) :=
  ⟨L', hle, h, hq⟩

theorem ends_error {α : Type} {Q : Layout → α → Prop} {e : EvalError}
    (h : (rangeConduct b).machine L m) (he : e.Sited b) :
    (rangeConduct b).Ends L Q (.error e m) :=
  ⟨L, le_rfl, h, he⟩

theorem sited_of_within {e : EvalError} (h : e.span.Within b.size) : e.Sited b :=
  ⟨h.1.trans h.2, h.2, fun _ => h.1⟩

/-- The items of a list of code are as they were read. -/
theorem written_of_chain {s : Store} (h : Separated (fun _ k => k.car.Written b) L s) {v : Value}
    {items : List Node} (hc : L.Chain v items) : ∀ x ∈ items, x.Written b := by
  induction hc with
  | nil => exact nofun
  | pair hc _ ih => exact List.forall_mem_cons.2 ⟨(h.code hc).1, ih⟩

theorem item {r : Role} {n x : Node} {items : List Node} {i : Nat}
    (hm : (rangeConduct b).machine L m) (hn : (rangeConduct b).code L r n) (hr : r ≠ .datum)
    (hi : m.store.elements? n.value = some items) (hx : items[i]? = some x) :
    (rangeConduct b).code L (r.item (headForm items) i) x := by
  obtain ⟨hchain, hreads⟩ := hm.1.elements? hn.1 hr hi
  exact ⟨hreads i x hx, written_of_chain hm.1 hchain x (List.mem_of_getElem? hx)⟩

theorem sited_mismatch {a : Node} (p : Primitive) (x : Expected) (i : Nat) (ha : a.Sited b) :
    (EvalError.mismatch p x a.value i a.span).Sited b := by
  refine ⟨ha.start_le, ha.stop_le, fun h => ha.forwards (h.imp_left fun he c hc => he ?_)⟩
  rw [hc]
  trivial

/-- Results get the range of the call; what is read from a pair has the range it has there. -/
theorem change {v : Node} {p : Primitive} {span : Span} {c : Store → Node × Store}
    (hm : (rangeConduct b).machine L m) (hv : (rangeConduct b).value L v)
    (hp : v.value = .procedure (.primitive p)) (hs : span.Within b.size)
    (hc : p.Change ((rangeConduct b).value L) span c) :
    ∃ L', L ≤ L' ∧ (rangeConduct b).machine L' { m with store := (c m.store).2 } ∧
      (rangeConduct b).value L' (c m.store).1 := by
  obtain ⟨hsep, hsited⟩ := hm
  cases hc with
  | integer n =>
    exact ⟨L, le_rfl, ⟨hsep, hsited⟩, Layout.data_of_leaf nofun, .of_within hs, fun _ => nofun⟩
  | boolean c =>
    exact ⟨L, le_rfl, ⟨hsep, hsited⟩, Layout.data_of_leaf nofun, .of_within hs, fun _ => nofun⟩
  | list hargs hlist =>
    have hmentioned : ¬b.listless := fun hl => hv.2.2 hl (hlist ▸ hp)
    obtain ⟨L', hle, hsep', hdata⟩ := hsep.newTail span.stop fun x hx => (hargs x hx).1
    obtain ⟨hsited', hnode⟩ := hsited.newTail hmentioned hs.2 fun x hx => (hargs x hx).2.1
    exact ⟨L', hle, ⟨hsep', hsited'⟩, hdata, .of_within hs, fun hl => absurd hl hmentioned⟩
  | cons ha hb =>
    obtain ⟨L', hle, hsep', hdata⟩ := hsep.newCell ha.1 hb.1
    refine ⟨L', hle, ⟨hsep', hsited.newCell ha.2 hb.2⟩, ?_, .of_within hs, fun _ => nofun⟩
    rintro _ ⟨⟩
    exact hdata
  | half half ha hc =>
    obtain ⟨-, hcar, hcdr⟩ := hsep.data (ha.1 _ hc)
    refine ⟨L, le_rfl, ⟨hsep, hsited⟩, ?_, hsited.cell _ half⟩
    cases half with
    | car => exact hcar
    | cdr => exact hcdr
  | setHalf half ha hb hc =>
    exact ⟨L, le_rfl, ⟨hsep.setHalf half (ha.1 _ hc) hb.1, hsited.setHalf _ half hb.2⟩,
      Layout.data_of_leaf nofun, .of_within hs, fun _ => nofun⟩

theorem enterClosure {held : List Ref} {k : ClosureId} {args : List Node} {span : Span}
    (hm : (rangeConduct b).machine L m) (ha : ∀ a ∈ args, (rangeConduct b).value L a)
    (hs : span.Within b.size) :
    (rangeConduct b).Ends L
      (fun u x => (rangeConduct b).frame u x.1 ∧ (rangeConduct b).code u .expression x.2)
      (enterClosure held k args span m) := by
  obtain ⟨hsep, hsited⟩ := hm
  obtain ⟨log, hrun⟩ := enterClosure_run held k args span m
  rw [hrun]
  split
  · have hvalue {e : String × Node} (he : e ∈ (m.store.closure k).params.zip args) :=
      ha e.2 (List.of_mem_zip he).2
    exact ends_ok le_rfl ⟨hsep.enclose _ _ fun e he => (hvalue he).1,
      hsited.enclose _ _ fun e he => (hvalue he).2⟩ ⟨trivial, hsep.body k, hsited.body k⟩
  · exact ends_error ⟨hsep, hsited⟩ (sited_of_within hs)

/-- **Evaluation keeps ranges inside the texts.** -/
theorem kept (b : Bounds) : (rangeConduct b).Kept where
  span_mono _ h := h
  frame_mono _ h := h
  value_mono hle h := ⟨h.1.mono hle, h.2⟩
  code_mono hle h := ⟨h.1.mono hle, h.2⟩
  definition_mono _ _ h := h
  note {L m} event h := by
    change Separated _ L (m.note event).store ∧ Store.Sited b (m.note event).store
    rw [Machine.store_note]
    exact h
  code_span h := h.2.within
  code_name _ _ := trivial
  item := item
  constant h _ hp := ⟨Layout.data_of_leaf hp, h.2.sited, h.2.value⟩
  quoted h := ⟨h.1.data, h.2.sited, h.2.value⟩
  boolean b hs := ⟨Layout.data_of_leaf nofun, .of_within hs, fun _ => nofun⟩
  symbol h _ := ⟨Layout.data_of_leaf nofun, .of_within h.2.within, fun _ => nofun⟩
  unspecified hs := ⟨Layout.data_of_leaf nofun, .of_within hs, fun _ => nofun⟩
  found := by
    rintro L m f n name v ⟨hsep, hsited⟩ - hn hname hv
    obtain ⟨hv', htame⟩ := hsited.lookup hv
    refine ⟨hsep.lookup hv, hv', fun hl => htame ?_ hl⟩
    rintro rfl
    exact hn.2.name hl hname
  value_name _ _ := trivial
  primitive_name _ := trivial
  located h _ := sited_of_within h
  mismatch p x i h := sited_mismatch p x i h.2.1
  divisionByZero := by
    rintro L a n ⟨-, ha, -⟩ hn
    refine ⟨ha.start_le, ha.stop_le, fun _ => ha.forwards (.inl fun c hc => ?_)⟩
    rw [hn] at hc
    cases hc
  change := change
  enterClosure hm _ _ ha hs := enterClosure hm ha hs
  bindGlobal := by
    rintro L f n e name held v m ⟨hsep, hsited⟩ - - - - hv
    obtain ⟨log, hrun⟩ := bindGlobal_run held f name v m
    rw [hrun]
    exact ends_ok le_rfl ⟨(hsep.nameFresh held v.value name).bind _ name hv.1,
      (hsited.nameFresh held v.value name).bind _ name hv.2⟩ trivial
  assignName := by
    rintro L f n name v m ⟨hsep, hsited⟩ - hn - hv
    rw [assignName_run]
    cases m.store.owner? f name with
    | some g => exact ends_ok le_rfl ⟨hsep.bind g name hv.1, hsited.bind g name hv.2⟩ trivial
    | none => exact ends_error ⟨hsep, hsited⟩ (sited_of_within hn.2.within)
  newClosure := by
    rintro L f names body s m ⟨hsep, hsited⟩ - - hbody hs
    refine ends_ok le_rfl ⟨hsep.newClosure hbody.1, hsited.newClosure hbody.2⟩ ?_
    exact ⟨Layout.data_of_leaf nofun, .of_within hs, fun _ => nofun⟩
  enclose := by
    rintro L held f entries m ⟨hsep, hsited⟩ - he - -
    exact ends_ok le_rfl ⟨hsep.enclose _ _ fun e h => (he e h).1,
      hsited.enclose _ _ fun e h => (he e h).2⟩ trivial

end rangeConduct

/-! ## Sessions -/

/-- Where the value or the error of a command is. -/
def resultSpan? : Except Error Node → Option Span
  | .ok v => some v.span
  | .error e => e.span?

/-- The value is a pair, or the error is about one. -/
def ResultAboutPair : Except Error Node → Prop
  | .ok v => ∃ c, v.value = .pair c
  | .error (.eval e) => e.isAboutPair
  | .error (.read _) => False

/-- Both ends of the place of a result lie inside the texts, and it runs forwards unless the
result is about a pair that `list` may have made. -/
def ResultSited (b : Bounds) (r : Except Error Node) : Prop :=
  ∀ span, resultSpan? r = some span → span.start ≤ b.size ∧ span.stop ≤ b.size ∧
    (¬ResultAboutPair r ∨ b.listless → span.start ≤ span.stop)

/-- The store of the world is separated into code and data, and its ranges lie inside the
texts. -/
def Ranged (b : Bounds) (w : World) : Prop :=
  ∃ L, Separated (fun _ k => k.car.Written b) L w.store ∧ w.store.Sited b

section

variable {w : World}

/-- **One evaluation** of a text that the bounds cover. -/
theorem Ranged.evaluate (h : Ranged b w) (session : Session) {source : String}
    (hb : b.Covers source) :
    Ranged b (w.evaluate session source).2 ∧ ResultSited b (w.evaluate session source).1 := by
  obtain ⟨L, hsep, hsited⟩ := h
  unfold Ranged
  cases hparse : parse session.limit source with
  | error e =>
    rw [World.evaluate_of_error hparse]
    simp only [World.store, Machine.store_note]
    refine ⟨⟨L, hsep, hsited⟩, fun span hspan => ?_⟩
    have hwithin := within_of_parse hb hparse hspan
    exact ⟨hwithin.1.trans hwithin.2, hwithin.2, fun _ => hwithin.1⟩
  | ok d =>
    have hlaid := laid_of_parse hb hparse
    obtain ⟨hwrites, hnode⟩ := Datum.Laid.written w.store d hlaid
    have hbuilt : ∀ c k, k.car.Written b ∨ (Loading.mk w.store d).Builds c k →
        k.car.Written b := by
      rintro c k (hk | ⟨i, -, rfl, rfl⟩)
      · exact hk
      · exact (hwrites _ (Nat.le_add_right _ _)).1
    obtain ⟨hsep', hreads⟩ := hsep.load d hbuilt
    have hends := (rangeConduct.kept b).eval_ends (m := w.machine.reading source d)
      (f := session.global) (fun _ _ _ _ _ => trivial) session.limit session.limit
      ((w.store.load d).1.refs ++ w.roots) ⟨hsep', hsited.load hlaid⟩ trivial ⟨hreads, hnode⟩
    rw [World.evaluate_of_ok hparse]
    revert hends
    generalize eval session.limit session.limit _ _ _ _ = r
    cases r with
    | ok v m' =>
      rintro ⟨L', -, hm, -, hv, -⟩
      refine ⟨⟨L', hm⟩, ?_⟩
      rintro _ ⟨⟩
      refine ⟨hv.start_le, hv.stop_le, fun h => hv.forwards (h.imp_left fun hp c hc => ?_)⟩
      exact hp ⟨c, hc⟩
    | error e m' =>
      rintro ⟨L', -, hm, he⟩
      refine ⟨⟨L', hm⟩, ?_⟩
      rintro _ ⟨⟩
      exact ⟨he.start_le, he.stop_le, he.forwards⟩

/-- **A sequence of sources**, each of them covered by the bounds. -/
theorem Ranged.run (h : Ranged b w) {sources : List String} (hb : ∀ text ∈ sources, b.Covers text) :
    Ranged b (w.run (sources.map fun text => (0, .eval text))).2 := by
  induction sources generalizing w with
  | nil => exact h
  | cons text sources ih =>
    obtain ⟨htext, hsources⟩ := List.forall_mem_cons.1 hb
    refine ih ?_ hsources
    cases hs : w.session? 0 with
    | none =>
      rw [World.perform_of_none hs]
      exact h
    | some session =>
      rw [World.perform_eval hs]
      exact (h.evaluate session htext).1

theorem Ranged.openSession (h : Ranged b w) (limit : Nat) : Ranged b (w.openSession limit) := by
  obtain ⟨L, hsep, hsited⟩ := h
  refine ⟨L, hsep.newFrame none fun e he => ?_, hsited.newFrame none fun e he => ?_⟩
  · obtain ⟨p, -, rfl⟩ := List.mem_map.1 he
    exact Layout.data_of_leaf nofun
  · obtain ⟨p, -, rfl⟩ := List.mem_map.1 he
    refine ⟨.of_within ⟨Nat.le_refl _, Nat.zero_le _⟩, fun hname _ hlist => ?_⟩
    cases hlist
    exact hname rfl

/-- Sessions on which nothing has run yet. -/
theorem ranged_ofLimits (b : Bounds) (recording : Bool) (limits : List Nat) :
    Ranged b (World.ofLimits recording limits) := by
  unfold World.ofLimits
  have hnode : Node.Written b default :=
    Store.written_leaf ⟨Nat.le_refl _, Nat.zero_le _⟩ rfl nofun
  have hstart : Ranged b (World.empty recording) := by
    refine ⟨⟨fun _ => none⟩, .empty, ⟨fun c half => ?_, nofun, fun k => hnode⟩⟩
    cases half with
    | car => exact ⟨hnode.sited, hnode.value⟩
    | cdr => exact ⟨hnode.sited, hnode.value⟩
  generalize World.empty recording = w at hstart ⊢
  induction limits generalizing w with
  | nil => exact hstart
  | cons limit limits ih => exact ih _ (hstart.openSession limit)

end

/-- One of several texts is the longest. -/
theorem exists_longest {sources : List String} (h : sources ≠ []) :
    ∃ text ∈ sources, ∀ other ∈ sources, other.utf8ByteSize ≤ text.utf8ByteSize := by
  induction sources with
  | nil => exact absurd rfl h
  | cons first sources ih =>
    by_cases hnil : sources = []
    · subst hnil
      exact ⟨first, List.mem_cons_self, by simp⟩
    · obtain ⟨text, htext, hmax⟩ := ih hnil
      rcases Nat.le_total text.utf8ByteSize first.utf8ByteSize with hle | hle
      · exact ⟨first, List.mem_cons_self, List.forall_mem_cons.2
          ⟨Nat.le_refl _, fun other ho => (hmax other ho).trans hle⟩⟩
      · exact ⟨text, List.mem_cons_of_mem _ htext, List.forall_mem_cons.2 ⟨hle, hmax⟩⟩

/-- One fresh session with the limit, after it has run the sources one by one. -/
def World.havingRun (recording : Bool) (limit : Nat) (sources : List String) : World :=
  ((World.ofLimits recording [limit]).run (sources.map fun text => (0, .eval text))).2

/-- **Ranges stay inside the sources.** Let a session run any sequence of sources. The value or the
error of the last one has a place of which both ends lie inside one of the sources run so far. It
runs forwards unless the value is a pair or the error is about one; and if no source mentions
`list` then it runs forwards in any case. -/
theorem spans_stay_in_sources (recording : Bool) (limit : Nat) (earlier : List String)
    (source : String) (session : Session) (span : Span)
    (hspan : resultSpan? ((World.havingRun recording limit earlier).evaluate session source).1 =
      some span) :
    (∃ text ∈ earlier ++ [source],
        span.start ≤ text.utf8ByteSize ∧ span.stop ≤ text.utf8ByteSize) ∧
      (¬ResultAboutPair ((World.havingRun recording limit earlier).evaluate session source).1 →
        span.start ≤ span.stop) ∧
      ((∀ text ∈ earlier ++ [source], ¬Mentions text Primitive.list.name) →
        span.start ≤ span.stop) := by
  obtain ⟨longest, hmem, hmax⟩ := exists_longest (List.concat_ne_nil source earlier)
  let b : Bounds := ⟨longest.utf8ByteSize,
    ∀ text ∈ earlier ++ [source], ¬Mentions text Primitive.list.name⟩
  have hcovers : ∀ text ∈ earlier ++ [source], b.Covers text :=
    fun text ht => ⟨hmax text ht, fun hl => hl text ht⟩
  have hranged : Ranged b (World.havingRun recording limit earlier) :=
    (ranged_ofLimits b recording [limit]).run fun text ht =>
      hcovers text (List.mem_append_left _ ht)
  obtain ⟨hstart, hstop, hforwards⟩ :=
    (hranged.evaluate session (hcovers source (by simp))).2 span hspan
  exact ⟨⟨longest, hmem, hstart, hstop⟩, fun h => hforwards (.inl h), fun h => hforwards (.inr h)⟩

/-- An error about a pair that an earlier source made: the place is in that source, behind the end
of the one that failed. -/
theorem spans_stay_in_sources_of_earlier_pair :
    let w := World.havingRun false 9 ["(define twice (lambda (x) (cons x x)))"]
    let session : Session := ⟨⟨0⟩, 9, true⟩
    session ∈ w.sessions ∧ resultSpan? (w.evaluate session "(+ (twice 1))").1 = some ⟨26, 36⟩ ∧
      ∃ text ∈ ["(define twice (lambda (x) (cons x x)))", "(+ (twice 1))"],
        26 ≤ text.utf8ByteSize ∧ 36 ≤ text.utf8ByteSize := by
  intro w session
  have hsession : session ∈ w.sessions := by decide +kernel
  have hspan : resultSpan? (w.evaluate session "(+ (twice 1))").1 = some ⟨26, 36⟩ := by
    decide +kernel
  exact ⟨hsession, hspan, (spans_stay_in_sources false 9
    ["(define twice (lambda (x) (cons x x)))"] "(+ (twice 1))" session _ hspan).1⟩

/-- The rest of a list whose second item was written behind the call: the value has the range that
starts at the item and ends at the end of the call. -/
theorem backwards_range_of_rest :
    let w := World.ofLimits false [9]
    let session : Session := ⟨⟨0⟩, 9, true⟩
    session ∈ w.sessions ∧
      resultSpan? (w.evaluate session "((lambda (x) (cdr (list 1 x))) 5)").1 = some ⟨31, 28⟩ ∧
      ¬31 ≤ 28 := by
  decide +kernel

end MiniScheme
