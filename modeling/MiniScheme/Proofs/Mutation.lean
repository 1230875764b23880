import MiniScheme.Proofs.Grammar
import MiniScheme.Proofs.Invariant
import MiniScheme.Proofs.Whole

/-!
# Programs that change nothing

There are four ways to change what exists: `define` and `set!`, and the two primitives that replace
half of a pair. An expression that mentions none of the four names leaves everything as it was, as
long as the closures that it may call mention none of them either, and the two primitives are
nowhere to be found under another name.

The primitives are values like any other, so what carries the argument is that no evaluation gets
hold of one: `Calm` is a store in which that is so, and every step leads from one such store to
another that has everything the first one has (`Store.Preserves`). The conduct `calmConduct` says
so for whole evaluations; for it the forms that change something are forms that do not occur.

## Results

* `Node.Harmless.keyword_not_mem`: the forms of harmless code.
* `calmConduct.kept`: every operation keeps what there was.
* `programs_without_mutation_keep_the_past`: whole evaluations of data that were read.
-/

namespace MiniScheme

/-- The names that stand for a change. -/
def mutators : List String := [Form.define.keyword, Form.assign.keyword, "set-car!", "set-cdr!"]

/-- The value is a primitive that replaces half of a pair. -/
def Value.Mutates (v : Value) : Prop := ∃ half, v = .procedure (.primitive (.setHalf half))

namespace Datum

mutual

/-- The symbols that the datum mentions, from left to right. -/
def symbols : Datum → List String
  | atom (.symbol name) _ => [name]
  | atom _ _ => []
  | list items _ => symbolsAll items

/-- The symbols that several data mention. -/
def symbolsAll : List Datum → List String
  | [] => []
  | d :: ds => d.symbols ++ symbolsAll ds

end

end Datum

namespace Store

variable {s t u : Store} {name : String} {v : Value}

/-- The symbol can be reached from the value through halves of pairs. -/
inductive Mentions (s : Store) (name : String) : Value → Prop
  | symbol : Mentions s name (.atom (.symbol name))
  | half {c : CellId} (half : Half) (h : Mentions s name ((s.cell c).half half).value) :
      Mentions s name (.pair c)

/-- What an item mentions, the list mentions. -/
theorem mentions_of_mem {fuel : Nat} {items : List Node} (hi : s.elementsWithin fuel v = some items)
    {x : Node} (hx : x ∈ items) (h : s.Mentions name x.value) : s.Mentions name v := by
  fun_induction elementsWithin s fuel v generalizing items with
  | case1 =>
    cases hi
    cases hx
  | case2 fuel c ih =>
    obtain ⟨rest, hrest, rfl⟩ := Option.map_eq_some_iff.1 hi
    rcases List.mem_cons.1 hx with rfl | hx
    · exact .half .car h
    · exact .half .cdr (ih hrest hx)
  | case3 => cases hi

/-- What a list mentions, one of its items does. -/
theorem IsList.exists_mentions {items : List Node} (h : s.IsList v items)
    (hm : s.Mentions name v) : ∃ x ∈ items, s.Mentions name x.value := by
  induction h with
  | nil => cases hm
  | pair hc _ ih =>
    cases hm with
    | half half hm =>
      cases half with
      | car => exact ⟨_, List.mem_cons_self, hm⟩
      | cdr =>
        obtain ⟨x, hx, hm⟩ := ih hm
        exact ⟨x, List.mem_cons_of_mem _ hx, hm⟩

mutual

/-- What a datum that was built of pairs mentions is in the datum. -/
theorem Holds.mem_symbols : ∀ {n : Node} {d : Datum}, s.Holds n d → s.Mentions name n.value →
    name ∈ d.symbols
  | _, _, .atom a span, hm => by
    cases hm
    exact List.mem_singleton.2 rfl
  | _, _, .list span chain elements, hm => by
    obtain ⟨x, hx, hm⟩ := chain.exists_mentions hm
    exact mem_symbolsAll elements hx hm

theorem mem_symbolsAll : ∀ {nodes : List Node} {items : List Datum},
    List.Forall₂ s.Holds nodes items → ∀ {x : Node}, x ∈ nodes → s.Mentions name x.value →
      name ∈ Datum.symbolsAll items
  | _, _, .nil, _, hx, _ => absurd hx List.not_mem_nil
  | _, _, .cons head tail, _, hx, hm => by
    rcases List.mem_cons.1 hx with rfl | hx
    · exact List.mem_append_left _ (head.mem_symbols hm)
    · exact List.mem_append_right _ (mem_symbolsAll tail hx hm)

end

/-! ## Everything that there was -/

/-- Everything that there was is as it was, and no closure has got a name. -/
structure Preserves (s t : Store) : Prop where
  has : ∀ {r}, s.Has r → t.Has r
  same : ∀ {r}, s.Has r → s.SameAt t r
  name : ∀ k, (t.closure k).name = (s.closure k).name

theorem Preserves.refl (s : Store) : s.Preserves s where
  has h := h
  same {r} _ := by cases r <;> rfl
  name _ := rfl

theorem Preserves.trans (h : s.Preserves t) (h' : t.Preserves u) : s.Preserves u where
  has hr := h'.has (h.has hr)
  same {r} hr := by
    have hst := h.same hr
    have htu := h'.same (h.has hr)
    cases r with
    | cell c => exact Eq.trans htu hst
    | frame f => exact Eq.trans htu hst
    | closure k => exact Eq.trans htu hst
  name k := (h'.name k).trans (h.name k)

theorem closure_of_not_has {k : ClosureId} (h : ¬s.Has (.closure k)) : s.closure k = default := by
  rw [closure, Array.getElem?_eq_none (Nat.le_of_not_lt h)]
  rfl

/-- One more object, which has no name if it is a closure. -/
theorem Adds.preserves {r₀ : Ref} (h : s.Adds t r₀)
    (hname : ∀ k, r₀ = .closure k → (t.closure k).name = none) : s.Preserves t where
  has hr := (h.has _).2 (.inl hr)
  same hr := h.same _ hr
  name k := by
    by_cases hk : s.Has (.closure k)
    · rw [show t.closure k = s.closure k from h.same _ hk]
    · rw [closure_of_not_has hk]
      by_cases hnew : t.Has (.closure k)
      · exact hname k (((h.has _).1 hnew).resolve_left hk).symm
      · rw [closure_of_not_has hnew]

end Store

/-! ## Harmless code -/

/-- Evaluating the node changes nothing: it mentions no change and it is none. -/
structure Node.Harmless (s : Store) (n : Node) : Prop where
  value : ¬n.value.Mutates
  names : ∀ name ∈ mutators, ¬s.Mentions name n.value

theorem symbol?_of_formOf {head : Node} {form : Form} (h : Likeness.formOf head = some form) :
    head.value.symbol? = some form.keyword := by
  obtain ⟨word, hword, hform⟩ := Option.bind_eq_some_iff.1 h
  have hkeyword := List.find?_some hform
  rw [hword, eq_of_beq hkeyword]

theorem Role.form_of_item_assigned {r : Role} {form : Option Form} {i : Nat}
    (h : r.item form i = .assigned) : form = some .assign := by
  unfold Role.item at h
  split at h <;> first | rfl | cases h

namespace Node.Harmless

variable {s t : Store} {n : Node}

/-- Harmless code consists of the forms that do not stand for a change. -/
theorem keyword_not_mem (h : n.Harmless s) (items : List Node)
    (hi : s.elements? n.value = some items) {form : Form} (hform : headForm items = some form) :
    form.keyword ∉ mutators := by
  intro hmem
  cases items with
  | nil => cases hform
  | cons head items =>
    have hhead := Value.eq_of_symbol? (symbol?_of_formOf hform)
    refine h.names _ hmem (Store.mentions_of_mem hi List.mem_cons_self ?_)
    rw [hhead]
    exact .symbol

/-- Code stays harmless, since nothing that it is made of changes. -/
theorem mono (h : n.Harmless s) (hn : n.Refers s) (hs : s.Whole) (ht : s.Preserves t) :
    n.Harmless t := by
  refine ⟨h.value, fun name hname hm => h.names name hname ?_⟩
  have hback {v : Value} (hv : ∀ r ∈ v.refs, s.Has r) (hm : t.Mentions name v) :
      s.Mentions name v := by
    induction hm with
    | symbol => exact .symbol
    | @half c half _ ih =>
      have hcell : t.cell c = s.cell c := ht.same (hv (.cell c) List.mem_cons_self)
      rw [hcell] at ih
      exact .half half (ih (hs.half c half))
  exact hback hn hm

end Node.Harmless

/-- No closure mentions a change in its body, and the primitives that replace half of a pair are
nowhere but in frames, under their own two names. -/
structure Store.Harmless (s : Store) : Prop where
  cell : ∀ c half, ¬((s.cell c).half half).value.Mutates
  binding : ∀ {f name v}, (s.frame f).bindings.get? name = some v → v.value.Mutates →
    name = "set-car!" ∨ name = "set-cdr!"
  body : ∀ {k}, s.Has (.closure k) → (s.closure k).body.Harmless s

namespace Store.Harmless

variable {s : Store}

theorem newCell (h : s.Harmless) (hs : s.Whole) {car cdr : Node} (hcar : ¬car.value.Mutates)
    (hcdr : ¬cdr.value.Mutates) : (s.newCell car cdr).2.Harmless where
  cell c half := by
    rcases s.half_newCell car cdr c half with heq | heq | heq <;> rw [heq]
    · exact hcar
    · exact hcdr
    · exact h.cell c half
  binding hv := h.binding hv
  body hk := (h.body hk).mono (hs.closure hk).2 hs ((s.adds_newCell car cdr).preserves nofun)

theorem newFrame (h : s.Harmless) (hs : s.Whole) (outer : Option FrameId)
    {entries : List (String × Node)} (he : ∀ e ∈ entries, e.2.value.Mutates →
      e.1 = "set-car!" ∨ e.1 = "set-cdr!") :
    (s.newFrame outer (Table.empty.insertAll entries)).2.Harmless where
  cell := h.cell
  binding hv := (Store.of_get?_newFrame hv).elim (he _) h.binding
  body hk := (h.body hk).mono (hs.closure hk).2 hs ((s.adds_newFrame outer _).preserves nofun)

theorem enclose (h : s.Harmless) (hs : s.Whole) (held : List Ref) (f : FrameId)
    {entries : List (String × Node)} (he : ∀ e ∈ entries, ¬e.2.value.Mutates) :
    (s.enclose held f entries).2.Harmless where
  cell := h.cell
  binding hv := (Store.of_get?_newFrame hv).elim (fun hmem hm => absurd hm (he _ hmem)) h.binding
  body hk := (h.body hk).mono (hs.closure hk).2 hs ((s.adds_enclose held f _).preserves nofun)

theorem newClosure (h : s.Harmless) (hs : s.Whole) {names : List String} {body : Node}
    {f : FrameId} (hbody : body.Harmless s) (hrefers : body.Refers s) :
    (s.newClosure ⟨none, names, body, f⟩).2.Harmless where
  cell := h.cell
  binding hv := h.binding hv
  body {k} hk := by
    have hadds := s.adds_newClosure ⟨none, names, body, f⟩
    have hkept := hadds.preserves fun l hl => by
      cases hl
      rw [Store.closure_newClosure, if_pos rfl]
    rw [Store.closure_newClosure]
    split
    · exact hbody.mono hrefers hs hkept
    · rename_i hne
      have hold := ((hadds.has _).1 hk).resolve_right fun heq => hne (Ref.closure.inj heq)
      exact (h.body hold).mono (hs.closure hold).2 hs hkept

/-- A session on which nothing has run yet. -/
theorem newPopulated (h : s.Harmless) (hs : s.Whole) : s.newPopulated.2.Harmless := by
  refine h.newFrame hs none fun e he hmutates => ?_
  obtain ⟨p, -, rfl⟩ := List.mem_map.1 he
  obtain ⟨half, hp⟩ := hmutates
  cases hp
  cases half with
  | car => exact .inl rfl
  | cdr => exact .inr rfl

theorem empty : Store.empty.Harmless where
  cell c half := by cases half <;> exact nofun
  binding := nofun
  body hk := absurd hk (Nat.not_lt_zero _)

end Store.Harmless

/-! ## Calm stores -/

/-- A store in which no evaluation can get hold of anything that changes it. -/
structure Calm where
  store : Store
  whole : store.Whole
  harmless : store.Harmless

namespace Calm

instance : Preorder Calm where
  le w u := w.store.Preserves u.store
  le_refl w := .refl w.store
  le_trans _ _ _ h h' := h.trans h'

/-- The value exists and is no primitive that changes something. -/
def Admits (w : Calm) (n : Node) : Prop := n.Refers w.store ∧ ¬n.value.Mutates

variable {w u : Calm}

theorem Admits.mono {n : Node} (hle : w ≤ u) (h : w.Admits n) : u.Admits n :=
  ⟨fun r hr => hle.has (h.1 r hr), h.2⟩

theorem admits_leaf {v : Value} {span : Span} (hrefs : v.refs = []) (hv : ¬v.Mutates) :
    w.Admits ⟨v, span⟩ :=
  ⟨Store.refers_leaf hrefs, hv⟩

theorem exists_newCell (w : Calm) {car cdr : Node} (hcar : w.Admits car) (hcdr : w.Admits cdr)
    (span : Span) : ∃ u, w ≤ u ∧ u.store = (w.store.newCell car cdr).2 ∧
      u.Admits ⟨.pair (w.store.newCell car cdr).1, span⟩ := by
  obtain ⟨hleads, hrefers⟩ := w.whole.leadsTo_newCell hcar.1 hcdr.1 span
  exact ⟨⟨_, hleads.whole, w.harmless.newCell w.whole hcar.2 hcdr.2⟩,
    (w.store.adds_newCell car cdr).preserves nofun, rfl, hrefers, nofun⟩

theorem exists_newTail (w : Calm) (stop : Nat) {items : List Node}
    (hitems : ∀ x ∈ items, w.Admits x) : ∃ u, w ≤ u ∧ u.store = (w.store.newTail stop items).2 ∧
      u.Admits (w.store.newTail stop items).1 := by
  induction items with
  | nil => exact ⟨w, le_rfl, rfl, admits_leaf rfl nofun⟩
  | cons item items ih =>
    obtain ⟨hitem, hitems⟩ := List.forall_mem_cons.1 hitems
    obtain ⟨u, hu, hstore, hrest⟩ := ih hitems
    obtain ⟨x, hx, hstore', hpair⟩ :=
      u.exists_newCell (hitem.mono hu) hrest ⟨item.span.start, stop⟩
    rw [hstore] at hstore' hpair
    exact ⟨x, hu.trans hx, hstore', hpair⟩

theorem exists_newList (w : Calm) {items : List Node} (span : Span)
    (hitems : ∀ x ∈ items, w.Admits x) : ∃ u, w ≤ u ∧ u.store = (w.store.newList items span).2 ∧
      u.Admits (w.store.newList items span).1 :=
  w.exists_newTail span.stop hitems

theorem exists_enclose (w : Calm) (held : List Ref) {f : FrameId} (hf : w.store.Has (.frame f))
    {entries : List (String × Node)} (hentries : ∀ e ∈ entries, w.Admits e.2) :
    ∃ u, w ≤ u ∧ u.store = (w.store.enclose held f entries).2 ∧
      u.store.Has (.frame (w.store.enclose held f entries).1) := by
  obtain ⟨hleads, hhas⟩ := w.whole.leadsTo_enclose held hf fun e he => (hentries e he).1
  exact ⟨⟨_, hleads.whole, w.harmless.enclose w.whole held f fun e he => (hentries e he).2⟩,
    (w.store.adds_enclose held f _).preserves nofun, rfl, hhas⟩

theorem exists_newClosure (w : Calm) (names : List String) {body : Node} {f : FrameId}
    (hf : w.store.Has (.frame f)) (hrefers : body.Refers w.store)
    (hbody : body.Harmless w.store) (span : Span) :
    ∃ u, w ≤ u ∧ u.store = (w.store.newClosure ⟨none, names, body, f⟩).2 ∧
      u.Admits ⟨.procedure (.closure (w.store.newClosure ⟨none, names, body, f⟩).1), span⟩ := by
  obtain ⟨hleads, hvalue⟩ := w.whole.leadsTo_newClosure (k := ⟨none, names, body, f⟩) hf hrefers
    span
  refine ⟨⟨_, hleads.whole, w.harmless.newClosure w.whole hbody hrefers⟩,
    (w.store.adds_newClosure _).preserves fun k hk => ?_, rfl, hvalue, nofun⟩
  cases hk
  rw [Store.closure_newClosure, if_pos rfl]

mutual

/-- The pairs of a datum are more objects, and none of them holds a primitive. -/
theorem exists_load : ∀ (w : Calm) (d : Datum), ∃ u, w ≤ u ∧ u.store = (w.store.load d).2 ∧
    u.Admits (w.store.load d).1
  | w, .atom _ _ => ⟨w, le_rfl, rfl, admits_leaf rfl nofun⟩
  | w, .list items span => by
    obtain ⟨u, hu, hstore, hnodes⟩ := exists_loadAll w items
    obtain ⟨x, hx, hstore', hlist⟩ := u.exists_newList span hnodes
    rw [hstore] at hstore' hlist
    exact ⟨x, hu.trans hx, hstore', hlist⟩

theorem exists_loadAll : ∀ (w : Calm) (ds : List Datum), ∃ u, w ≤ u ∧
    u.store = (w.store.loadAll ds).2 ∧ ∀ n ∈ (w.store.loadAll ds).1, u.Admits n
  | w, [] => ⟨w, le_rfl, rfl, nofun⟩
  | w, d :: ds => by
    obtain ⟨u, hu, hstore, hnode⟩ := exists_load w d
    obtain ⟨x, hx, hstore', hnodes⟩ := exists_loadAll u ds
    rw [hstore] at hstore' hnodes
    exact ⟨x, hu.trans hx, hstore', List.forall_mem_cons.2 ⟨hnode.mono hx, hnodes⟩⟩

end

end Calm

/-! ## The conduct -/

/-- Code is harmless and values are no primitives that change something. So there is no name that
is assigned to, and no `define` form. -/
def calmConduct : Conduct Calm where
  machine w m := m.store = w.store
  span _ _ := True
  frame w f := w.store.Has (.frame f)
  value w n := w.Admits n
  code w r n := n.Refers w.store ∧ n.Harmless w.store ∧ r ≠ .assigned
  definition _ _ _ := False
  name _ _ := True
  error _ _ := True

namespace calmConduct

variable {w : Calm} {m : Machine}

theorem item {r : Role} {n x : Node} {items : List Node} {i : Nat}
    (hm : calmConduct.machine w m) (hn : calmConduct.code w r n)
    (hi : m.store.elements? n.value = some items) (hx : items[i]? = some x) :
    calmConduct.code w (r.item (headForm items) i) x := by
  rw [show m.store = w.store from hm] at hi
  have hmem := List.mem_of_getElem? hx
  refine ⟨w.whole.elements hi x hmem, ⟨?_, fun name hname h => ?_⟩, fun hassigned => ?_⟩
  · obtain ⟨c, rfl⟩ := Store.exists_car_of_mem hi x hmem
    exact w.harmless.cell c .car
  · exact hn.2.1.names name hname (Store.mentions_of_mem hi hmem h)
  · exact hn.2.1.keyword_not_mem _ hi (Role.form_of_item_assigned hassigned) (by decide)

/-- What is found under a name that is no change is none. -/
theorem found {f : FrameId} {n v : Node} {name : String} (hm : calmConduct.machine w m)
    (hn : calmConduct.code w .expression n) (hname : n.value.symbol? = some name)
    (hv : m.store.lookup? f name = some v) : calmConduct.value w v := by
  rw [show m.store = w.store from hm] at hv
  refine ⟨w.whole.lookup hv, fun hmutates => ?_⟩
  obtain ⟨g, -, hg⟩ := List.exists_of_findSome?_eq_some hv
  have hmem : name ∈ mutators := by
    rcases w.harmless.binding hg hmutates with rfl | rfl <;> decide
  refine hn.2.1.names name hmem ?_
  rw [Value.eq_of_symbol? hname]
  exact .symbol

theorem change {v : Node} {p : Primitive} {span : Span} {c : Store → Node × Store}
    (hm : calmConduct.machine w m) (hv : calmConduct.value w v)
    (hp : v.value = .procedure (.primitive p)) (hc : p.Change (calmConduct.value w) span c) :
    ∃ u, w ≤ u ∧ calmConduct.machine u { m with store := (c m.store).2 } ∧
      calmConduct.value u (c m.store).1 := by
  obtain ⟨s, recording, log⟩ := m
  obtain rfl : s = w.store := hm
  cases hc with
  | integer n => exact ⟨w, le_rfl, rfl, Calm.admits_leaf rfl nofun⟩
  | boolean b => exact ⟨w, le_rfl, rfl, Calm.admits_leaf rfl nofun⟩
  | list hargs _ =>
    obtain ⟨u, hu, hstore, hlist⟩ := w.exists_newList span hargs
    exact ⟨u, hu, hstore.symm, hlist⟩
  | cons ha hb =>
    obtain ⟨u, hu, hstore, hpair⟩ := w.exists_newCell ha hb span
    exact ⟨u, hu, hstore.symm, hpair⟩
  | half half ha hc => exact ⟨w, le_rfl, rfl, w.whole.half _ half, w.harmless.cell _ half⟩
  | setHalf half ha hb hc hset => exact absurd ⟨half, hset ▸ hp⟩ hv.2

theorem enterClosure {held : List Ref} {v : Node} {k : ClosureId} {args : List Node} {span : Span}
    (hm : calmConduct.machine w m) (hv : calmConduct.value w v)
    (hk : v.value = .procedure (.closure k)) (hargs : ∀ a ∈ args, calmConduct.value w a) :
    calmConduct.Ends w
      (fun u x => calmConduct.frame u x.1 ∧ calmConduct.code u .expression x.2)
      (enterClosure held k args span m) := by
  obtain ⟨log, hrun⟩ := enterClosure_run held k args span m
  rw [hrun, show m.store = w.store from hm]
  have hhas : w.store.Has (.closure k) := hv.1 _ (by rw [Node.refs, hk]; exact List.mem_cons_self)
  obtain ⟨hframe, hbody⟩ := w.whole.closure hhas
  split
  · have hentries : ∀ e ∈ (w.store.closure k).params.zip args, w.Admits e.2 :=
      fun e he => hargs e.2 (List.of_mem_zip he).2
    obtain ⟨u, hu, hstore, hnew⟩ := w.exists_enclose held hframe hentries
    exact ⟨u, hu, hstore.symm, hnew, fun r hr => hu.has (hbody r hr),
      (w.harmless.body hhas).mono hbody w.whole hu, by decide⟩
  · exact ⟨w, le_rfl, rfl, trivial⟩

/-- **Every operation keeps what there was.** -/
theorem kept : calmConduct.Kept where
  span_mono _ h := h
  frame_mono {_ _ f} hle h := hle.has (r := .frame f) h
  value_mono hle h := h.mono hle
  code_mono {w _ _ _} hle h :=
    ⟨fun r hr => hle.has (h.1 r hr), h.2.1.mono h.1 w.whole hle, h.2.2⟩
  definition_mono _ _ h := h
  note event h := (Machine.store_note _ event).trans h
  code_span _ := trivial
  code_name _ _ := trivial
  item hm hn _ hi hx := item hm hn hi hx
  constant h _ _ := ⟨h.1, h.2.1.value⟩
  quoted h := ⟨h.1, h.2.1.value⟩
  boolean _ _ := Calm.admits_leaf rfl nofun
  symbol _ _ := Calm.admits_leaf rfl nofun
  unspecified _ := Calm.admits_leaf rfl nofun
  found hm _ hn hname hv := found hm hn hname hv
  value_name _ _ := trivial
  primitive_name _ := trivial
  located _ _ := trivial
  mismatch _ _ _ _ := trivial
  divisionByZero _ _ := trivial
  change hm hv hp _ hc := change hm hv hp hc
  enterClosure hm hv hk hargs _ := enterClosure hm hv hk hargs
  bindGlobal _ _ hd _ _ _ := hd.elim
  assignName _ _ hn _ _ := absurd rfl hn.2.2
  newClosure {w f names body s m} hm hf _ hbody _ := by
    obtain ⟨t, recording, log⟩ := m
    obtain rfl : t = w.store := hm
    obtain ⟨u, hu, hstore, hvalue⟩ := w.exists_newClosure names hf hbody.1 hbody.2.1 s
    exact ⟨u, hu, hstore.symm, hvalue⟩
  enclose {w held f entries m} hm hf hvalues _ _ := by
    obtain ⟨t, recording, log⟩ := m
    obtain rfl : t = w.store := hm
    obtain ⟨u, hu, hstore, hnew⟩ := w.exists_enclose held hf hvalues
    exact ⟨u, hu, hstore.symm, hnew⟩

/-- **A whole evaluation** leads from one calm store to another. -/
theorem exists_eval {n : Node} {f : FrameId} (limit room : Nat) (held : List Ref)
    (hm : m.store = w.store) (hf : w.store.Has (.frame f)) (hrefers : n.Refers w.store)
    (hn : n.Harmless w.store) :
    ∃ u, w ≤ u ∧ u.store = (finalMachine (eval limit room held n f m)).store := by
  have hends := kept.eval_ends
    (fun {w m _ n head ns} (hm : m.store = w.store) _ hn hi hform =>
      hn.2.1.keyword_not_mem (head :: ns) (hm ▸ hi) hform (by decide))
    limit room held hm hf ⟨hrefers, hn, nofun⟩
  revert hends
  cases eval limit room held n f m with
  | ok v m' => exact fun ⟨u, hu, hstore, _⟩ => ⟨u, hu, hstore.symm⟩
  | error e m' => exact fun ⟨u, hu, hstore, _⟩ => ⟨u, hu, hstore.symm⟩

end calmConduct

/-! ## Expressions that were read -/

/-- **Programs without mutation leave the past alone.** An expression that mentions none of the
changes is read into a store whose closures mention none, and in which the two primitives are bound
to their own names only. Whether it succeeds or fails, in whatever frame and at whatever limit, it
leaves the bindings of all frames, both halves of all pairs and the names of all closures as they
were. -/
theorem programs_without_mutation_keep_the_past (limit room : Nat) (held : List Ref) (m : Machine)
    (d : Datum) (f : FrameId) (hwhole : m.store.Whole) (hharmless : m.store.Harmless)
    (hf : m.store.Has (.frame f)) (hd : ∀ name ∈ mutators, name ∉ d.symbols) :
    let t := (finalMachine (eval limit room held (m.store.load d).1 f
      { m with store := (m.store.load d).2 })).store
    (∀ g, m.store.Has (.frame g) → (t.frame g).bindings = (m.store.frame g).bindings) ∧
      (∀ c, m.store.Has (.cell c) → t.cell c = m.store.cell c) ∧
      ∀ k, (t.closure k).name = (m.store.closure k).name := by
  intro t
  let w : Calm := ⟨m.store, hwhole, hharmless⟩
  obtain ⟨u, hu, hstore, hnode⟩ := w.exists_load d
  have hholds : u.store.Holds (m.store.load d).1 d :=
    Store.holds_load m.store d (hstore ▸ .refl _)
  have hcode : (m.store.load d).1.Harmless u.store :=
    ⟨hnode.2, fun name hname hm => hd name hname (hholds.mem_symbols hm)⟩
  obtain ⟨x, hx, hfinal⟩ := calmConduct.exists_eval limit room held
    (m := { m with store := (m.store.load d).2 }) hstore.symm (hu.has hf) hnode.1 hcode
  have hkept : m.store.Preserves t := by
    have htrans := hu.trans hx
    change m.store.Preserves x.store at htrans
    rwa [hfinal] at htrans
  exact ⟨fun g hg => congrArg Frame.bindings (hkept.same (r := .frame g) hg),
    fun c hc => hkept.same (r := .cell c) hc, hkept.name⟩

/-- In a session on which nothing has run yet, a call of a closure that is made on the spot: the
primitives are bound as before. -/
theorem call_keeps_the_past_of_new_session :
    let s := Store.empty.newPopulated.2
    let word (name : String) : Datum := .atom (.symbol name) default
    let d : Datum := .list [.list [word "lambda", .list [word "x"] default,
      .list [word "cons", word "x", word "x"] default] default, .atom (.integer 1) default] default
    ((finalMachine (eval 9 9 [] (s.load d).1 ⟨0⟩ ⟨(s.load d).2, false, []⟩)).store.frame
      ⟨0⟩).bindings = Store.primitiveBindings := by
  intro s word d
  obtain ⟨hleads, hhas⟩ := Store.whole_empty.leadsTo_newPopulated
  have hharmless := Store.Harmless.empty.newPopulated Store.whole_empty
  exact (programs_without_mutation_keep_the_past 9 9 [] ⟨s, false, []⟩ d ⟨0⟩ hleads.whole
    hharmless hhas (by decide)).1 ⟨0⟩ hhas

end MiniScheme
