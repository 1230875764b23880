import MiniScheme.Proofs.Code.Layout
import MiniScheme.Proofs.Operations
import MiniScheme.Proofs.Primitives

/-!
# Code and data stay apart

In a store that is *separated* by a layout, the cells of code still have the content the reader
gave them and no value refers to one of them: bindings and cells of data hold data, and the body
of every closure can be read as an expression. Every operation of an evaluation keeps a store
separated, because the only cells that a program can change are those that some value refers to.

`codeRun` puts this as a simulation. Its two sides are the same run, except that the left one
may take lists apart in any way that is right for lists of unchanged code.

## Results

* `codeRun.simulation`: every operation of an evaluation keeps code and data apart.
* `codeRun.evalWith_eq`: whole evaluations; how other lists are taken apart makes no difference.
-/

namespace MiniScheme

/-- The store is separated by the layout, and its cells of code are among those that `built`
allows. -/
structure Separated (built : CellId → Cell → Prop) (L : Layout) (s : Store) : Prop where
  code : ∀ {c k}, L.mark c = some (.code k) → built c k ∧ c.index < s.cells.size ∧ s.cell c = k
  data : ∀ {c}, L.mark c = some .data →
    c.index < s.cells.size ∧ L.Data (s.cell c).car.value ∧ L.Data (s.cell c).cdr.value
  binding : ∀ {f name v}, (s.frame f).bindings.get? name = some v → L.Data v.value
  body : ∀ k, L.Reads .expression (s.closure k).body

namespace Separated

variable {built : CellId → Cell → Prop} {L : Layout} {s : Store}

theorem empty : Separated built ⟨fun _ => none⟩ .empty :=
  ⟨nofun, nofun, nofun, fun _ => .leaf nofun⟩

theorem lt_size (h : Separated built L s) {c : CellId} {k : Mark} (hc : L.mark c = some k) :
    c.index < s.cells.size := by
  cases k with
  | code k => exact (h.code hc).2.1
  | data => exact (h.data hc).1

/-- A list of cells of code is a list in the store. -/
theorem isList (h : Separated built L s) {v : Value} {items : List Node} (hc : L.Chain v items) :
    s.IsList v items := by
  induction hc with
  | nil => exact .nil
  | pair hc _ ih =>
    obtain ⟨-, hlt, rfl⟩ := h.code hc
    exact .pair hlt ih

theorem lookup (h : Separated built L s) {f : FrameId} {name : String} {v : Node}
    (hv : s.lookup? f name = some v) : L.Data v.value := by
  obtain ⟨g, -, hg⟩ := List.exists_of_findSome?_eq_some hv
  exact h.binding hg

/-- The elements of a node that is read as code are cells of code, each read in its role. -/
theorem elements? (h : Separated built L s) {r : Role} {n : Node} {items : List Node}
    (hn : L.Reads r n) (hr : r ≠ .datum) (hi : s.elements? n.value = some items) :
    L.Chain n.value items ∧
      ∀ i x, items[i]? = some x → L.Reads (r.item (headForm items) i) x := by
  by_cases hp : ∃ c, n.value = .pair c
  · obtain ⟨c, hc⟩ := hp
    obtain ⟨items', hchain, hreads⟩ := hn.items hr hc
    cases hi.symm.trans (h.isList hchain).elements?_eq
    exact ⟨hchain, hreads⟩
  · obtain ⟨hnil, rfl⟩ := Store.elements?_leaf (fun c hc => hp ⟨c, hc⟩) hi
    rw [hnil]
    exact ⟨.nil, nofun⟩

/-! ## New objects -/

/-- The layout with one more cell of data. -/
def addData (L : Layout) (c : CellId) : Layout := ⟨fun d => if d = c then some .data else L.mark d⟩

theorem newCell (h : Separated built L s) {car cdr : Node} (ha : L.Data car.value)
    (hd : L.Data cdr.value) :
    ∃ L', L ≤ L' ∧ Separated built L' (s.newCell car cdr).2 ∧
      L'.mark (s.newCell car cdr).1 = some .data := by
  have hnew {c : CellId} {k : Mark} (hc : L.mark c = some k) : c ≠ (s.newCell car cdr).1 := by
    rintro rfl
    exact absurd (h.lt_size hc) (Nat.lt_irrefl _)
  have hle : L ≤ addData L (s.newCell car cdr).1 := fun c k hc => by
    rw [addData]
    simp only [if_neg (hnew hc), hc]
  refine ⟨addData L (s.newCell car cdr).1, hle, ⟨?_, ?_, ?_, ?_⟩, by simp [addData]⟩
  · intro c k hc
    simp only [addData] at hc
    split at hc
    · cases hc
    · obtain ⟨hb, hlt, hk⟩ := h.code hc
      rw [Store.cell_newCell, if_neg (hnew hc), Store.size_cells_newCell]
      exact ⟨hb, Nat.lt_succ_of_lt hlt, hk⟩
  · intro c hc
    rw [Store.cell_newCell, Store.size_cells_newCell]
    by_cases heq : c = (s.newCell car cdr).1
    · rw [if_pos heq]
      subst heq
      exact ⟨Nat.lt_succ_self _, ha.mono hle, hd.mono hle⟩
    · rw [if_neg heq]
      simp only [addData, if_neg heq] at hc
      obtain ⟨hlt, ha, hd⟩ := h.data hc
      exact ⟨Nat.lt_succ_of_lt hlt, ha.mono hle, hd.mono hle⟩
  · intro f name v hv
    exact (h.binding hv).mono hle
  · intro k
    exact (h.body k).mono hle

theorem newTail (h : Separated built L s) (stop : Nat) {items : List Node}
    (hi : ∀ x ∈ items, L.Data x.value) :
    ∃ L', L ≤ L' ∧ Separated built L' (s.newTail stop items).2 ∧
      L'.Data (s.newTail stop items).1.value := by
  induction items with
  | nil => exact ⟨L, le_rfl, h, Layout.data_of_leaf nofun⟩
  | cons item items ih =>
    obtain ⟨L₁, hle₁, h₁, hd⟩ := ih fun x hx => hi x (List.mem_cons_of_mem _ hx)
    obtain ⟨L₂, hle₂, h₂, hc⟩ := h₁.newCell ((hi item List.mem_cons_self).mono hle₁) hd
    refine ⟨L₂, hle₁.trans hle₂, h₂, ?_⟩
    rintro _ ⟨⟩
    exact hc

theorem newFrame (h : Separated built L s) (outer : Option FrameId)
    {entries : List (String × Node)} (he : ∀ e ∈ entries, L.Data e.2.value) :
    Separated built L (s.newFrame outer (Table.empty.insertAll entries)).2 where
  code hc := h.code hc
  data hc := h.data hc
  binding hv := (Store.of_get?_newFrame hv).elim (he _) h.binding
  body k := h.body k

theorem newClosure (h : Separated built L s) {k : Closure} (hk : L.Reads .expression k.body) :
    Separated built L (s.newClosure k).2 where
  code hc := h.code hc
  data hc := h.data hc
  binding hv := h.binding hv
  body l := by
    rw [Store.closure_newClosure]
    split
    · exact hk
    · exact h.body l

/-! ## Changes -/

theorem setHalf (h : Separated built L s) {c : CellId} (half : Half) {n : Node}
    (hc : L.mark c = some .data) (hn : L.Data n.value) :
    Separated built L (s.setHalf c half n) where
  code {d k} hd := by
    have hne : c ≠ d := by
      rintro rfl
      cases hc.symm.trans hd
    rw [Store.cell_setHalf, if_neg fun hcd => hne hcd.1, Store.size_cells_setHalf]
    exact h.code hd
  data {d} hd := by
    obtain ⟨hlt, ha, hcdr⟩ := h.data hd
    rw [Store.cell_setHalf, Store.size_cells_setHalf]
    split
    · cases half with
      | car => exact ⟨hlt, hn, hcdr⟩
      | cdr => exact ⟨hlt, ha, hn⟩
    · exact ⟨hlt, ha, hcdr⟩
  binding hv := h.binding hv
  body k := h.body k

theorem bind (h : Separated built L s) (f : FrameId) (name : String) {n : Node}
    (hn : L.Data n.value) : Separated built L (s.bind f name n) where
  code hc := h.code hc
  data hc := h.data hc
  binding hv := (Store.of_get?_bind hv).elim (fun heq => heq ▸ hn) h.binding
  body k := h.body k

theorem nameFresh (h : Separated built L s) (held : List Ref) (v : Value) (name : String) :
    Separated built L (MiniScheme.nameFresh held v name s) := by
  unfold MiniScheme.nameFresh
  split
  · split
    · exact {
        code := h.code
        data := h.data
        binding := h.binding
        body := fun l => by
          rw [Store.closure_nameClosure]
          split
          · exact h.body l
          · exact h.body l }
    · exact h
  · exact h

theorem withRegistries (h : Separated built L s) (r : Registries) :
    Separated built L { s with registries := r } := ⟨h.code, h.data, h.binding, h.body⟩

theorem enclose (h : Separated built L s) (held : List Ref) (f : FrameId)
    {entries : List (String × Node)} (he : ∀ e ∈ entries, L.Data e.2.value) :
    Separated built L (s.enclose held f entries).2 := (h.newFrame (some f) he).withRegistries _

theorem clear (h : Separated built L s) (f : FrameId) : Separated built L (s.clear f) where
  code hc := h.code hc
  data hc := h.data hc
  binding {g name v} hv := by
    rw [Store.frame_clear] at hv
    split at hv
    · cases hv
    · exact h.binding hv
  body k := h.body k

theorem release (h : Separated built L s) (roots : List Ref) (f : FrameId) :
    Separated built L (s.release roots f) :=
  Store.release_induction (fun h r => h.withRegistries r) (fun h f => h.clear f) h roots f

end Separated

/-! ## The run -/

/-- The value is a proper list all of whose cells have the content they were built with. -/
inductive UnchangedList (built : CellId → Cell → Prop) (s : Store) : Value → Prop
  | nil : UnchangedList built s .nil
  | pair {c : CellId} (hc : built c (s.cell c))
      (tail : UnchangedList built s (s.cell c).cdr.value) : UnchangedList built s (.pair c)

/-- The value is no pair, or a proper list of cells that are as they were built. -/
def Unchanged (built : CellId → Cell → Prop) (s : Store) (v : Value) : Prop :=
  (∀ c, v ≠ .pair c) ∨ UnchangedList built s v

/-- The splitter is right wherever a list consists of cells that are as they were built. -/
def Splitter.RightOn (built : CellId → Cell → Prop) (split : Splitter) : Prop :=
  ∀ n m, Unchanged built m.store n.value → split n m = elements? n m

theorem Splitter.rightOn_elements? (built : CellId → Cell → Prop) :
    Splitter.RightOn built elements? := fun _ _ _ => rfl

/-- One run on a separated store that takes lists apart in two ways. -/
def codeRun (built : CellId → Cell → Prop) : Likeness Layout where
  machine L m m' := m = m' ∧ Separated built L m.store
  span _ s s' := s = s'
  frame _ f f' := f = f'
  value L v v' := v = v' ∧ L.Data v.value
  code L r _ _ n n' := n = n' ∧ L.Reads r n
  abstraction L _ _ ns ns' := ns = ns' ∧
    ∀ params body, ns = [params, body] → L.Reads .parameters params ∧ L.Reads .expression body
  definition _ _ _ _ _ := True
  held _ h h' := h = h'
  error _ e e' := e = e' ∧ ∀ span, e ≠ .malformed .improperList span
  fatal _ := False
  lost _ := False

namespace codeRun

variable {built : CellId → Cell → Prop} {split : Splitter} {L : Layout} {m : Machine}

theorem unchanged_of_chain (h : Separated built L m.store) {v : Value} {items : List Node}
    (hc : L.Chain v items) : UnchangedList built m.store v := by
  induction hc with
  | nil => exact .nil
  | pair hc _ ih =>
    obtain ⟨hb, -, rfl⟩ := h.code hc
    exact .pair hb ih

/-- A node that can be read as code is taken apart alike on both sides. -/
theorem split_reads (hsplit : split.RightOn built) (h : Separated built L m.store) {r : Role}
    {n : Node} (hr : r ≠ .datum) (hn : L.Reads r n) :
    split n m = .ok (m.store.elements? n.value) m ∧
      ((∃ c, n.value = .pair c) → ∃ items, m.store.elements? n.value = some items ∧
        items ≠ [] ∧ ∀ i x, items[i]? = some x → L.Reads (r.item (headForm items) i) x) := by
  by_cases hp : ∃ c, n.value = .pair c
  · obtain ⟨c, hc⟩ := hp
    obtain ⟨items, hchain, hi⟩ := hn.items hr hc
    refine ⟨hsplit n m (.inr (unchanged_of_chain h hchain)), fun _ =>
      ⟨items, (h.isList hchain).elements?_eq, ?_, hi⟩⟩
    rintro rfl
    rw [hc] at hchain
    cases hchain
  · refine ⟨hsplit n m (.inl fun c hc => hp ⟨c, hc⟩), fun h => absurd h hp⟩

theorem eq_of_values {vs vs' : List Node} (h : List.Forall₂ ((codeRun built).value L) vs vs') :
    vs = vs' ∧ ∀ v ∈ vs, L.Data v.value := by
  induction h with
  | nil => exact ⟨rfl, nofun⟩
  | cons hv _ ih =>
    obtain ⟨rfl, hd⟩ := hv
    exact ⟨by rw [ih.1], List.forall_mem_cons.2 ⟨hd, ih.2⟩⟩

theorem eq_of_entries {f f' : FrameId} {es es' : List (String × Node)}
    (h : List.Forall₂ ((codeRun built).entry L f f') es es') :
    es = es' ∧ ∀ e ∈ es, L.Data e.2.value := by
  induction h with
  | nil => exact ⟨rfl, nofun⟩
  | cons he _ ih =>
    obtain ⟨hname, ⟨hv, hd⟩, -⟩ := he
    exact ⟨by rw [Prod.ext hname hv, ih.1], List.forall_mem_cons.2 ⟨hd, ih.2⟩⟩

/-- Items that can be read in the roles the list has for them. -/
theorem parts_self {r : Role} {items : List Node} (f f' : FrameId) (ho : r.isOpened = true)
    (hne : r = .expression → items ≠ [])
    (hi : ∀ i x, items[i]? = some x → L.Reads (r.item (headForm items) i) x) :
    (codeRun built).parts L f f' r items items := by
  refine Likeness.parts_of_items (R := codeRun built) (w := L) (fun hn => ⟨hn.1, hn.2.data⟩)
    (fun hns => ?_) ho hne rfl ?_
  · obtain rfl := hns.eq fun hn => hn.1
    refine ⟨rfl, ?_⟩
    rintro params body rfl
    exact ⟨(hns.code (i := 0) rfl rfl).2, (hns.code (i := 1) rfl rfl).2⟩
  · refine ⟨rfl, fun hn hn' => ?_⟩
    cases hn.symm.trans hn'
    exact ⟨rfl, hi _ _ hn⟩

theorem split_self (hsplit : split.RightOn built) (h : Separated built L m.store) {r : Role}
    {n : Node} (f f' : FrameId) (ho : r.isOpened = true) (hn : L.Reads r n)
    (hp : r = .expression → ∃ c, n.value = .pair c) :
    (split n m = .ok none m ∧ elements? n m = .ok none m ∧ r ≠ .expression) ∨
      ∃ items, split n m = .ok (some items) m ∧ elements? n m = .ok (some items) m ∧
        (codeRun built).parts L f f' r items items := by
  have hr : r ≠ .datum := by
    rintro rfl
    cases ho
  obtain ⟨hrun, hitems⟩ := split_reads hsplit h hr hn
  have hrun' : elements? n m = .ok (m.store.elements? n.value) m := rfl
  rw [hrun, hrun']
  by_cases hpair : ∃ c, n.value = .pair c
  · obtain ⟨items, hsome, hne, hi⟩ := hitems hpair
    rw [hsome]
    exact .inr ⟨items, rfl, rfl, parts_self f f' ho (fun _ => hne) hi⟩
  · have hexpr : r ≠ .expression := fun he => hpair (hp he)
    cases hsome : m.store.elements? n.value with
    | none => exact .inl ⟨rfl, rfl, hexpr⟩
    | some items =>
      obtain rfl := (Store.elements?_leaf (fun c hc => hpair ⟨c, hc⟩) hsome).2
      refine .inr ⟨[], rfl, rfl, parts_self f f' ho (fun he => absurd he hexpr) ?_⟩
      intro i x hx
      cases hx

/-! ### The operations -/

/-- A step that succeeds, on both sides. -/
theorem alike_ok {α : Type} {Q : Layout → α → α → Prop} {L' : Layout} {x : α} {m₁ : Machine}
    (hle : L ≤ L') (h : Separated built L' m₁.store) (hq : Q L' x x) :
    (codeRun built).Alike L Q (.ok x m₁) (.ok x m₁) :=
  .ok hle ⟨rfl, h⟩ hq

/-- A step that fails, on both sides. -/
theorem alike_error {α : Type} {Q : Layout → α → α → Prop} {e : EvalError} {m₁ : Machine}
    (h : Separated built L m₁.store) (he : ∀ span, e ≠ .malformed .improperList span) :
    (codeRun built).Alike L Q (.error e m₁) (.error e m₁) :=
  .error le_rfl ⟨rfl, h⟩ ⟨rfl, he⟩

theorem evalName_self (h : Separated built L m.store) (name : String) (f : FrameId) (span : Span) :
    (codeRun built).Alike L (codeRun built).value (evalName name f span m)
      (evalName name f span m) := by
  rw [evalName_run]
  cases hl : m.store.lookup? f name with
  | some v => exact alike_ok le_rfl h ⟨rfl, h.lookup hl⟩
  | none => exact alike_error h nofun

theorem argumentsAlike (built : CellId → Cell → Prop) (L : Layout) (span : Span) :
    ArgumentsAlike ((codeRun built).value L) ((codeRun built).error L) span where
  similar h := h.1 ▸ .refl _
  span h := congrArg Node.span h.1
  mismatch p x i h :=
    ⟨congrArg (fun a : Node => EvalError.mismatch p x a.value i a.span) h.1, nofun⟩
  arity _ _ _ := ⟨rfl, nofun⟩
  divisionByZero h _ := ⟨congrArg (fun a : Node => EvalError.divisionByZero a.span) h.1, nofun⟩
  overflow _ := ⟨rfl, nofun⟩

theorem applyPrimitive_alike (p : Primitive) {args args' : List Node} (span : Span)
    (h : Separated built L m.store) (ha : List.Forall₂ ((codeRun built).value L) args args') :
    (codeRun built).Alike L (codeRun built).value (applyPrimitive p args span m)
      (applyPrimitive p args' span m) := by
  rw [applyPrimitive_run, applyPrimitive_run]
  have hcall := p.call_alike (argumentsAlike built L span) ha
  revert hcall
  generalize p.call args span = x
  generalize p.call args' span = x'
  rintro (hchange | ⟨rfl, hne⟩)
  · cases hchange with
    | integer => exact alike_ok le_rfl h ⟨rfl, Layout.data_of_leaf nofun⟩
    | boolean => exact alike_ok le_rfl h ⟨rfl, Layout.data_of_leaf nofun⟩
    | list ha =>
      obtain ⟨rfl, hargs⟩ := eq_of_values ha
      obtain ⟨L', hle, hs, hd⟩ := h.newTail span.stop hargs
      exact alike_ok hle hs ⟨rfl, hd⟩
    | cons ha hb =>
      obtain ⟨rfl, ha⟩ := ha
      obtain ⟨rfl, hb⟩ := hb
      obtain ⟨L', hle, hs, hd⟩ := h.newCell ha hb
      refine alike_ok hle hs ⟨rfl, ?_⟩
      rintro _ ⟨⟩
      exact hd
    | half half ha hc hc' =>
      obtain ⟨rfl, ha⟩ := ha
      cases hc.symm.trans hc'
      obtain ⟨-, hcar, hcdr⟩ := h.data (ha _ hc)
      cases half with
      | car => exact alike_ok le_rfl h ⟨rfl, hcar⟩
      | cdr => exact alike_ok le_rfl h ⟨rfl, hcdr⟩
    | setHalf half ha hb hc hc' =>
      -- the pair is an argument, so it is data
      obtain ⟨rfl, ha⟩ := ha
      obtain ⟨rfl, hb⟩ := hb
      cases hc.symm.trans hc'
      exact alike_ok le_rfl (h.setHalf half (ha _ hc) hb) ⟨rfl, Layout.data_of_leaf nofun⟩
  · exact alike_error h hne

theorem enterClosure_self {held : List Ref} {k : ClosureId} {args : List Node} (span : Span)
    (h : Separated built L m.store) (ha : ∀ a ∈ args, L.Data a.value) :
    (codeRun built).Alike L
      (fun u x x' => (codeRun built).frame u x.1 x'.1 ∧
        (codeRun built).code u .expression x.1 x'.1 x.2 x'.2)
      (enterClosure held k args span m) (enterClosure held k args span m) := by
  obtain ⟨log, hrun⟩ := enterClosure_run held k args span m
  rw [hrun]
  split
  · exact alike_ok le_rfl (h.enclose _ _ fun e he => ha e.2 (List.of_mem_zip he).2)
      ⟨rfl, rfl, h.body k⟩
  · exact alike_error h nofun

theorem bindGlobal_self {held : List Ref} {f : FrameId} {name : String} {v : Node}
    (h : Separated built L m.store) (hv : L.Data v.value) :
    (codeRun built).Alike L (fun _ _ _ => True) (bindGlobal held f name v m)
      (bindGlobal held f name v m) := by
  obtain ⟨log, hrun⟩ := bindGlobal_run held f name v m
  rw [hrun]
  exact alike_ok le_rfl ((h.nameFresh held v.value name).bind _ name hv) trivial

theorem assignName_self {f : FrameId} {name : String} {v : Node} (span : Span)
    (h : Separated built L m.store) (hv : L.Data v.value) :
    (codeRun built).Alike L (fun _ _ _ => True) (assignName f name v span m)
      (assignName f name v span m) := by
  rw [assignName_run]
  cases m.store.owner? f name with
  | some g => exact alike_ok le_rfl (h.bind g name hv) trivial
  | none => exact alike_error h nofun

theorem evalLambda_self (hsplit : split.RightOn built) {ns : List Node} {f : FrameId} (span : Span)
    (h : Separated built L m.store)
    (hns : ∀ params body, ns = [params, body] →
      L.Reads .parameters params ∧ L.Reads .expression body) :
    (codeRun built).Alike L (codeRun built).value (evalLambda split ns f span m)
      (evalLambda elements? ns f span m) := by
  match ns with
  | [] | [_] | _ :: _ :: _ :: _ => exact alike_error h nofun
  | [params, body] =>
    obtain ⟨hparams, hbody⟩ := hns params body rfl
    have hrun := (split_reads hsplit h (by decide) hparams).1
    have hrun' := elements?_run params m
    cases hn : m.store.elements? params.value with
    | none =>
      rw [hn] at hrun hrun'
      rw [evalLambda_none hrun, evalLambda_none hrun']
      exact alike_error h nofun
    | some nodes =>
      rw [hn] at hrun hrun'
      rw [evalLambda_some hrun, evalLambda_some hrun']
      have hnames := parameterNames_run (V := Eq) (E := (codeRun built).error L)
        (fun hn => hn ▸ rfl) (fun hn => ⟨hn ▸ rfl, nofun⟩) (fun name hn _ => ⟨hn ▸ rfl, nofun⟩)
        (List.forall₂_refl nodes) []
      rcases hnames with ⟨names, hn⟩ | ⟨x, x', ⟨rfl, hne⟩, he⟩
      · simp only [bind, EStateM.bind, (hn m).1]
        exact alike_ok le_rfl (h.newClosure hbody) ⟨rfl, Layout.data_of_leaf nofun⟩
      · simp only [bind, EStateM.bind, (he m).1]
        exact alike_error h hne

/-- **Evaluation keeps code and data apart**, and it takes only unchanged code apart. -/
theorem simulation (hsplit : split.RightOn built) : Simulation (codeRun built) split elements? where
  span_mono _ h := h
  frame_mono _ h := h
  value_mono hle h := ⟨h.1, h.2.mono hle⟩
  code_mono hle h := ⟨h.1, h.2.mono hle⟩
  definition_mono _ _ h := h
  held_mono _ h := h
  code_span h := congrArg Node.span h.1
  expression := by
    rintro L f _ n _ rfl ⟨rfl, hn⟩
    match hv : n.value with
    | .atom (.symbol a) => exact .name fun ⟨hm, h⟩ => hm ▸ evalName_self h a f n.span
    | .pair c => exact .list c c
    | .atom (.integer _) | .atom (.boolean _) | .nil | .procedure _ | .unspecified =>
      exact .constant rfl rfl nofun nofun ⟨rfl, hv ▸ Layout.data_of_leaf nofun⟩
  else_iff := by
    rintro _ f f' n _ ⟨rfl, -⟩
    exact Iff.rfl
  target h := congrArg (fun n : Node => n.value.symbol?) h.1.symm
  split_alike := by
    rintro L r f f' n _ m _ ⟨rfl, h⟩ ⟨rfl, hn⟩ ho hp
    rcases split_self hsplit h f f' ho hn hp with ⟨hs, he, hr⟩ | ⟨items, hs, he, hi⟩
    · exact .inl ⟨hs, he, fun hre => absurd hre hr⟩
    · exact .inr ⟨items, items, hs, he, hi, fun hh => congrArg (refsOf items ++ ·) hh⟩
  held_value := by
    rintro _ v _ h _ ⟨rfl, -⟩ rfl
    rfl
  held_frame := by
    rintro _ f _ h _ rfl rfl
    rfl
  isTrue h := congrArg (fun n : Node => n.value.isTrue) h.1.symm
  kind := by
    rintro _ v _ ⟨rfl, -⟩
    match v.value with
    | .procedure (.primitive p) => exact .primitive p
    | .procedure (.closure k) => exact .closure k k
    | .atom _ | .nil | .pair _ | .unspecified => exact .other nofun nofun
  unspecified h := ⟨congrArg Node.unspecified h, Layout.data_of_leaf nofun⟩
  boolean b h := ⟨congrArg (Node.boolean b) h, Layout.data_of_leaf nofun⟩
  symbol h _ := ⟨congrArg (fun n : Node => Node.symbol _ n.span) h.1, Layout.data_of_leaf nofun⟩
  fault := by
    rintro _ s _ fault hf rfl
    refine ⟨rfl, ?_⟩
    rintro span ⟨⟩
    cases hf
  notASymbol form h :=
    ⟨congrArg (fun n : Node => EvalError.malformed (.notASymbol _ n.value) n.span) h.1, nofun⟩
  duplicateBinding h _ := ⟨congrArg (fun n : Node => EvalError.malformed _ n.span) h.1, nofun⟩
  notAProcedure := by
    rintro _ v _ s _ ⟨rfl, -⟩ rfl
    exact ⟨rfl, nofun⟩
  applyPrimitive := by
    rintro L v _ p args args' s _ m _ ⟨rfl, h⟩ - - ha rfl
    exact applyPrimitive_alike p s h ha
  enterClosure := by
    rintro L held _ v _ k k' args args' s _ m _ ⟨rfl, h⟩ rfl ⟨rfl, -⟩ hk hk' ha rfl
    obtain ⟨rfl, hargs⟩ := eq_of_values ha
    cases hk.symm.trans hk'
    exact enterClosure_self s h hargs
  bindGlobal := by
    rintro L f _ n n' e e' name held _ v _ m _ ⟨rfl, h⟩ rfl rfl - - - ⟨rfl, hv⟩
    exact bindGlobal_self h hv
  assigned := by
    rintro L f _ n _ rfl ⟨rfl, -⟩
    cases hs : n.value.symbol? with
    | none => exact .inl ⟨rfl, rfl⟩
    | some a =>
      refine .inr ⟨a, a, rfl, rfl, ?_⟩
      rintro v _ m _ ⟨rfl, h⟩ ⟨rfl, hv⟩
      exact assignName_self n.span h hv
  lambda := by
    rintro L f _ ns _ s _ m _ ⟨rfl, h⟩ rfl ⟨rfl, hns⟩ rfl
    exact evalLambda_self hsplit s h hns
  enclose := by
    rintro L held _ f _ es es' m _ ⟨rfl, h⟩ rfl rfl hes - -
    obtain ⟨rfl, hdata⟩ := eq_of_entries hes
    rw [enclose_run]
    exact alike_ok le_rfl (h.enclose _ _ hdata) ⟨rfl, id⟩

/-- **A whole evaluation**, by induction on the room. -/
theorem evaluators (hsplit : split.RightOn built) (limit room : Nat) :
    (codeRun built).Evaluators (evalWith split limit room) (eval limit room) := by
  induction room with
  | zero =>
    rintro L h _ n _ f _ m _ ⟨rfl, hs⟩ rfl rfl ⟨rfl, -⟩
    refine alike_error ?_ nofun
    rw [Machine.store_note]
    exact hs
  | succ room ih => exact (simulation hsplit).step_alike trivial ih

/-- What two ways of taking lists apart have in common: the outcome, the separation of the store
after it, and that no list was found to be improper. -/
theorem evalWith_eq (hsplit : split.RightOn built) (limit room : Nat) (h : List Ref) {n : Node}
    (f : FrameId) (hs : Separated built L m.store) (hn : L.Reads .expression n) :
    evalWith split limit room h n f m = eval limit room h n f m ∧
      match eval limit room h n f m with
      | .ok _ m' => ∃ L', L ≤ L' ∧ Separated built L' m'.store
      | .error e m' => (∃ L', L ≤ L' ∧ Separated built L' m'.store) ∧
        ∀ span, e ≠ .malformed .improperList span := by
  have hal := evaluators hsplit limit room (h := h) (f := f) ⟨rfl, hs⟩ rfl rfl ⟨rfl, hn⟩
  revert hal
  cases evalWith split limit room h n f m with
  | ok v m₁ =>
    intro hal
    obtain ⟨_, _, L', hr, hle, ⟨rfl, hs'⟩, rfl, -⟩ := hal.of_ok fun _ => id
    rw [hr]
    exact ⟨rfl, L', hle, hs'⟩
  | error e m₁ =>
    intro hal
    obtain hf | ⟨e', m₁', L', hr, hle, ⟨rfl, hs'⟩, rfl, hne⟩ := hal.of_error fun _ => id
    · exact hf.elim
    · rw [hr]
      exact ⟨rfl, ⟨L', hle, hs'⟩, hne⟩

end codeRun

end MiniScheme
