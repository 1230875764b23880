import MiniScheme.Proofs.Code.Separation
import MiniScheme.Proofs.Unfolding
import MiniScheme.Proofs.Script

/-!
# Code is never changed

Sessions read texts into pairs and hand out those inside quoted data. However a program uses
them, the others keep the content that the reader gave them, so that every list which evaluation
takes apart is the list that was read: it ends, and it is a proper one.

* `World.loadings` lists what the reader built in the course of a script.
* `Tidy` is the invariant of a world: its store is separated by a layout whose cells of code are
  exactly those that were built as code.

## Results

* `tidy_run`: every script of a text-driven host leaves the world tidy.
* `code_is_immutable`: the content of cells of code, and what evaluation asks of lists.
-/

namespace MiniScheme

/-- A datum that was built of pairs, and the store before. -/
structure Loading where
  store : Store
  datum : Datum

/-- The cell was built as code, with the given content. -/
def Loading.Builds (l : Loading) (c : CellId) (k : Cell) : Prop :=
  ∃ i, (l.datum.marks .expression)[i]? = some true ∧ c = ⟨l.store.cells.size + i⟩ ∧
    k = (l.store.load l.datum).2.cell c

/-- The cell was built as code by one of several loadings. -/
def BuiltBy (ls : List Loading) (c : CellId) (k : Cell) : Prop := ∃ l ∈ ls, l.Builds c k

namespace World

/-- What the reader builds when a session evaluates a source. -/
def loading (w : World) (session : Session) (source : String) : List Loading :=
  match parse session.limit source with
  | .ok d => [⟨w.store, d⟩]
  | .error _ => []

/-- What the reader builds for a command of a script. -/
def loadingOf (w : World) (c : Nat × Command) : List Loading :=
  match w.session? c.1, c.2.source? with
  | some session, some source => w.loading session source
  | _, _ => []

/-- What the reader builds in the course of a script. -/
def loadings (w : World) : Script → List Loading
  | [] => []
  | c :: cs => w.loadingOf c ++ (w.perform c).2.loadings cs

end World

/-! ## Reading a text -/

section

variable {built built' : CellId → Cell → Prop} {L : Layout} {s : Store}

/-- The layout after a datum was built: the new cells have the marks of the datum. -/
def Layout.load (L : Layout) (s : Store) (d : Datum) : Layout where
  mark c :=
    if c.index < s.cells.size then L.mark c
    else ((d.marks .expression)[c.index - s.cells.size]?).map fun b =>
      if b then .code ((s.load d).2.cell c) else .data

theorem Layout.mark_load_new (L : Layout) (s : Store) (d : Datum) {i : Nat} {b : Bool}
    (hb : (d.marks .expression)[i]? = some b) :
    (L.load s d).mark ⟨s.cells.size + i⟩ =
      some (if b then .code ((s.load d).2.cell ⟨s.cells.size + i⟩) else .data) := by
  simp only [Layout.load]
  rw [if_neg (by omega), Nat.add_sub_cancel_left, hb]
  rfl

theorem Separated.le_load (h : Separated built L s) (d : Datum) : L ≤ L.load s d := by
  intro c k hc
  simp only [Layout.load]
  rw [if_pos (h.lt_size hc), hc]

/-- A cell that the layout says something of is an old one or one of the new ones. -/
theorem Layout.mark_load_cases {d : Datum} {c : CellId} {k : Mark}
    (hc : (L.load s d).mark c = some k) :
    (c.index < s.cells.size ∧ L.mark c = some k) ∨
      ∃ i b, (d.marks .expression)[i]? = some b ∧ c = ⟨s.cells.size + i⟩ ∧
        k = if b then .code ((s.load d).2.cell c) else .data := by
  simp only [Layout.load] at hc
  split at hc
  · exact .inl ⟨‹_›, hc⟩
  · obtain ⟨b, hb, hk⟩ := Option.map_eq_some_iff.1 hc
    refine .inr ⟨c.index - s.cells.size, b, hb, ?_, hk.symm⟩
    rw [Nat.add_sub_cancel' (by omega)]

/-- **Reading a text** keeps the store separated, and gives an expression. -/
theorem Separated.load (h : Separated built L s) (d : Datum)
    (hbuilt : ∀ c k, built c k ∨ (Loading.mk s d).Builds c k → built' c k) :
    Separated built' (L.load s d) (s.load d).2 ∧
      (L.load s d).Reads .expression (s.load d).1 := by
  have hgrows := Store.grows_load s d
  have hle := h.le_load d
  have hsize := Layout.size_cells_load s .expression d
  obtain ⟨hreads, hsealed⟩ := Layout.reads_load (L := L.load s d) s .expression d (.refl _)
    fun i b hb => L.mark_load_new s d hb
  refine ⟨⟨?_, ?_, ?_, ?_⟩, hreads⟩
  · intro c k hc
    rcases Layout.mark_load_cases hc with ⟨hlt, hold⟩ | ⟨i, b, hb, rfl, hk⟩
    · obtain ⟨hbc, -, hk⟩ := h.code hold
      refine ⟨hbuilt c k (.inl hbc), Nat.lt_of_lt_of_le hlt hgrows.size, ?_⟩
      rw [hgrows.cell c hlt, hk]
    · cases b with
      | false => cases hk
      | true =>
        cases hk
        refine ⟨hbuilt _ _ (.inr ⟨i, hb, rfl, rfl⟩), ?_, rfl⟩
        rw [hsize]
        exact Nat.add_lt_add_left (List.getElem?_eq_some_iff.1 hb).1 _
  · intro c hc
    rcases Layout.mark_load_cases hc with ⟨hlt, hold⟩ | ⟨i, b, hb, rfl, hk⟩
    · obtain ⟨-, ha, hd⟩ := h.data hold
      rw [hgrows.cell c hlt]
      exact ⟨Nat.lt_of_lt_of_le hlt hgrows.size, ha.mono hle, hd.mono hle⟩
    · cases b with
      | true => cases hk
      | false =>
        refine ⟨?_, hsealed i hb⟩
        rw [hsize]
        exact Nat.add_lt_add_left (List.getElem?_eq_some_iff.1 hb).1 _
  · intro f name v hv
    have hframe : (s.load d).2.frame f = s.frame f := by rw [Store.frame, hgrows.frames]; rfl
    rw [hframe] at hv
    exact (h.binding hv).mono hle
  · intro k
    have hclosure : (s.load d).2.closure k = s.closure k := by
      rw [Store.closure, hgrows.closures]
      rfl
    rw [hclosure]
    exact (h.body k).mono hle

end

/-! ## Commands -/

/-- The store of the world is separated, with all that was built as code marked so. -/
def Tidy (ls : List Loading) (w : World) : Prop :=
  ∃ L, Separated (BuiltBy ls) L w.store ∧ ∀ c k, BuiltBy ls c k → L.mark c = some (.code k)

section

variable {ls : List Loading} {w : World}

theorem builtBy_append {ls' : List Loading} {c : CellId} {k : Cell} :
    BuiltBy (ls ++ ls') c k ↔ BuiltBy ls c k ∨ BuiltBy ls' c k := by
  simp [BuiltBy, or_and_right, exists_or]

theorem builtBy_singleton {l : Loading} {c : CellId} {k : Cell} :
    BuiltBy [l] c k ↔ l.Builds c k := by
  simp [BuiltBy]

theorem Tidy.cell_eq (h : Tidy ls w) {c : CellId} {k : Cell} (hc : BuiltBy ls c k) :
    w.store.cell c = k := by
  obtain ⟨L, hs, hmark⟩ := h
  exact (hs.code (hmark c k hc)).2.2

/-- The cells that the reader marks as code are those that it builds as code. -/
theorem Layout.mark_load_of_builds (L : Layout) {s : Store} {d : Datum} {c : CellId} {k : Cell}
    (h : (Loading.mk s d).Builds c k) : (L.load s d).mark c = some (.code k) := by
  obtain ⟨i, hi, rfl, rfl⟩ := h
  rw [Layout.mark_load_new L s d hi]
  rfl

/-- **One evaluation.** It keeps the world tidy, it takes apart only lists of unchanged code, and
it never finds an improper one. -/
theorem Tidy.evaluate (h : Tidy ls w) (session : Session) (source : String) {split : Splitter}
    (hsplit : split.RightOn (BuiltBy (ls ++ w.loading session source))) :
    session.evaluateWith split w.roots source w.machine =
        session.evaluate w.roots source w.machine ∧
      Tidy (ls ++ w.loading session source) (w.evaluate session source).2 ∧
      ∀ span, (session.evaluate w.roots source w.machine).1 ≠
        .error (.eval (.malformed .improperList span)) := by
  obtain ⟨L, hs, hmark⟩ := h
  unfold Tidy World.evaluate World.store Session.evaluate
  cases hparse : parse session.limit source with
  | error e =>
    have hload : w.loading session source = [] := by rw [World.loading, hparse]
    rw [hload, List.append_nil, Session.evaluateWith_of_error hparse,
      Session.evaluateWith_of_error hparse]
    simp only [Machine.store_note]
    exact ⟨trivial, ⟨L, hs, hmark⟩, nofun⟩
  | ok d =>
    have hload : w.loading session source = [⟨w.store, d⟩] := by rw [World.loading, hparse]
    rw [hload] at hsplit ⊢
    have hbuilt : ∀ c k, BuiltBy ls c k ∨ (Loading.mk w.store d).Builds c k →
        BuiltBy (ls ++ [⟨w.store, d⟩]) c k :=
      fun c k hc => builtBy_append.2 (hc.imp_right builtBy_singleton.2)
    obtain ⟨hs', hreads⟩ := hs.load d hbuilt
    have hmark' : ∀ c k, BuiltBy (ls ++ [⟨w.store, d⟩]) c k →
        (L.load w.store d).mark c = some (.code k) := by
      intro c k hc
      rcases builtBy_append.1 hc with hc | hc
      · exact hs.le_load d c _ (hmark c k hc)
      · exact L.mark_load_of_builds (builtBy_singleton.1 hc)
    have hrun := codeRun.evalWith_eq (m := w.machine.reading source d)
      (n := (w.machine.store.load d).1) hsplit session.limit session.limit
      ((w.machine.store.load d).1.refs ++ w.roots) session.global hs' hreads
    rw [Session.evaluateWith_of_ok hparse, Session.evaluateWith_of_ok hparse, hrun.1]
    replace hrun := hrun.2
    unfold eval at hrun ⊢
    revert hrun
    generalize evalWith elements? session.limit session.limit _ _ _ _ = r
    cases r with
    | ok v m' =>
      rintro ⟨L', hle, hs''⟩
      exact ⟨rfl, ⟨L', hs'', fun c k hc => hle c _ (hmark' c k hc)⟩, nofun⟩
    | error e m' =>
      rintro ⟨⟨L', hle, hs''⟩, hne⟩
      refine ⟨rfl, ⟨L', hs'', fun c k hc => hle c _ (hmark' c k hc)⟩, ?_⟩
      rintro span ⟨⟩
      exact hne span rfl

/-- **One command** of a text-driven host keeps the world tidy. -/
theorem Tidy.perform (h : Tidy ls w) {c : Nat × Command} (hc : c.2.isTextual = true) :
    Tidy (ls ++ w.loadingOf c) (w.perform c).2 := by
  obtain ⟨i, c⟩ := c
  have hold {w' : World} (hsame : c.source? = none ∨ w.session? i = none)
      (hs : ∀ L, Separated (BuiltBy ls) L w.store → Separated (BuiltBy ls) L w'.store) :
      Tidy (ls ++ w.loadingOf (i, c)) w' := by
    have hload : w.loadingOf (i, c) = [] := by
      unfold World.loadingOf
      rcases hsame with hsame | hsame <;> simp [hsame]
    rw [hload, List.append_nil]
    obtain ⟨L, hsep, hmark⟩ := h
    exact ⟨L, hs L hsep, hmark⟩
  generalize hw : (w.perform (i, c)).2 = w'
  have heffect := w.perform_effect i hc
  rw [hw] at heffect
  cases heffect with
  | none _ hsource =>
    refine hold ?_ fun _ hs => hs
    cases hi : w.session? i with
    | none => exact .inr rfl
    | some session => exact .inl (hsource session hi)
  | @evaluated _ session source _ hi hsource _ hstore =>
    have hload : w.loadingOf (i, c) = w.loading session source := by
      unfold World.loadingOf
      simp only [hi, hsource]
    rw [hload]
    obtain ⟨L, hsep, hmark⟩ := (h.evaluate session source (Splitter.rightOn_elements? _)).2.1
    exact ⟨L, hstore ▸ hsep, hmark⟩
  | @shared session other name target node _ _ hl =>
    -- the value was bound in one session, so it is data and may be bound in another
    exact hold (.inl rfl) fun L hs =>
      hs.bind other.global name (hs.lookup (World.lookup?_of_lookup hl))
  | @closed session _ => exact hold (.inl rfl) fun L hs => hs.release _ _

/-- **A whole script** keeps the world tidy. -/
theorem tidy_run {cs : Script} (h : Tidy ls w) (hcs : ∀ c ∈ cs, c.2.isTextual = true) :
    Tidy (ls ++ w.loadings cs) (w.run cs).2 := by
  induction cs generalizing ls w with
  | nil =>
    rw [World.loadings, List.append_nil]
    exact h
  | cons c cs ih =>
    have hstep := h.perform (hcs c List.mem_cons_self)
    have hrest := ih hstep fun d hd => hcs d (List.mem_cons_of_mem c hd)
    rwa [List.append_assoc] at hrest

theorem Tidy.openSession (h : Tidy ls w) (limit : Nat) : Tidy ls (w.openSession limit) := by
  obtain ⟨L, hs, hmark⟩ := h
  refine ⟨L, hs.newFrame none ?_, hmark⟩
  intro e he
  obtain ⟨p, -, rfl⟩ := List.mem_map.1 he
  exact Layout.data_of_leaf nofun

/-- Sessions on which nothing has run yet are tidy. -/
theorem tidy_ofLimits (recording : Bool) (limits : List Nat) :
    Tidy [] (World.ofLimits recording limits) := by
  unfold World.ofLimits
  have hstart : Tidy [] (World.empty recording) := by
    refine ⟨⟨fun _ => none⟩, .empty, ?_⟩
    rintro c k ⟨l, hl, -⟩
    cases hl
  generalize World.empty recording = w at hstart ⊢
  induction limits generalizing w with
  | nil => exact hstart
  | cons limit limits ih => exact ih _ (hstart.openSession limit)

end

/-- **Code is immutable.** Let any number of sessions work off a script in which the host makes no
values itself; programs may change and keep whatever they reach, and values may be shared. Then
every cell that the reader built as code still has its content, and so it is for the next source:
its evaluation takes apart only lists of unchanged cells. Whatever a way of taking lists apart
does with another value, be it a cycle on which it would never end, makes no difference. So no
evaluation meets an improper list. What is then to be printed, cycles in data included, is printed
in full: the printer ends, and more fuel changes no printed form. -/
theorem code_is_immutable (recording : Bool) (limits : List Nat) (history : Script)
    (htext : ∀ c ∈ history, c.2.isTextual = true) :
    let start := World.ofLimits recording limits
    let w := (start.run history).2
    (∀ c content, BuiltBy (start.loadings history) c content → w.store.cell c = content) ∧
      ∀ session ∈ w.sessions, ∀ source,
        (∀ split : Splitter,
          split.RightOn (BuiltBy (start.loadings history ++ w.loading session source)) →
          session.evaluateWith split w.roots source w.machine =
            session.evaluate w.roots source w.machine) ∧
        (∀ span, (session.evaluate w.roots source w.machine).1 ≠
          .error (.eval (.malformed .improperList span))) ∧
        ∀ fuel v, (w.evaluate session source).2.store.printFuel ≤ fuel →
          (w.evaluate session source).2.store.print fuel v =
            some ((w.evaluate session source).2.store.chars v) := by
  intro start w
  have htidy : Tidy (start.loadings history) w := by
    have h := tidy_run (tidy_ofLimits recording limits) htext
    rwa [List.nil_append] at h
  refine ⟨fun c content hc => htidy.cell_eq hc, fun session _ source => ⟨?_, ?_, ?_⟩⟩
  · intro split hsplit
    exact (htidy.evaluate session source hsplit).1
  · exact (htidy.evaluate session source (Splitter.rightOn_elements? _)).2.2
  · intro fuel v hfuel
    obtain ⟨u, hu, -⟩ := (w.evaluate session source).2.store.exists_unfolds [] v
    rw [hu.print_eq hfuel, hu.chars_eq]

/-- A procedure that closes a quoted list to a ring, shared with another session and called
there. The cell in front of the quoted list is code. -/
theorem code_is_immutable_beside_ring :
    let start := World.ofLimits false [9, 9]
    let history : Script := [(0, .run "(define q (quote (1 2)))"),
      (0, .run "(define f (lambda (x) (begin (set-cdr! q q) (set-car! (quote (0)) x))))"),
      (0, .share "f" 1), (1, .run "(f 3)"), (0, .run "q")]
    (∀ c ∈ history, c.2.isTextual = true) ∧
      ∃ content, BuiltBy (start.loadings history) ⟨3⟩ content ∧
        (start.run history).2.store.cell ⟨3⟩ = content := by
  intro start history
  have htext : ∀ c ∈ history, c.2.isTextual = true := by decide
  have hfirst : (start.loadings history)[0]?.map (fun l =>
      ((l.datum.marks .expression)[3]?, l.store.cells.size)) = some (some true, 0) := by
    decide +kernel
  obtain ⟨l, hl, hmark⟩ := Option.map_eq_some_iff.1 hfirst
  obtain ⟨hcode, hsize⟩ := Prod.ext_iff.1 hmark
  have hbuilt : BuiltBy (start.loadings history) ⟨3⟩ ((l.store.load l.datum).2.cell ⟨3⟩) := by
    refine ⟨l, List.mem_of_getElem? hl, 3, hcode, ?_, rfl⟩
    rw [show l.store.cells.size = 0 from hsize]
  exact ⟨htext, _, hbuilt, (code_is_immutable false [9, 9] history htext).1 _ _ hbuilt⟩

end MiniScheme
