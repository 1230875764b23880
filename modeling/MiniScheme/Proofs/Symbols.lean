import Mathlib.Order.CompletePartialOrder
import MiniScheme.Proofs.Grammar
import MiniScheme.Proofs.Invariant
import MiniScheme.Proofs.Lists
import MiniScheme.Proofs.Script
import MiniScheme.Proofs.Tokenization
import MiniScheme.Proofs.Updates

/-!
# Where names come from

Every name that turns up in a run was read from a text, or it belongs to a primitive or to a closure
that has none of its own. So a character that is in none of the texts, or that ends an atom where it
is in one, is in no symbol of the store, in no name of a closure and in no name that an error
mentions.

* `Store.Avoids` says of a store that no symbol and no closure has the character in its name.

## Results

* `Datum.avoids_of_parse`: the symbols that are read.
* `symbolConduct.kept`: evaluation makes up no names.
* `World.avoids_evaluate`: one source.
-/

namespace MiniScheme

variable {c : Char}

/-- The value is no symbol with the character in its name. -/
def Node.Avoids (c : Char) (n : Node) : Prop :=
  ∀ name, n.value.symbol? = some name → c ∉ name.toList

theorem Node.avoids_leaf {v : Value} {span : Span} (h : v.symbol? = none) :
    Node.Avoids c ⟨v, span⟩ := by
  intro name hname
  rw [show v.symbol? = some name from hname] at h
  cases h

/-- No name that the error mentions has the character in it. -/
def EvalError.Avoids (c : Char) (e : EvalError) : Prop := ∀ name ∈ e.names, c ∉ name.toList

/-- The character is in no name that is there without having been read. -/
def Foreign (c : Char) : Prop :=
  c ∉ (default : Closure).displayName.toList ∧ ∀ p ∈ Primitive.all, c ∉ p.name.toList

instance (c : Char) : Decidable (Foreign c) := inferInstanceAs (Decidable (_ ∧ _))

/-- No symbol of the store, be it data or code, and no closure has the character in its name. -/
structure Store.Avoids (c : Char) (s : Store) : Prop where
  cell : ∀ d half, ((s.cell d).half half).Avoids c
  binding : ∀ {f name v}, (s.frame f).bindings.get? name = some v → v.Avoids c
  body : ∀ k, (s.closure k).body.Avoids c
  name : ∀ {k name}, (s.closure k).name = some name → c ∉ name.toList

namespace Store.Avoids

variable {s : Store}

theorem empty : Store.empty.Avoids c where
  cell d half := by cases half <;> exact Node.avoids_leaf rfl
  binding := nofun
  body k := Node.avoids_leaf rfl
  name := nofun

theorem lookup (h : s.Avoids c) {f : FrameId} {name : String} {v : Node}
    (hv : s.lookup? f name = some v) : v.Avoids c := by
  obtain ⟨g, -, hg⟩ := List.exists_of_findSome?_eq_some hv
  exact h.binding hg

theorem elementsWithin (h : s.Avoids c) {fuel : Nat} {v : Value} {items : List Node}
    (hi : s.elementsWithin fuel v = some items) : ∀ x ∈ items, x.Avoids c := by
  intro x hx
  obtain ⟨d, rfl⟩ := Store.exists_car_of_mem hi x hx
  exact h.cell d .car

theorem displayName (h : s.Avoids c) (hc : Foreign c) (k : ClosureId) :
    c ∉ (s.closure k).displayName.toList := by
  unfold Closure.displayName
  cases hk : (s.closure k).name with
  | none => exact hc.1
  | some name => exact h.name hk

/-! ## Operations -/

theorem newCell (h : s.Avoids c) {car cdr : Node} (hcar : car.Avoids c) (hcdr : cdr.Avoids c) :
    (s.newCell car cdr).2.Avoids c where
  cell d half := by
    rcases Store.half_newCell s car cdr d half with heq | heq | heq <;> rw [heq]
    · exact hcar
    · exact hcdr
    · exact h.cell d half
  binding hv := h.binding hv
  body k := h.body k
  name hk := h.name hk

theorem newTail (h : s.Avoids c) (stop : Nat) {items : List Node}
    (hitems : ∀ x ∈ items, x.Avoids c) :
    (s.newTail stop items).2.Avoids c ∧ (s.newTail stop items).1.Avoids c := by
  induction items with
  | nil => exact ⟨h, Node.avoids_leaf rfl⟩
  | cons item items ih =>
    obtain ⟨hitem, hitems⟩ := List.forall_mem_cons.1 hitems
    obtain ⟨htail, hnode⟩ := ih hitems
    exact ⟨htail.newCell hitem hnode, Node.avoids_leaf rfl⟩

theorem newFrame (h : s.Avoids c) (outer : Option FrameId) {entries : List (String × Node)}
    (he : ∀ e ∈ entries, e.2.Avoids c) :
    (s.newFrame outer (Table.empty.insertAll entries)).2.Avoids c where
  cell := h.cell
  binding hv := (Store.of_get?_newFrame hv).elim (he _) h.binding
  body := h.body
  name := h.name

theorem newClosure (h : s.Avoids c) {params : List String} {body : Node} {f : FrameId}
    (hbody : body.Avoids c) : (s.newClosure ⟨none, params, body, f⟩).2.Avoids c where
  cell := h.cell
  binding hv := h.binding hv
  body l := by
    rw [Store.closure_newClosure]
    split
    · exact hbody
    · exact h.body l
  name {l name} hl := by
    rw [Store.closure_newClosure] at hl
    split at hl
    · cases hl
    · exact h.name hl

theorem withRegistries (h : s.Avoids c) (r : Registries) :
    Store.Avoids c { s with registries := r } := ⟨h.cell, h.binding, h.body, h.name⟩

theorem enclose (h : s.Avoids c) (held : List Ref) (f : FrameId) {entries : List (String × Node)}
    (he : ∀ e ∈ entries, e.2.Avoids c) : (s.enclose held f entries).2.Avoids c :=
  (h.newFrame (some f) he).withRegistries _

theorem setHalf (h : s.Avoids c) (d : CellId) (half : Half) {n : Node} (hn : n.Avoids c) :
    (s.setHalf d half n).Avoids c where
  cell d' half' := by
    rcases Store.half_setHalf s d d' half half' n with heq | heq <;> rw [heq]
    · exact hn
    · exact h.cell d' half'
  binding hv := h.binding hv
  body k := h.body k
  name hk := h.name hk

theorem bind (h : s.Avoids c) (f : FrameId) (name : String) {n : Node} (hn : n.Avoids c) :
    (s.bind f name n).Avoids c where
  cell := h.cell
  binding hv := (Store.of_get?_bind hv).elim (fun heq => heq ▸ hn) h.binding
  body := h.body
  name := h.name

theorem nameFresh (h : s.Avoids c) (held : List Ref) (v : Value) {name : String}
    (hname : c ∉ name.toList) : (MiniScheme.nameFresh held v name s).Avoids c := by
  unfold MiniScheme.nameFresh
  split
  · split
    · refine ⟨h.cell, h.binding, fun l => ?_, fun {l name'} hl => ?_⟩
      · rw [Store.closure_nameClosure]
        split
        · exact h.body l
        · exact h.body l
      · rw [Store.closure_nameClosure] at hl
        split at hl
        · cases hl
          exact hname
        · exact h.name hl
    · exact h
  · exact h

theorem clear (h : s.Avoids c) (f : FrameId) : (s.clear f).Avoids c where
  cell := h.cell
  binding {g name v} hv := by
    rw [Store.frame_clear] at hv
    split at hv
    · cases hv
    · exact h.binding hv
  body := h.body
  name hk := h.name hk

theorem release (h : s.Avoids c) (roots : List Ref) (f : FrameId) : (s.release roots f).Avoids c :=
  Store.release_induction (fun h r => h.withRegistries r) (fun h f => h.clear f) h roots f

end Store.Avoids

/-! ## What is read -/

/-- No symbol of the datum has the character in its name. -/
inductive Datum.Avoids (c : Char) : Datum → Prop
  | atom {a : Atom} {span : Span} (h : ∀ name, a = .symbol name → c ∉ name.toList) :
      Avoids c (.atom a span)
  | list {items : List Datum} {span : Span} (h : ∀ d ∈ items, Avoids c d) :
      Avoids c (.list items span)

/-- The token is no symbol with the character in its name. -/
def Token.Avoids (c : Char) (t : Token) : Prop :=
  ∀ name, t.kind = .atom (.symbol name) → c ∉ name.toList

/-- A token is a piece of its text, and a symbol is made of atom characters. -/
theorem TokenOf.avoids {cs : List Char} {t : Token} (h : TokenOf cs t)
    (hc : c ∈ cs → isAtomChar c = false) : t.Avoids c := by
  intro name hname hmem
  obtain ⟨before, text, after, rfl, -, hkind, -⟩ := h
  rw [hname] at hkind
  cases hkind with
  | atom hrun ha =>
    cases ha
    have htext : c ∈ text := by simpa using hmem
    have hatom := hc (by simp [htext])
    rw [hrun c htext] at hatom
    cases hatom

theorem tokens_avoid {source : String} {ts : List Token} (h : tokenize source = .ok ts)
    (hc : c ∈ source.toList → isAtomChar c = false) : ∀ t ∈ ts, t.Avoids c :=
  fun t ht => ((isTokenization_of_tokenize h).pieces t ht).avoids hc

mutual

theorem Spells.avoids : ∀ {ts : List Token} {d : Datum}, Spells ts d →
    (∀ t ∈ ts, t.Avoids c) → d.Avoids c
  | _, _, .atom a span, hts => .atom fun name ha => hts _ List.mem_cons_self name (ha ▸ rfl)
  | _, _, .list first last h, hts => .list (h.avoids fun t ht => hts t (by simp [ht]))

theorem SpellsAll.avoids : ∀ {ts : List Token} {ds : List Datum}, SpellsAll ts ds →
    (∀ t ∈ ts, t.Avoids c) → ∀ d ∈ ds, d.Avoids c
  | _, _, .nil, _ => nofun
  | _, _, .cons head tail, hts => by
    obtain ⟨hhead, htail⟩ := List.forall_mem_append.1 hts
    exact List.forall_mem_cons.2 ⟨head.avoids hhead, tail.avoids htail⟩

end

/-- **The symbols that are read** avoid a character if it is not in the text, or it ends atoms. -/
theorem Datum.avoids_of_parse {limit : Nat} {source : String} {d : Datum}
    (h : parse limit source = .ok d) (hc : c ∈ source.toList → isAtomChar c = false) :
    d.Avoids c := by
  unfold parse at h
  split at h
  · cases h
  · rename_i ts htokens
    exact (readOnly_eq_ok_iff.1 h).1.avoids (tokens_avoid htokens hc)

namespace Store.Avoids

mutual

/-- Building the pairs of a datum brings in no other symbols. -/
theorem load : ∀ {s : Store} {d : Datum}, s.Avoids c → d.Avoids c →
    (s.load d).2.Avoids c ∧ (s.load d).1.Avoids c
  | _, .atom (.symbol name) span, h, .atom ha => by
    refine ⟨h, ?_⟩
    rintro _ ⟨⟩
    exact ha name rfl
  | _, .atom (.integer _) span, h, _ => ⟨h, Node.avoids_leaf rfl⟩
  | _, .atom (.boolean _) span, h, _ => ⟨h, Node.avoids_leaf rfl⟩
  | s, .list items span, h, .list hi => by
    obtain ⟨hall, hnodes⟩ := loadAll h hi
    obtain ⟨hstore, hnode⟩ := hall.newTail span.stop hnodes
    exact ⟨hstore, hnode⟩

theorem loadAll : ∀ {s : Store} {ds : List Datum}, s.Avoids c → (∀ d ∈ ds, d.Avoids c) →
    (s.loadAll ds).2.Avoids c ∧ ∀ n ∈ (s.loadAll ds).1, n.Avoids c
  | _, [], h, _ => ⟨h, nofun⟩
  | s, d :: ds, h, hds => by
    obtain ⟨hd, hds⟩ := List.forall_mem_cons.1 hds
    obtain ⟨hstore, hnode⟩ := load h hd
    obtain ⟨hall, hnodes⟩ := loadAll hstore hds
    exact ⟨hall, List.forall_mem_cons.2 ⟨hnode, hnodes⟩⟩

end

end Store.Avoids

/-! ## The conduct -/

/-- No name with the character in it turns up. -/
def symbolConduct (c : Char) : Conduct Unit where
  machine _ m := m.store.Avoids c
  span _ _ := True
  frame _ _ := True
  value _ n := n.Avoids c
  code _ _ n := n.Avoids c
  definition _ _ _ := True
  name _ name := c ∉ name.toList
  error _ e := e.Avoids c

namespace symbolConduct

variable {m : Machine}

theorem ends_ok {α : Type} {Q : Unit → α → Prop} {x : α} (h : m.store.Avoids c) (hq : Q () x) :
    (symbolConduct c).Ends () Q (.ok x m) :=
  ⟨(), le_rfl, h, hq⟩

theorem ends_error {α : Type} {Q : Unit → α → Prop} {e : EvalError} (h : m.store.Avoids c)
    (he : e.Avoids c) : (symbolConduct c).Ends () Q (.error e m) :=
  ⟨(), le_rfl, h, he⟩

/-- Primitives make integers, booleans and pairs, and hand out halves of pairs. -/
theorem change {p : Primitive} {span : Span} {f : Store → Node × Store} {s : Store}
    (h : s.Avoids c) (hf : p.Change (Node.Avoids c) span f) :
    (f s).2.Avoids c ∧ (f s).1.Avoids c := by
  cases hf with
  | integer n => exact ⟨h, Node.avoids_leaf rfl⟩
  | boolean b => exact ⟨h, Node.avoids_leaf rfl⟩
  | list hargs _ =>
    obtain ⟨hstore, hnode⟩ := h.newTail span.stop hargs
    exact ⟨hstore, hnode⟩
  | cons ha hb => exact ⟨h.newCell ha hb, Node.avoids_leaf rfl⟩
  | half half ha hc => exact ⟨h, h.cell _ half⟩
  | setHalf half ha hb hc => exact ⟨h.setHalf _ half hb, Node.avoids_leaf rfl⟩

/-- **Evaluation makes up no names.** -/
theorem kept (hc : Foreign c) : (symbolConduct c).Kept where
  span_mono _ h := h
  frame_mono _ h := h
  value_mono _ h := h
  code_mono _ h := h
  definition_mono _ _ h := h
  note {_ m} event h := by
    change (m.note event).store.Avoids c
    rw [Machine.store_note]
    exact h
  code_span _ := trivial
  code_name h hname := h _ hname
  item hm _ _ hi hx := hm.elementsWithin hi _ (List.mem_of_getElem? hx)
  constant h _ _ := h
  quoted h := h
  boolean _ _ := Node.avoids_leaf rfl
  symbol h hname := by
    rintro _ ⟨⟩
    exact h _ hname
  unspecified _ := Node.avoids_leaf rfl
  found hm _ _ _ hv := hm.lookup hv
  value_name h hname := h _ hname
  primitive_name p := hc.2 p p.mem_all
  located _ h := h
  mismatch _ _ _ _ := nofun
  divisionByZero _ _ := nofun
  change hm _ _ _ hf := ⟨(), le_rfl, change hm hf⟩
  enterClosure {_ held v k args s m} hm _ _ hargs _ := by
    obtain ⟨log, hrun⟩ := enterClosure_run held k args s m
    rw [hrun]
    split
    · exact ends_ok (hm.enclose held _ fun e he => hargs e.2 (List.of_mem_zip he).2)
        ⟨trivial, hm.body k⟩
    · exact ends_error hm (List.forall_mem_singleton.2 (hm.displayName hc k))
  bindGlobal {_ f n e name held v m} hm _ _ _ hname hv := by
    obtain ⟨log, hrun⟩ := bindGlobal_run held f name v m
    rw [hrun]
    exact ends_ok ((hm.nameFresh held v.value hname).bind _ name hv) trivial
  assignName {_ f n name v m} hm _ hn hname hv := by
    rw [assignName_run]
    cases m.store.owner? f name with
    | some g => exact ends_ok (hm.bind g name hv) trivial
    | none => exact ends_error hm (List.forall_mem_singleton.2 (hn name hname))
  newClosure hm _ _ hbody _ := ends_ok (hm.newClosure hbody) (Node.avoids_leaf rfl)
  enclose hm _ hvalues _ _ := ends_ok (hm.enclose _ _ hvalues) trivial

end symbolConduct

/-! ## Sessions -/

namespace World

variable {w : World}

/-- **One source**: the store, and the value or what the error mentions. -/
theorem avoids_evaluate (hc : Foreign c) (h : w.store.Avoids c) (session : Session)
    (source : String) (hsource : c ∈ source.toList → isAtomChar c = false) :
    (w.evaluate session source).2.store.Avoids c ∧
      (∀ v, (w.evaluate session source).1 = .ok v → v.Avoids c) ∧
      ∀ e, (w.evaluate session source).1 = .error (.eval e) → e.Avoids c := by
  cases hparse : parse session.limit source with
  | error e =>
    rw [evaluate_of_error hparse]
    refine ⟨?_, nofun, fun _ he => by cases he⟩
    rw [store, Machine.store_note]
    exact h
  | ok d =>
    obtain ⟨hload, hnode⟩ := h.load (Datum.avoids_of_parse hparse hsource)
    have hends := (symbolConduct.kept hc).eval_ends (w := ()) (m := w.machine.reading source d)
      (f := session.global) (fun _ _ _ _ _ => trivial) session.limit session.limit
      ((w.store.load d).1.refs ++ w.roots) hload trivial hnode
    rw [evaluate_of_ok hparse]
    revert hends
    generalize eval session.limit session.limit _ _ _ _ = r
    cases r with
    | ok v m' =>
      rintro ⟨_, -, hm, hv⟩
      refine ⟨hm, ?_, fun _ he => by cases he⟩
      rintro _ ⟨⟩
      exact hv
    | error e m' =>
      rintro ⟨_, -, hm, he⟩
      refine ⟨hm, nofun, ?_⟩
      rintro _ ⟨⟩
      exact he

/-- Sessions on which nothing has run yet. -/
theorem avoids_ofLimits (recording : Bool) (limits : List Nat) :
    (ofLimits recording limits).store.Avoids c := by
  refine ofLimits_induction (P := fun w => w.store.Avoids c) recording limits .empty
    fun w limit h => h.newFrame none fun e he => ?_
  obtain ⟨p, -, rfl⟩ := List.mem_map.1 he
  exact Node.avoids_leaf rfl

end World

end MiniScheme
