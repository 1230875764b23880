import MiniScheme.Error
import MiniScheme.Proofs.Grammar
import MiniScheme.Proofs.Tokenization

/-!
# Ranges of what is read

Every range that comes out of the reader is a range of the text: that of a token, of a list from
its first parenthesis to its last, or of an error. The cells that a list is built of reach from
an item to the end of the list, and since items stand before it these are ranges as well.

`Bounds` says what the texts are known to have in common: how long they are at most, and whether
the name `list` is mentioned by none of them.

## Results

* `within_of_parse`: where an error of the reader points.
* `laid_of_parse`: a datum is laid out inside its text.
* `Datum.Laid.written`: the pairs of a datum have ranges inside its text.
-/

namespace MiniScheme

theorem utf8ByteSize_eq (source : String) : source.utf8ByteSize = byteSize source.toList := by
  have h (cs : List Char) : (String.ofList cs).utf8ByteSize = byteSize cs := by
    induction cs with
    | nil => rfl
    | cons c cs ih =>
      rw [String.ofList_cons]
      simp [ih]
  rw [← h, String.ofList_toList]

/-- The range is one of a text of `n` bytes. -/
def Span.Within (n : Nat) (s : Span) : Prop := s.start ≤ s.stop ∧ s.stop ≤ n

/-- The text mentions a name. -/
def Mentions (source name : String) : Prop :=
  ∃ ts, tokenize source = .ok ts ∧ ∃ t ∈ ts, t.kind = .atom (.symbol name)

/-- What is known of the texts that were read. -/
structure Bounds where
  /-- none of them has more bytes -/
  size : Nat
  /-- none of them mentions `list` -/
  listless : Prop

/-- The text is one of those of which the bounds tell. -/
structure Bounds.Covers (b : Bounds) (source : String) : Prop where
  size : source.utf8ByteSize ≤ b.size
  listless : b.listless → ¬Mentions source Primitive.list.name

variable {b : Bounds} {source : String} {limit : Nat}

/-! ## Tokens and errors -/

theorem Bounds.Covers.within {ts : List Token} (hb : b.Covers source)
    (h : tokenize source = .ok ts) {t : Token} (ht : t ∈ ts) : t.span.Within b.size := by
  have htoken := (isTokenization_of_tokenize h).pieces t ht
  have hsize := hb.size
  rw [utf8ByteSize_eq] at hsize
  exact ⟨Nat.le_of_lt htoken.nonempty, Nat.le_trans htoken.stop_le hsize⟩

/-- An error of the reader points at one of the tokens. -/
theorem mem_of_readWith_error {stack : List OpenList} {ts rest : List Token} {e : ReadError}
    {span : Span} (h : readWith limit stack ts = (.error e, rest)) (he : e.span? = some span) :
    ∃ t ∈ ts, t.span = span := by
  induction ts generalizing stack with
  | nil =>
    cases stack with
    | nil =>
      cases h
      cases he
    | cons o stack =>
      cases h
      cases he
  | cons t ts ih =>
    have hlater {stack' : List OpenList} (h : readWith limit stack' ts = (.error e, rest)) :
        ∃ u ∈ t :: ts, u.span = span := by
      obtain ⟨u, hu, hspan⟩ := ih h
      exact ⟨u, List.mem_cons_of_mem t hu, hspan⟩
    obtain ⟨kind, tspan⟩ := t
    cases kind with
    | opening =>
      by_cases hopen : stack.length < limit
      · simp only [readWith, if_pos hopen] at h
        exact hlater h
      · simp only [readWith, if_neg hopen] at h
        cases h
        cases he
        exact ⟨_, List.mem_cons_self, rfl⟩
    | closing =>
      match stack with
      | [] =>
        cases h
        cases he
        exact ⟨_, List.mem_cons_self, rfl⟩
      | [o] => cases h
      | o :: p :: stack => exact hlater h
    | atom a =>
      match stack with
      | [] => cases h
      | o :: stack => exact hlater h

/-- **An error of the reader** points inside the text. -/
theorem within_of_parse {e : ReadError} {span : Span} (hb : b.Covers source)
    (h : parse limit source = .error e) (he : e.span? = some span) : span.Within b.size := by
  unfold parse at h
  split at h
  · rename_i e' htokens
    cases h
    cases he
    obtain ⟨before, run, after, ho, rfl, -⟩ := isFirstOversized_of_tokenize htokens
    have hsize := hb.size
    rw [utf8ByteSize_eq, ho.text] at hsize
    simp only [Span.Within, place, byteSize_append] at hsize ⊢
    omega
  · rename_i ts htokens
    unfold readOnly at h
    rw [readDatum_eq] at h
    split at h
    · cases h
    · rename_i d t rest hread
      cases h
      cases he
      have hstart : Reading limit [] [] := rfl
      obtain ⟨used, rfl, -⟩ := spells_of_readWith hstart hread
      exact hb.within htokens (List.mem_append_right used List.mem_cons_self)
    · rename_i e' rest hread
      cases h
      obtain ⟨t, ht, rfl⟩ := mem_of_readWith_error hread he
      exact hb.within htokens ht

/-! ## Data -/

namespace Datum

mutual

/-- The datum is laid out inside the text: its range is one of the text, and its items end before
it does. -/
def Laid (b : Bounds) : Datum → Prop
  | atom a span => span.Within b.size ∧ (b.listless → a ≠ .symbol Primitive.list.name)
  | list items span => span.Within b.size ∧ LaidAll b span.stop items

/-- Several data are laid out inside the text and end before `stop`. -/
def LaidAll (b : Bounds) (stop : Nat) : List Datum → Prop
  | [] => True
  | d :: ds => (d.Laid b ∧ d.span.stop ≤ stop) ∧ LaidAll b stop ds

end

theorem Laid.within {d : Datum} (h : d.Laid b) : d.span.Within b.size := by
  cases d with
  | atom a span => exact h.1
  | list items span => exact h.1

end Datum

/-- The token has a range inside the text, and it is not the name `list` if that is not
mentioned. -/
def Token.Laid (b : Bounds) (t : Token) : Prop :=
  t.span.Within b.size ∧ (b.listless → t.kind ≠ .atom (.symbol Primitive.list.name))

theorem Spells.stop_le {ts : List Token} {d : Datum} {stop : Nat} (h : Spells ts d)
    (hts : ∀ t ∈ ts, t.span.stop ≤ stop) : d.span.stop ≤ stop := by
  cases h with
  | atom a span => exact hts _ List.mem_cons_self
  | list first last h =>
    have hfirst := hts ⟨.opening, first⟩ List.mem_cons_self
    have hlast := hts ⟨.closing, last⟩ (by simp)
    exact Nat.max_le.2 ⟨hfirst, hlast⟩

mutual

/-- A datum is laid out inside the text if its tokens are, one after the other. -/
theorem Spells.laid : ∀ {ts : List Token} {d : Datum}, Spells ts d →
    ts.Pairwise (fun t u => t.span.stop ≤ u.span.start) → (∀ t ∈ ts, t.Laid b) → d.Laid b
  | _, _, .atom a span, _, hts => by
    have ht := hts _ List.mem_cons_self
    exact ⟨ht.1, fun hlist ha => ht.2 hlist (ha ▸ rfl)⟩
  | _, _, @Spells.list ts _ first last h, hordered, hts => by
    obtain ⟨hfirst, -⟩ := hts ⟨.opening, first⟩ List.mem_cons_self
    obtain ⟨hlast, -⟩ := hts ⟨.closing, last⟩ (by simp)
    obtain ⟨hinner, -, hbefore⟩ := List.pairwise_append.1 (List.pairwise_cons.1 hordered).2
    refine ⟨⟨?_, Nat.max_le.2 ⟨hfirst.2, hlast.2⟩⟩, ?_⟩
    · exact (Nat.min_le_left _ _).trans (hfirst.1.trans (Nat.le_max_left _ _))
    · refine h.laid hinner (fun t ht => ⟨hts t (by simp [ht]), ?_⟩)
      have hle := hbefore t ht ⟨.closing, last⟩ List.mem_cons_self
      exact hle.trans (hlast.1.trans (Nat.le_max_right _ _))

/-- Several data are laid out inside the text if their tokens are. -/
theorem SpellsAll.laid {stop : Nat} : ∀ {ts : List Token} {ds : List Datum}, SpellsAll ts ds →
    ts.Pairwise (fun t u => t.span.stop ≤ u.span.start) →
    (∀ t ∈ ts, t.Laid b ∧ t.span.stop ≤ stop) → Datum.LaidAll b stop ds
  | _, _, .nil, _, _ => trivial
  | _, _, .cons head tail, hordered, hts => by
    obtain ⟨hhead, htail, -⟩ := List.pairwise_append.1 hordered
    have hts' := List.forall_mem_append.1 hts
    exact ⟨⟨head.laid hhead fun t ht => (hts'.1 t ht).1,
      head.stop_le fun t ht => (hts'.1 t ht).2⟩, tail.laid htail hts'.2⟩

end

/-- **A datum is laid out inside its text.** -/
theorem laid_of_parse {d : Datum} (hb : b.Covers source) (h : parse limit source = .ok d) :
    d.Laid b := by
  unfold parse at h
  split at h
  · cases h
  · rename_i ts htokens
    have hspells := (readOnly_eq_ok_iff.1 h).1
    refine hspells.laid (isTokenization_of_tokenize htokens).ordered fun t ht => ?_
    exact ⟨hb.within htokens ht, fun hlist hkind => hb.listless hlist ⟨ts, htokens, t, ht, hkind⟩⟩

/-! ## Pairs -/

/-- The node is as it was read: it has a range of the text, and nothing in it leads to `list` if
that is not mentioned. -/
structure Node.Written (b : Bounds) (n : Node) : Prop where
  within : n.span.Within b.size
  name : b.listless → n.value.symbol? ≠ some Primitive.list.name
  value : b.listless → n.value ≠ .procedure (.primitive .list)

namespace Store

/-- The cells that were built between the two stores hold nodes that are as they were read. -/
def Writes (b : Bounds) (s t : Store) : Prop :=
  ∀ c : CellId, s.cells.size ≤ c.index → (t.cell c).car.Written b ∧ (t.cell c).cdr.Written b

theorem written_leaf {v : Value} {span : Span} (hs : span.Within b.size)
    (hv : v.symbol? = none) (hp : ∀ p, v ≠ .procedure p) : Node.Written b ⟨v, span⟩ where
  within := hs
  name _ h := by
    rw [hv] at h
    cases h
  value _ := hp _

theorem writes_refl (s : Store) : Writes b s s := by
  intro c hc
  have hcell : s.cell c = default := by
    unfold cell
    rw [Array.getElem?_eq_none hc]
    rfl
  rw [hcell]
  have hnode : Node.Written b default := written_leaf ⟨Nat.le_refl _, Nat.zero_le _⟩ rfl nofun
  exact ⟨hnode, hnode⟩

theorem Writes.trans {s t u : Store} (h : Writes b s t) (h' : Writes b t u) (hgrows : Grows t u) :
    Writes b s u := by
  intro c hc
  by_cases hlt : c.index < t.cells.size
  · rw [hgrows.cell c hlt]
    exact h c hc
  · exact h' c (Nat.le_of_not_lt hlt)

theorem writes_newCell (s : Store) {car cdr : Node} (hcar : car.Written b)
    (hcdr : cdr.Written b) : Writes b s (s.newCell car cdr).2 := by
  intro c hc
  rw [cell_newCell]
  split
  · exact ⟨hcar, hcdr⟩
  · exact s.writes_refl c hc

/-- The cells of a list reach from an item to the end of the list. -/
theorem writes_newTail (s : Store) {stop : Nat} (hstop : stop ≤ b.size) {items : List Node}
    (hitems : ∀ x ∈ items, x.Written b ∧ x.span.stop ≤ stop) :
    Writes b s (s.newTail stop items).2 ∧ (s.newTail stop items).1.Written b := by
  induction items with
  | nil => exact ⟨s.writes_refl, written_leaf ⟨Nat.le_refl _, hstop⟩ rfl nofun⟩
  | cons item items ih =>
    obtain ⟨⟨hitem, hle⟩, hitems⟩ := List.forall_mem_cons.1 hitems
    obtain ⟨htail, hnode⟩ := ih hitems
    refine ⟨htail.trans (writes_newCell _ hitem hnode) (grows_newCell _ _ _), ?_⟩
    exact written_leaf ⟨hitem.within.1.trans hle, hstop⟩ rfl nofun

theorem span_load (s : Store) (d : Datum) : (s.load d).1.span = d.span := by
  cases d <;> rfl

end Store

namespace Datum

mutual

/-- **The pairs of a datum** and the node in front of them are as they were read. -/
theorem Laid.written : ∀ (s : Store) (d : Datum), d.Laid b →
    Store.Writes b s (s.load d).2 ∧ (s.load d).1.Written b
  | s, .atom a span, h => by
    refine ⟨s.writes_refl, h.1, fun hlist ha => h.2 hlist ?_, fun _ => nofun⟩
    cases a with
    | symbol name => exact congrArg Atom.symbol (Option.some.inj ha)
    | integer n => cases ha
    | boolean b => cases ha
  | s, .list items span, h => by
    obtain ⟨hspan, hitems⟩ := h
    obtain ⟨hwrites, hnodes⟩ := Laid.writtenAll s items hitems
    obtain ⟨htail, hnode⟩ := (s.loadAll items).2.writes_newTail hspan.2 hnodes
    exact ⟨hwrites.trans htail (Store.grows_newTail _ _ _), hspan, hnode.name, hnode.value⟩

theorem Laid.writtenAll {stop : Nat} : ∀ (s : Store) (ds : List Datum), LaidAll b stop ds →
    Store.Writes b s (s.loadAll ds).2 ∧
      ∀ x ∈ (s.loadAll ds).1, x.Written b ∧ x.span.stop ≤ stop
  | s, [], _ => ⟨s.writes_refl, nofun⟩
  | s, d :: ds, h => by
    obtain ⟨⟨hd, hle⟩, hds⟩ := h
    obtain ⟨hwrites, hnode⟩ := Laid.written s d hd
    obtain ⟨hrest, hnodes⟩ := Laid.writtenAll (s.load d).2 ds hds
    refine ⟨hwrites.trans hrest (Store.grows_loadAll _ ds),
      List.forall_mem_cons.2 ⟨⟨hnode, ?_⟩, hnodes⟩⟩
    rw [Store.span_load]
    exact hle

end

end Datum

end MiniScheme
