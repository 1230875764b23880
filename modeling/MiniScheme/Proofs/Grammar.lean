import MiniScheme.Proofs.Lists
import MiniScheme.Proofs.Rereading
import MiniScheme.Proofs.Updates

/-!
# The grammar of expressions

An expression is an atom, or expressions between two parentheses. `Spells ts d` is that grammar,
with the tree that a derivation stands for: the tokens of `d` from left to right are `ts`. It
knows neither a stack nor a limit. The reader finds a derivation whenever there is one whose
tree is nested no deeper than its limit, and it finds no other.

* `Datum.depth` is the number of lists around the innermost atom or empty list.
* `Reading limit stack ts` says what the tokens read so far are when the lists of `stack` are
  open.
* `Store.Holds` says that a node is a tree built of pairs.

## Results

* `Spells.readWith_eq`: the tokens of a datum are consumed and nothing else is.
* `Reading.readWith_cons`: what the reader does with one token.
* `spells_of_readWith`: what was consumed are the tokens of the datum that comes out.
* `reader_accepts_exactly_the_grammar`: both, and the tree is the only one.
-/

namespace MiniScheme

mutual

/-- The tokens of the datum, from left to right, are these. An atom has the range of its token, a
list reaches from its first parenthesis to its last. -/
inductive Spells : List Token → Datum → Prop
  | atom (a : Atom) (span : Span) : Spells [⟨.atom a, span⟩] (.atom a span)
  | list {ts : List Token} {items : List Datum} (first last : Span) (h : SpellsAll ts items) :
      Spells (⟨.opening, first⟩ :: (ts ++ [⟨.closing, last⟩])) (.list items (first.merge last))

/-- The tokens of several data, one after the other, are these. -/
inductive SpellsAll : List Token → List Datum → Prop
  | nil : SpellsAll [] []
  | cons {ts us : List Token} {d : Datum} {ds : List Datum} (head : Spells ts d)
      (tail : SpellsAll us ds) : SpellsAll (ts ++ us) (d :: ds)

end

namespace Datum

mutual

/-- How many lists deep the datum is nested. -/
def depth : Datum → Nat
  | atom _ _ => 0
  | list items _ => depthAll items + 1

/-- How many lists deep the deepest of several data is nested. -/
def depthAll : List Datum → Nat
  | [] => 0
  | d :: ds => max d.depth (depthAll ds)

end

theorem depthAll_append (ds es : List Datum) :
    depthAll (ds ++ es) = max (depthAll ds) (depthAll es) := by
  induction ds with
  | nil => simp [depthAll]
  | cons d ds ih => simp [depthAll, ih, Nat.max_assoc]

theorem depth_le_depthAll {d : Datum} {ds : List Datum} (hd : d ∈ ds) :
    d.depth ≤ depthAll ds := by
  induction ds with
  | nil => cases hd
  | cons e ds ih =>
    rw [depthAll]
    rcases List.mem_cons.1 hd with rfl | hd
    · exact Nat.le_max_left _ _
    · exact Nat.le_trans (ih hd) (Nat.le_max_right _ _)

end Datum

theorem SpellsAll.append {ts us : List Token} {ds es : List Datum} (h : SpellsAll ts ds)
    (h' : SpellsAll us es) : SpellsAll (ts ++ us) (ds ++ es) := by
  induction ds generalizing ts with
  | nil =>
    cases h
    exact h'
  | cons d ds ih =>
    cases h with
    | cons head tail =>
      rw [List.append_assoc]
      exact .cons head (ih tail)

theorem Spells.singleton {ts : List Token} {d : Datum} (h : Spells ts d) : SpellsAll ts [d] := by
  have hcons := SpellsAll.cons h .nil
  rwa [List.append_nil] at hcons

/-! ## The reader follows a derivation -/

mutual

/-- **The tokens of a datum are consumed.** With room for the datum inside the open lists, the
reader has it complete after its last token. -/
theorem Spells.readWith_eq {limit : Nat} : ∀ {ts : List Token} {d : Datum}, Spells ts d →
    ∀ (stack : List OpenList) (rest : List Token), stack.length + d.depth ≤ limit →
      readWith limit stack (ts ++ rest) = Datum.deliver limit d stack rest
  | _, _, .atom a span, stack, rest, _ => Datum.readWith_atom limit stack a span rest
  | _, _, @Spells.list ts _ first last h, stack, rest, hroom => by
    rw [Datum.depth] at hroom
    have hopen : stack.length < limit := by omega
    have hstep : readWith limit stack (⟨.opening, first⟩ :: (ts ++ [⟨.closing, last⟩]) ++ rest) =
        readWith limit (⟨first, []⟩ :: stack) (ts ++ ⟨.closing, last⟩ :: rest) := by
      simp [readWith, hopen]
    rw [hstep, h.readWith_eq ⟨first, []⟩ stack _ (by omega), Datum.readWith_closing]
    simp [OpenList.close]

/-- The tokens of several data are consumed, and the data are items of the innermost list. -/
theorem SpellsAll.readWith_eq {limit : Nat} : ∀ {ts : List Token} {ds : List Datum},
    SpellsAll ts ds → ∀ (o : OpenList) (stack : List OpenList) (rest : List Token),
      stack.length + 1 + Datum.depthAll ds ≤ limit →
      readWith limit (o :: stack) (ts ++ rest) =
        readWith limit (⟨o.span, ds.reverse ++ o.items⟩ :: stack) rest
  | _, _, .nil, o, stack, rest, _ => rfl
  | _, _, @SpellsAll.cons _ us d _ head tail, o, stack, rest, hroom => by
    rw [Datum.depthAll] at hroom
    have hd : (o :: stack).length + d.depth ≤ limit := by rw [List.length_cons]; omega
    rw [List.append_assoc, head.readWith_eq (o :: stack) (us ++ rest) hd, Datum.deliver,
      tail.readWith_eq (o.add d) stack rest (by omega)]
    simp [OpenList.add]

end

/-! ## What the reader consumes is a derivation -/

/-- What was read while the lists of `stack` are open: up to each parenthesis what stands in
front of it, and after it the items of its list so far, with room for them. -/
def Reading (limit : Nat) : List OpenList → List Token → Prop
  | [], ts => ts = []
  | o :: stack, ts =>
    ∃ before inside, ts = before ++ ⟨.opening, o.span⟩ :: inside ∧ Reading limit stack before ∧
      SpellsAll inside o.items.reverse ∧
      stack.length + 1 + Datum.depthAll o.items.reverse ≤ limit

section

variable {limit : Nat} {o : OpenList} {stack : List OpenList} {ts us : List Token} {d : Datum}

/-- The open lists are within the limit. -/
theorem Reading.length_le (h : Reading limit stack ts) : stack.length ≤ limit := by
  cases stack with
  | nil => exact Nat.zero_le _
  | cons o stack =>
    obtain ⟨_, _, _, _, _, hfits⟩ := h
    rw [List.length_cons]
    omega

theorem Reading.open (h : Reading limit stack ts) (hroom : stack.length < limit) (span : Span) :
    Reading limit (⟨span, []⟩ :: stack) (ts ++ [⟨.opening, span⟩]) :=
  ⟨ts, [], rfl, h, .nil, hroom⟩

theorem Reading.add (h : Reading limit (o :: stack) ts) (hd : Spells us d)
    (hroom : stack.length + 1 + d.depth ≤ limit) :
    Reading limit (o.add d :: stack) (ts ++ us) := by
  obtain ⟨before, inside, rfl, hstack, hitems, hfits⟩ := h
  refine ⟨before, inside ++ us, by simp [OpenList.add], hstack, ?_, ?_⟩
  · rw [OpenList.add, List.reverse_cons]
    exact hitems.append hd.singleton
  · rw [OpenList.add, List.reverse_cons, Datum.depthAll_append, Datum.depthAll, Datum.depthAll]
    omega

/-- A list that is ended is complete, and what was read before it is what was read outside. -/
theorem Reading.close (h : Reading limit (o :: stack) ts) (span : Span) :
    ∃ before inside, ts ++ [⟨.closing, span⟩] = before ++ inside ∧ Reading limit stack before ∧
      Spells inside (o.close span) ∧ stack.length + (o.close span).depth ≤ limit := by
  obtain ⟨before, inside, rfl, hstack, hitems, hfits⟩ := h
  refine ⟨before, _, ?_, hstack, .list o.span span hitems, ?_⟩
  · simp
  · rw [OpenList.close, Datum.depth]
    omega

/-- A datum that is complete is the answer, or the next item of the list around it. -/
theorem Reading.deliver {before outer inside : List Token} (hsplit : before = outer ++ inside)
    (houter : Reading limit stack outer) (hd : Spells inside d)
    (hroom : stack.length + d.depth ≤ limit) (rest : List Token) :
    (∃ o stack', Datum.deliver limit d stack rest = readWith limit (o :: stack') rest ∧
        Reading limit (o :: stack') before) ∨
      Datum.deliver limit d stack rest = (.ok d, rest) ∧ Spells before d ∧ d.depth ≤ limit := by
  subst hsplit
  cases stack with
  | nil =>
    cases houter
    exact .inr ⟨rfl, hd, by simpa using hroom⟩
  | cons o stack => exact .inl ⟨o.add d, stack, rfl, houter.add hd (by simpa using hroom)⟩

/-- **What the reader does with one token**: it goes on inside a list, it has its datum, or it
refuses a parenthesis that has nothing to end or that opens a list too many. -/
theorem Reading.readWith_cons {before : List Token} (h : Reading limit stack before) (t : Token)
    (rest : List Token) :
    (∃ o stack', readWith limit stack (t :: rest) = readWith limit (o :: stack') rest ∧
        Reading limit (o :: stack') (before ++ [t])) ∨
      (∃ d, readWith limit stack (t :: rest) = (.ok d, rest) ∧ Spells (before ++ [t]) d ∧
        d.depth ≤ limit) ∨
      (t.kind = .closing ∧ stack = [] ∧
        readWith limit stack (t :: rest) = (.error (.unexpected t .start), rest)) ∨
      (t.kind = .opening ∧ stack.length = limit ∧
        readWith limit stack (t :: rest) = (.error (.tooDeep limit t.span), rest)) := by
  obtain ⟨kind, span⟩ := t
  cases kind with
  | opening =>
    by_cases hopen : stack.length < limit
    · exact .inl ⟨⟨span, []⟩, stack, by simp only [readWith, if_pos hopen], h.open hopen span⟩
    · have hfull : stack.length = limit := by
        have := h.length_le
        omega
      exact .inr (.inr (.inr ⟨rfl, hfull, by simp only [readWith, if_neg hopen]⟩))
  | closing =>
    cases stack with
    | nil => exact .inr (.inr (.inl ⟨rfl, rfl, rfl⟩))
    | cons o stack =>
      obtain ⟨outer, inside, hsplit, houter, hclose, hroom⟩ := h.close span
      rw [Datum.readWith_closing]
      exact (Reading.deliver hsplit houter hclose hroom rest).imp_right
        fun hdone => .inl ⟨_, hdone⟩
  | atom a =>
    have hroom : stack.length + (Datum.atom a span).depth ≤ limit := h.length_le
    rw [Datum.readWith_atom]
    exact (Reading.deliver rfl h (.atom a span) hroom rest).imp_right fun hdone => .inl ⟨_, hdone⟩

/-- **What was consumed** up to a complete datum are the tokens of that datum, and it is nested
within the limit. -/
theorem spells_of_readWith {before rest : List Token} (hread : Reading limit stack before)
    (h : readWith limit stack ts = (.ok d, rest)) :
    ∃ used, ts = used ++ rest ∧ Spells (before ++ used) d ∧ d.depth ≤ limit := by
  induction ts generalizing stack before with
  | nil => cases stack <;> cases h
  | cons t ts ih =>
    obtain ⟨o, stack', hstep, hread'⟩ | ⟨d', hstep, hspells, hdepth⟩ | ⟨-, -, hstep⟩ |
      ⟨-, -, hstep⟩ := hread.readWith_cons t ts
    · obtain ⟨used, rfl, hspells, hdepth⟩ := ih hread' (hstep.symm.trans h)
      rw [List.append_assoc] at hspells
      exact ⟨t :: used, rfl, hspells, hdepth⟩
    · cases hstep.symm.trans h
      exact ⟨[t], rfl, hspells, hdepth⟩
    · cases hstep.symm.trans h
    · cases hstep.symm.trans h

end

/-- **The reader accepts exactly the grammar**, up to its limit of nesting. -/
theorem readOnly_eq_ok_iff {limit : Nat} {ts : List Token} {d : Datum} :
    readOnly limit ts = .ok d ↔ Spells ts d ∧ d.depth ≤ limit := by
  constructor
  · intro h
    unfold readOnly at h
    rw [readDatum_eq] at h
    split at h
    · rename_i d' heq
      cases h
      have hstart : Reading limit [] [] := rfl
      obtain ⟨used, rfl, hspells, hdepth⟩ := spells_of_readWith hstart heq
      rw [List.append_nil]
      exact ⟨hspells, hdepth⟩
    · cases h
    · cases h
  · rintro ⟨hspells, hdepth⟩
    have hread := hspells.readWith_eq [] [] (by simpa using hdepth)
    rw [List.append_nil] at hread
    unfold readOnly
    rw [readDatum_eq, hread]
    rfl

/-- No two data have the same tokens: read with room for both, they are what was read. -/
theorem Spells.unique {ts : List Token} {d d' : Datum} (h : Spells ts d) (h' : Spells ts d') :
    d' = d := by
  have hd := readOnly_eq_ok_iff.2 ⟨h, Nat.le_max_left d.depth d'.depth⟩
  have hd' := readOnly_eq_ok_iff.2 ⟨h', Nat.le_max_right d.depth d'.depth⟩
  exact Except.ok.inj (hd'.symm.trans hd)

/-! ## The tree as pairs -/

namespace Store

/-- The node is the datum, built of pairs: an atom with its range, or a proper list of nodes that
are the items. -/
inductive Holds (t : Store) : Node → Datum → Prop
  | atom (a : Atom) (span : Span) : Holds t ⟨.atom a, span⟩ (.atom a span)
  | list {v : Value} {nodes : List Node} {items : List Datum} (span : Span)
      (chain : t.IsList v nodes) (elements : List.Forall₂ (Holds t) nodes items) :
      Holds t ⟨v, span⟩ (.list items span)

variable {t : Store}

/-- A chain of cells that was built is a list of its items for as long as its cells stay. -/
theorem isList_newTail {u : Store} {stop : Nat} {nodes : List Node}
    (ht : Grows (u.newTail stop nodes).2 t) : t.IsList (u.newTail stop nodes).1.value nodes := by
  induction nodes with
  | nil => exact .nil
  | cons node nodes ih =>
    obtain ⟨hvalue, hcell⟩ := u.newTail_cons stop node nodes
    have hlt : u.cells.size + nodes.length < (u.newTail stop (node :: nodes)).2.cells.size := by
      simp
    have hkept := (ht.cell ⟨u.cells.size + nodes.length⟩ hlt).trans hcell
    rw [hvalue]
    have htail := ih ((grows_newCell _ _ _).trans ht)
    have hpair : t.IsList (t.cell ⟨u.cells.size + nodes.length⟩).cdr.value nodes →
        t.IsList (.pair ⟨u.cells.size + nodes.length⟩)
          ((t.cell ⟨u.cells.size + nodes.length⟩).car :: nodes) :=
      .pair (Nat.lt_of_lt_of_le hlt ht.size)
    rw [hkept] at hpair
    exact hpair htail

mutual

theorem holds_load : ∀ (s : Store) (d : Datum), Grows (s.load d).2 t → t.Holds (s.load d).1 d
  | _, .atom a span, _ => .atom a span
  | s, .list items span, ht =>
    .list span (isList_newTail ht)
      (holds_loadAll s items ((grows_newTail _ span.stop _).trans ht))

theorem holds_loadAll : ∀ (s : Store) (ds : List Datum), Grows (s.loadAll ds).2 t →
    List.Forall₂ t.Holds (s.loadAll ds).1 ds
  | _, [], _ => .nil
  | s, d :: ds, ht =>
    .cons (holds_load s d ((grows_loadAll (s.load d).2 ds).trans ht))
      (holds_loadAll (s.load d).2 ds ht)

end

end Store

/-- **The reader accepts exactly its grammar and builds the one tree.** A list of tokens is read
as a datum if and only if it is the token sequence of that datum, nested within the limit, and of
no other; and whatever store it is built in, the node of a datum is that tree out of pairs, with
proper lists only and every range in its place. -/
theorem reader_accepts_exactly_the_grammar (limit : Nat) (ts : List Token) (d : Datum)
    (s : Store) :
    (readOnly limit ts = .ok d ↔
        Spells ts d ∧ d.depth ≤ limit ∧ ∀ d', Spells ts d' → d' = d) ∧
      (s.load d).2.Holds (s.load d).1 d := by
  refine ⟨?_, Store.holds_load s d (.refl _)⟩
  rw [readOnly_eq_ok_iff]
  constructor
  · rintro ⟨hspells, hdepth⟩
    exact ⟨hspells, hdepth, fun d' h' => hspells.unique h'⟩
  · rintro ⟨hspells, hdepth, -⟩
    exact ⟨hspells, hdepth⟩

end MiniScheme
