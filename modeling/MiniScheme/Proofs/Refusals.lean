import MiniScheme.Proofs.Grammar

/-!
# Where the reader gives up

A list of tokens that is no expression is refused at the first token that cannot stand where it
does. Which one that is can be told by counting parentheses, without a stack: `nesting ts` counts
the opening ones less the closing ones.

* `Offends limit before t e`: after `before` the token `t` is out of place, for the reason `e`.
* `OffendsAt limit ts j e`: the same of the token at index `j`.
* `CleanUpTo limit ts n`: none of the first `n` tokens is out of place.

What connects the count with the reader is `Reading.nesting_eq`: while it reads, the count is the
number of open lists. So a token that the reader goes on with, or ends with, is not out of place
(`Reading.not_offends`), and one that it refuses is.

## Results

* `Reading.verdict`: how a run of the reader ends, from any moment in it.
* `reader_blames_first_offence`: the error of a failed read.
-/

namespace MiniScheme

/-! ## Counting parentheses -/

/-- How many lists more are open after the token than before. -/
def Token.weight (t : Token) : Int :=
  match t.kind with
  | .opening => 1
  | .closing => -1
  | .atom _ => 0

/-- How many lists are open after the tokens. -/
def nesting : List Token → Int
  | [] => 0
  | t :: ts => t.weight + nesting ts

@[simp] theorem nesting_nil : nesting [] = 0 := rfl

@[simp] theorem nesting_cons (t : Token) (ts : List Token) :
    nesting (t :: ts) = t.weight + nesting ts := rfl

@[simp] theorem nesting_append (ts us : List Token) :
    nesting (ts ++ us) = nesting ts + nesting us := by
  induction ts with
  | nil => simp
  | cons t ts ih =>
    rw [List.cons_append, nesting_cons, nesting_cons, ih]
    omega

mutual

/-- A datum leaves no list open. -/
theorem Spells.nesting_eq : ∀ {ts : List Token} {d : Datum}, Spells ts d → nesting ts = 0
  | _, _, .atom a span => by simp [Token.weight]
  | _, _, .list first last h => by simp [Token.weight, h.nesting_eq]

theorem SpellsAll.nesting_eq : ∀ {ts : List Token} {ds : List Datum},
    SpellsAll ts ds → nesting ts = 0
  | _, _, .nil => rfl
  | _, _, .cons head tail => by simp [head.nesting_eq, tail.nesting_eq]

end

theorem Spells.ne_nil {ts : List Token} {d : Datum} (h : Spells ts d) : ts ≠ [] := by
  cases h <;> simp

section

variable {limit : Nat} {stack : List OpenList} {before : List Token}

/-- **The count is the number of open lists.** -/
theorem Reading.nesting_eq (h : Reading limit stack before) : nesting before = stack.length := by
  induction stack generalizing before with
  | nil =>
    cases h
    rfl
  | cons o stack ih =>
    obtain ⟨outer, inside, rfl, houter, hitems, -⟩ := h
    simp [ih houter, hitems.nesting_eq, Token.weight]

/-- What was read while the reader goes on is no datum. -/
theorem Reading.not_spells (h : Reading limit stack before) (d : Datum) : ¬Spells before d := by
  intro hspells
  have hcount := h.nesting_eq
  rw [hspells.nesting_eq] at hcount
  cases stack with
  | nil => exact hspells.ne_nil h
  | cons o stack => simp at hcount; omega

end

/-! ## Tokens out of place -/

/-- After `before`, the token `t` is out of place: it starts with nothing to end, it follows a
complete expression, or it opens one list more than the limit allows. -/
inductive Offends (limit : Nat) (before : List Token) (t : Token) : ReadError → Prop
  | start (first : before = []) (closing : t.kind = .closing) :
      Offends limit before t (.unexpected t .start)
  | trailing {d : Datum} (complete : Spells before d) :
      Offends limit before t (.unexpected t .nothing)
  | deep (incomplete : ∀ d, ¬Spells before d) (opening : t.kind = .opening)
      (full : nesting before = limit) : Offends limit before t (.tooDeep limit t.span)

/-- The token at index `j` is out of place after those in front of it. -/
def OffendsAt (limit : Nat) (ts : List Token) (j : Nat) (e : ReadError) : Prop :=
  ∃ t, ts[j]? = some t ∧ Offends limit (ts.take j) t e

/-- None of the first `n` tokens is out of place. -/
def CleanUpTo (limit : Nat) (ts : List Token) (n : Nat) : Prop :=
  ∀ j < n, ∀ e, ¬OffendsAt limit ts j e

section

variable {limit : Nat} {stack : List OpenList} {ts before rest : List Token} {t : Token}
  {e e' : ReadError}

theorem offendsAt_length :
    OffendsAt limit (before ++ t :: rest) before.length e ↔ Offends limit before t e := by
  simp [OffendsAt]

theorem OffendsAt.lt_length {j : Nat} (h : OffendsAt limit ts j e) : j < ts.length := by
  obtain ⟨t, ht, -⟩ := h
  exact (List.getElem?_eq_some_iff.1 ht).1

/-- A token is out of place for one reason only. -/
theorem Offends.unique (h : Offends limit before t e) (h' : Offends limit before t e') :
    e' = e := by
  cases h with
  | start first closing =>
    cases h' with
    | start => rfl
    | trailing complete => exact absurd first complete.ne_nil
    | deep _ opening => rw [closing] at opening; cases opening
  | trailing complete =>
    cases h' with
    | start first => exact absurd first complete.ne_nil
    | trailing => rfl
    | deep incomplete => exact absurd complete (incomplete _)
  | deep incomplete opening =>
    cases h' with
    | start _ closing => rw [closing] at opening; cases opening
    | trailing complete => exact absurd complete (incomplete _)
    | deep => rfl

theorem CleanUpTo.succ (h : CleanUpTo limit (before ++ t :: rest) before.length)
    (ht : ∀ e, ¬Offends limit before t e) :
    CleanUpTo limit (before ++ t :: rest) (before ++ [t]).length := by
  intro j hj e hoff
  rw [List.length_append, List.length_singleton] at hj
  obtain hlt | rfl := Nat.lt_succ_iff_lt_or_eq.1 hj
  · exact h j hlt e hoff
  · exact ht e (offendsAt_length.1 hoff)

/-- The first token out of place, and the reason, are determined. -/
theorem OffendsAt.unique {i j : Nat} (h : OffendsAt limit ts i e) (hi : CleanUpTo limit ts i)
    (h' : OffendsAt limit ts j e') (hj : CleanUpTo limit ts j) : e' = e := by
  obtain hlt | rfl | hlt := Nat.lt_trichotomy i j
  · exact absurd h (hj i hlt e)
  · obtain ⟨t, ht, hoff⟩ := h
    obtain ⟨t', ht', hoff'⟩ := h'
    cases ht.symm.trans ht'
    exact hoff.unique hoff'
  · exact absurd h' (hi j hlt e')

/-- A token after which the count of the open lists is one that the limit allows is in place. -/
theorem Reading.not_offends (h : Reading limit stack before)
    (hlow : 0 ≤ nesting (before ++ [t])) (hhigh : nesting (before ++ [t]) ≤ limit)
    (e : ReadError) : ¬Offends limit before t e := by
  rw [nesting_append, nesting_cons, nesting_nil, Token.weight] at hlow hhigh
  intro hoff
  cases hoff with
  | start first closing =>
    rw [first, closing, nesting_nil] at hlow
    dsimp only at hlow
    omega
  | trailing complete => exact h.not_spells _ complete
  | deep _ opening full =>
    rw [opening, full] at hhigh
    dsimp only at hhigh
    omega

/-! ## The run of the reader -/

/-- **How the reader ends** what it has begun with `before`: with a datum, at the first token out
of place, with no datum in front of it, or at the end of the tokens, in the middle of a list or
before it has read any. The tokens up to the one that it ends at are consumed. -/
theorem Reading.verdict (h : Reading limit stack before)
    (hclean : CleanUpTo limit (before ++ rest) before.length) :
    (∃ used left d, rest = used ++ left ∧ readWith limit stack rest = (.ok d, left) ∧
        Spells (before ++ used) d ∧
        CleanUpTo limit (before ++ rest) (before ++ used).length) ∨
      (∃ used t left e, rest = used ++ t :: left ∧
        readWith limit stack rest = (.error e, left) ∧ Offends limit (before ++ used) t e ∧
        (∀ d, ¬Spells (before ++ used) d) ∧
        CleanUpTo limit (before ++ rest) (before ++ used).length) ∨
      (readWith limit stack rest =
          (.error (.endOfInput (if before ++ rest = [] then .expression else .closing)), []) ∧
        (∀ d, ¬Spells (before ++ rest) d) ∧
        CleanUpTo limit (before ++ rest) (before ++ rest).length) := by
  induction rest generalizing stack before with
  | nil =>
    rw [List.append_nil] at hclean ⊢
    refine .inr (.inr ⟨?_, h.not_spells, hclean⟩)
    cases stack with
    | nil =>
      cases h
      rfl
    | cons o stack =>
      obtain ⟨outer, inside, rfl, -⟩ := h
      simp [readWith]
  | cons t rest ih =>
    obtain ⟨o, stack', hstep, hread'⟩ | ⟨d, hstep, hspells, -⟩ | ⟨hkind, rfl, hstep⟩ |
      ⟨hkind, hfull, hstep⟩ := h.readWith_cons t rest
    · have hcount := hread'.nesting_eq
      have hroom := hread'.length_le
      have hclean' := hclean.succ
        (h.not_offends (by rw [hcount]; omega) (by rw [hcount]; exact_mod_cast hroom))
      rw [List.append_cons] at hclean' ⊢
      rw [hstep]
      obtain ⟨used, left, d, rfl, hrun, hspells, hused⟩ |
        ⟨used, u, left, e, rfl, hrun, hoff, hopen, hused⟩ | hend := ih hread' hclean'
      · rw [List.append_assoc] at hspells
        exact .inl ⟨t :: used, left, d, rfl, hrun, hspells, by simpa using hused⟩
      · rw [List.append_assoc] at hoff hopen
        exact .inr (.inl ⟨t :: used, u, left, e, rfl, hrun, hoff, hopen, by simpa using hused⟩)
      · exact .inr (.inr hend)
    · have hcount := hspells.nesting_eq
      have hclean' := hclean.succ
        (h.not_offends (Int.le_of_eq hcount.symm) (by rw [hcount]; omega))
      exact .inl ⟨[t], rest, d, rfl, hstep, hspells, hclean'⟩
    · refine .inr (.inl ⟨[], t, rest, _, rfl, hstep, ?_, ?_, by simpa using hclean⟩) <;>
        rw [List.append_nil]
      · exact .start h hkind
      · exact h.not_spells
    · refine .inr (.inl ⟨[], t, rest, _, rfl, hstep, ?_, ?_, by simpa using hclean⟩) <;>
        rw [List.append_nil]
      · exact .deep h.not_spells hkind (by rw [h.nesting_eq, hfull])
      · exact h.not_spells

end

/-- What decides a read of all the tokens: they are one datum, or the first token out of place, or
their end. -/
theorem readOnly_verdict (limit : Nat) (ts : List Token) :
    (∃ d, readOnly limit ts = .ok d ∧ Spells ts d ∧ CleanUpTo limit ts ts.length) ∨
      (∃ j e, readOnly limit ts = .error e ∧ OffendsAt limit ts j e ∧ CleanUpTo limit ts j) ∨
      (readOnly limit ts =
          .error (.endOfInput (if ts = [] then .expression else .closing)) ∧
        (∀ d, ¬Spells ts d) ∧ CleanUpTo limit ts ts.length) := by
  have hstart : Reading limit [] [] := rfl
  have hnone : CleanUpTo limit ([] ++ ts) ([] : List Token).length := fun j hj =>
    absurd hj (Nat.not_lt_zero j)
  obtain ⟨used, left, d, rfl, hrun, hspells, hclean⟩ |
    ⟨used, t, left, e, rfl, hrun, hoff, -, hclean⟩ | ⟨hrun, hopen, hclean⟩ :=
    hstart.verdict hnone
  all_goals simp only [List.nil_append] at hclean
  · cases left with
    | nil =>
      rw [List.append_nil] at hrun hclean ⊢
      exact .inl ⟨d, by simp [readOnly, readDatum_eq, hrun], hspells, hclean⟩
    | cons t left =>
      exact .inr (.inl ⟨used.length, _, by simp [readOnly, readDatum_eq, hrun],
        offendsAt_length.2 (.trailing hspells), hclean⟩)
  · exact .inr (.inl ⟨used.length, e, by simp [readOnly, readDatum_eq, hrun],
      offendsAt_length.2 hoff, hclean⟩)
  · exact .inr (.inr ⟨by simp [readOnly, readDatum_eq, hrun], hopen, hclean⟩)

/-! ## What is never said to be missing -/

mutual

/-- **No call of the reader** looks for an atom and nothing else in vain: where one has to be, it
is there. -/
theorem readExpr_ne_atom (limit depth : Nat) (t : Token) (ts : List Token) (found : Token) :
    (readExpr limit depth t ts).1.1 ≠ .error (.unexpected found .atom) := by
  rw [readExpr]
  split
  · exact readList_ne_atom limit (depth + 1) t.span ts found
  · exact fun h => by cases h
  · rename_i a hatom
    rw [readAtom, hatom]
    exact fun h => by cases h
termination_by 3 * ts.length + 2

theorem readList_ne_atom (limit depth : Nat) (opened : Span) (ts : List Token) (found : Token) :
    (readList limit depth opened ts).1.1 ≠ .error (.unexpected found .atom) := by
  rw [readList]
  split
  · exact fun h => by cases h
  · exact readItems_ne_atom limit depth opened [] ts found
termination_by 3 * ts.length + 1

theorem readItems_ne_atom (limit depth : Nat) (opened : Span) (items : List Datum)
    (ts : List Token) (found : Token) :
    (readItems limit depth opened items ts).1.1 ≠ .error (.unexpected found .atom) := by
  cases ts with
  | nil =>
    rw [readItems]
    exact fun h => by cases h
  | cons t ts =>
    rw [readItems]
    split
    · exact fun h => by cases h
    · split
      · rename_i d rest h _
        have _ : rest.length ≤ ts.length := h
        exact readItems_ne_atom limit depth opened (d :: items) rest found
      · rename_i e rest hrest hread
        have hfirst := readExpr_ne_atom limit depth t ts found
        rw [hread] at hfirst
        exact hfirst
termination_by 3 * ts.length

end

/-- **A failed read is blamed on the first token out of place**, and on the end of the tokens if
there is none. So what is said to be missing there is the start of an expression or the end of the
input. That an atom is missing, and a list would not do, is never said, by no call of the reader. -/
theorem reader_blames_first_offence (limit : Nat) (ts : List Token) (e : ReadError) :
    (readOnly limit ts = .error e ↔
        (∃ j, OffendsAt limit ts j e ∧ ∀ i < j, ∀ e', ¬OffendsAt limit ts i e') ∨
          ((∀ j e', ¬OffendsAt limit ts j e') ∧ (∀ d, ¬Spells ts d) ∧
            e = .endOfInput (if ts = [] then .expression else .closing))) ∧
      (∀ found wanted, readOnly limit ts = .error (.unexpected found wanted) →
        wanted ≠ .atom ∧ (wanted.text = "an atom or '('" ∨ wanted.text = "end of input")) ∧
      ∀ depth t rest found,
        (readExpr limit depth t rest).1.1 ≠ .error (.unexpected found .atom) := by
  refine ⟨?_, fun found wanted hfail => ?_, readExpr_ne_atom limit⟩
  · constructor
    · intro hfail
      obtain ⟨d, hok, -⟩ | ⟨j, e', herr, hoff, hclean⟩ | ⟨herr, hopen, hclean⟩ :=
        readOnly_verdict limit ts
      · cases hok.symm.trans hfail
      · cases herr.symm.trans hfail
        exact .inl ⟨j, hoff, hclean⟩
      · cases herr.symm.trans hfail
        exact .inr ⟨fun j e' hoff => hclean j hoff.lt_length e' hoff, hopen, rfl⟩
    · intro hblame
      obtain ⟨d, hok, hspells, hclean⟩ | ⟨j, e', herr, hoff, hclean⟩ | ⟨herr, hopen, hclean⟩ :=
        readOnly_verdict limit ts
      · obtain ⟨i, hi, -⟩ | ⟨-, hnone, -⟩ := hblame
        · exact absurd hi (hclean i hi.lt_length e)
        · exact absurd hspells (hnone d)
      · obtain ⟨i, hi, hfirst⟩ | ⟨hnone, -⟩ := hblame
        · rw [herr, hi.unique hfirst hoff hclean]
        · exact absurd hoff (hnone j e')
      · obtain ⟨i, hi, -⟩ | ⟨-, -, rfl⟩ := hblame
        · exact absurd hi (hclean i hi.lt_length e)
        · exact herr
  · obtain ⟨d, hok, -⟩ | ⟨j, e', herr, ⟨t, -, hoff⟩, -⟩ | ⟨herr, -⟩ := readOnly_verdict limit ts
    · cases hok.symm.trans hfail
    · cases herr.symm.trans hfail
      cases hoff with
      | start => exact ⟨by decide, .inl rfl⟩
      | trailing => exact ⟨by decide, .inr rfl⟩
    · cases herr.symm.trans hfail

end MiniScheme
