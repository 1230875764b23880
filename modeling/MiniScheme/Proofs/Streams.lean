import MiniScheme.Proofs.Refusals

/-!
# One datum after another

A reader that is asked again goes on where it stopped. How far it got with one datum is the whole
question: a datum takes up its own tokens and no other, and a failed read takes up the tokens
through the one it failed on. Whatever comes out, a token at least is gone (`length_readDatum_lt`),
so reading on comes to the end of every list of tokens.

## Results

* `SpellsAll.readMany_eq`: data that stand one after the other are read one after the other.
* `readDatum_error`: what a failed read has consumed.
* `length_readMany_le`: each read shortens what is left.
* `reader_loses_no_token`: all of it together.
-/

namespace MiniScheme

variable {limit : Nat}

/-! ## Reads that succeed -/

/-- The tokens of a datum are one read, whatever follows them. -/
theorem Spells.readDatum_eq {ts : List Token} {d : Datum} (h : Spells ts d)
    (hdepth : d.depth ≤ limit) (rest : List Token) :
    readDatum limit (ts ++ rest) = (.ok d, rest) := by
  rw [MiniScheme.readDatum_eq]
  exact h.readWith_eq [] rest (by simpa using hdepth)

/-- **Data one after the other**: as many reads give the data in order and leave what follows. -/
theorem SpellsAll.readMany_eq {ts : List Token} {ds : List Datum} (h : SpellsAll ts ds)
    (hdepth : ∀ d ∈ ds, d.depth ≤ limit) (rest : List Token) :
    readMany limit ds.length (ts ++ rest) = (ds.map .ok, rest) := by
  induction ds generalizing ts with
  | nil =>
    cases h
    rfl
  | cons d ds ih =>
    cases h with
    | @cons ts us _ _ head tail =>
      obtain ⟨hd, hds⟩ := List.forall_mem_cons.1 hdepth
      have hfirst := head.readDatum_eq hd (us ++ rest)
      have hothers := ih tail hds
      rw [List.append_assoc]
      simp only [List.length_cons, readMany, hfirst, hothers, List.map_cons]

/-- What a successful read has consumed are the tokens of its datum. -/
theorem spells_of_readDatum {ts left : List Token} {d : Datum}
    (h : readDatum limit ts = (.ok d, left)) :
    ∃ used, ts = used ++ left ∧ Spells used d ∧ d.depth ≤ limit := by
  have hstart : Reading limit [] [] := rfl
  rw [readDatum_eq] at h
  simpa using spells_of_readWith hstart h

/-! ## Reads that fail -/

/-- **A failed read** has consumed the tokens through the first one out of place, or all of them
when they end before the datum does. -/
theorem readDatum_error {ts left : List Token} {e : ReadError}
    (h : readDatum limit ts = (.error e, left)) :
    (∃ used t, ts = used ++ t :: left ∧ Offends limit used t e ∧ (∀ d, ¬Spells used d) ∧
        CleanUpTo limit ts used.length) ∨
      (left = [] ∧ e = .endOfInput (if ts = [] then .expression else .closing) ∧
        (∀ d, ¬Spells ts d) ∧ CleanUpTo limit ts ts.length) := by
  have hstart : Reading limit [] [] := rfl
  have hnone : CleanUpTo limit ([] ++ ts) ([] : List Token).length := by
    intro j hj
    exact absurd hj (Nat.not_lt_zero j)
  rw [readDatum_eq] at h
  obtain ⟨used, left', d, -, hrun, -⟩ | ⟨used, t, left', e', hts, hrun, hoff, hopen, hclean⟩ |
    ⟨hrun, hopen, hclean⟩ := hstart.verdict hnone
  · simp [hrun] at h
  · simp only [List.nil_append] at hoff hopen hclean
    simp only [hrun, Prod.mk.injEq, Except.error.injEq] at h
    obtain ⟨rfl, rfl⟩ := h
    exact .inl ⟨used, t, hts, hoff, hopen, hclean⟩
  · simp only [List.nil_append] at hrun hopen hclean
    simp only [hrun, Prod.mk.injEq, Except.error.injEq] at h
    obtain ⟨rfl, rfl⟩ := h
    exact .inr ⟨rfl, rfl, hopen, hclean⟩

/-! ## Progress -/

/-- A read of any tokens at all consumes one at least. -/
theorem length_readDatum_lt (limit : Nat) {ts : List Token} (hts : ts ≠ []) :
    (readDatum limit ts).2.length < ts.length := by
  rcases hread : readDatum limit ts with ⟨result, left⟩
  cases result with
  | ok d =>
    obtain ⟨used, rfl, hspells, -⟩ := spells_of_readDatum hread
    have hpos := List.length_pos_of_ne_nil hspells.ne_nil
    simp only [List.length_append]
    omega
  | error e =>
    obtain ⟨used, t, rfl, -⟩ | ⟨rfl, -⟩ := readDatum_error hread
    · simp only [List.length_append, List.length_cons]
      omega
    · exact List.length_pos_of_ne_nil hts

/-- **Each read shortens what is left**, until nothing is. -/
theorem length_readMany_le (limit count : Nat) (ts : List Token) :
    (readMany limit count ts).2.length ≤ ts.length - count := by
  induction count generalizing ts with
  | zero => exact Nat.le_refl _
  | succ count ih =>
    have hrest := ih (readDatum limit ts).2
    by_cases hts : ts = []
    · subst hts
      simpa [readMany, readDatum] using hrest
    · have hlt := length_readDatum_lt limit hts
      simp only [readMany]
      omega

/-- **A reader driven datum by datum neither loses nor repeats a token.** Over the tokens of any
data within the limit, followed by any others, as many reads as there are data give the data in
order and leave the others. Whatever the tokens, a read that succeeds has consumed those of its
datum; one that fails has consumed some that end with the first one out of place, or all of them
when they end in the middle of a list. So as many reads as there are tokens come to their end. -/
theorem reader_loses_no_token (limit : Nat) :
    (∀ ts ds rest, SpellsAll ts ds → (∀ d ∈ ds, d.depth ≤ limit) →
        readMany limit ds.length (ts ++ rest) = (ds.map .ok, rest)) ∧
      (∀ ts d left, readDatum limit ts = (.ok d, left) →
        ∃ used, ts = used ++ left ∧ Spells used d ∧ d.depth ≤ limit) ∧
      (∀ ts e left, ts ≠ [] → readDatum limit ts = (.error e, left) →
        (∃ used t, ts = used ++ t :: left ∧ Offends limit used t e ∧ (∀ d, ¬Spells used d) ∧
            CleanUpTo limit ts used.length) ∨
          (left = [] ∧ e = .endOfInput .closing ∧ (∀ d, ¬Spells ts d) ∧
            CleanUpTo limit ts ts.length)) ∧
      ∀ ts count, ts.length ≤ count → (readMany limit count ts).2 = [] := by
  refine ⟨fun ts ds rest h hdepth => h.readMany_eq hdepth rest, fun ts d left h =>
    spells_of_readDatum h, fun ts e left hts h => ?_, fun ts count hcount => ?_⟩
  · have hfail := readDatum_error h
    rwa [if_neg hts] at hfail
  · have hle := length_readMany_le limit count ts
    exact List.eq_nil_of_length_eq_zero (by omega)

/-- The tokens of `(a) 7` are two reads at limit 1; the tokens `( ( b` behind them are refused at
the second parenthesis, which is the last one consumed. -/
theorem reader_loses_no_token_before_refusal :
    readMany 1 2 ([⟨.opening, ⟨0, 1⟩⟩, ⟨.atom (.symbol "a"), ⟨1, 2⟩⟩, ⟨.closing, ⟨2, 3⟩⟩,
        ⟨.atom (.integer 7), ⟨4, 5⟩⟩] ++
          [⟨.opening, ⟨6, 7⟩⟩, ⟨.opening, ⟨8, 9⟩⟩, ⟨.atom (.symbol "b"), ⟨10, 11⟩⟩]) =
      ([.ok (.list [.atom (.symbol "a") ⟨1, 2⟩] ⟨0, 3⟩), .ok (.atom (.integer 7) ⟨4, 5⟩)],
        [⟨.opening, ⟨6, 7⟩⟩, ⟨.opening, ⟨8, 9⟩⟩, ⟨.atom (.symbol "b"), ⟨10, 11⟩⟩]) ∧
      readDatum 1 [⟨.opening, ⟨6, 7⟩⟩, ⟨.opening, ⟨8, 9⟩⟩, ⟨.atom (.symbol "b"), ⟨10, 11⟩⟩] =
        (.error (.tooDeep 1 ⟨8, 9⟩), [⟨.atom (.symbol "b"), ⟨10, 11⟩⟩]) ∧
      Offends 1 [⟨.opening, ⟨6, 7⟩⟩] ⟨.opening, ⟨8, 9⟩⟩ (.tooDeep 1 ⟨8, 9⟩) := by
  obtain ⟨hdata, -, hfail, -⟩ := reader_loses_no_token 1
  have hlist : Spells [⟨.opening, ⟨0, 1⟩⟩, ⟨.atom (.symbol "a"), ⟨1, 2⟩⟩, ⟨.closing, ⟨2, 3⟩⟩]
      (.list [.atom (.symbol "a") ⟨1, 2⟩] ⟨0, 3⟩) :=
    .list ⟨0, 1⟩ ⟨2, 3⟩ (Spells.atom (.symbol "a") ⟨1, 2⟩).singleton
  have hboth := SpellsAll.cons hlist (Spells.atom (.integer 7) ⟨4, 5⟩).singleton
  have hread : readDatum 1
      [⟨.opening, ⟨6, 7⟩⟩, ⟨.opening, ⟨8, 9⟩⟩, ⟨.atom (.symbol "b"), ⟨10, 11⟩⟩] =
        (.error (.tooDeep 1 ⟨8, 9⟩), [⟨.atom (.symbol "b"), ⟨10, 11⟩⟩]) := by decide +kernel
  refine ⟨hdata _ _ _ hboth ?_, hread, ?_⟩
  · simp [Datum.depth, Datum.depthAll]
  · obtain ⟨used, t, hts, hoff, -⟩ | ⟨hleft, -⟩ := hfail _ _ _ (by simp) hread
    · have hlen : used.length = 1 := by simpa using congrArg List.length hts.symm
      obtain ⟨u, rfl⟩ := List.length_eq_one_iff.1 hlen
      cases hts
      exact hoff
    · cases hleft

end MiniScheme
