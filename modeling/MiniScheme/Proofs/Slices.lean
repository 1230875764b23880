import MiniScheme.Proofs.NormalForm
import MiniScheme.Proofs.Ranges.Reading

/-!
# The text of a node

The range of a node selects a part of the text that was read, and that part is read as the node
again. The text of a node is cut out at the ends of two tokens, so no token is broken and each
keeps what stands to its right, up to the last one: a symbol spelt like a boolean is one only for
the blank after it, and that blank is cut off if the symbol stands alone.

Reading the part gives the same tree with all ranges moved, as far as the part is from the start.

* `Span.ahead`, `Token.ahead` and `Datum.ahead` move ranges.
* `Span.Selects` is the text of a range, `Span.Encloses` says how the ranges of items lie in that
  of their list.
* `Store.Ahead` compares two trees of pairs range by range.
* `Store.ReadFrom` says that a node was built for tokens that follow each other.

## Results

* `IsTokenization.cut`: tokens that follow each other are the tokens of the text under them.
* `Spells.of_ahead`: tokens that are moved spell the same datum, moved.
* `Store.ReadFrom.reachable`: every node below one that was read has tokens of its own.
* `ranges_select_their_text`: the text at the range of a node is read as that node.
-/

namespace MiniScheme

/-! ## Moving ranges -/

/-- The range `n` bytes further on. -/
def Span.ahead (s : Span) (n : Nat) : Span := ⟨s.start + n, s.stop + n⟩

/-- The token `n` bytes further on. -/
def Token.ahead (t : Token) (n : Nat) : Token := ⟨t.kind, t.span.ahead n⟩

/-- The datum with all its ranges `n` bytes further on. -/
def Datum.ahead (d : Datum) (n : Nat) : Datum := d.map id (·.ahead n)

theorem Span.merge_ahead (s t : Span) (n : Nat) :
    (s.ahead n).merge (t.ahead n) = (s.merge t).ahead n := by
  simp only [merge, ahead, Nat.add_min_add_right, Nat.add_max_add_right]

theorem place_append (before mid text : List Char) :
    place (before ++ mid) text = (place mid text).ahead (byteSize before) := by
  simp only [place, Span.ahead, byteSize_append, Span.mk.injEq]
  omega

namespace Datum

mutual

theorem depth_map (f : Atom → Atom) (g : Span → Span) :
    ∀ d : Datum, (d.map f g).depth = d.depth
  | atom _ _ => rfl
  | list items _ => by rw [map, depth, depth, depthAll_map f g items]

theorem depthAll_map (f : Atom → Atom) (g : Span → Span) :
    ∀ ds : List Datum, depthAll (mapAll f g ds) = depthAll ds
  | [] => rfl
  | d :: ds => by rw [mapAll, depthAll, depthAll, depth_map f g d, depthAll_map f g ds]

end

end Datum

mutual

/-- **Tokens that are moved spell the same datum, moved.** -/
theorem Spells.of_ahead {n : Nat} : ∀ {ts us : List Token} {d : Datum}, Spells ts d →
    ts = us.map (·.ahead n) → ∃ e, Spells us e ∧ d = e.ahead n
  | _, us, _, .atom a span, heq => by
    obtain ⟨⟨kind, span'⟩, rfl, hu⟩ := List.map_eq_singleton_iff.1 heq.symm
    cases hu
    exact ⟨.atom a span', .atom a span', rfl⟩
  | _, us, _, .list first last h, heq => by
    obtain ⟨⟨kind, first'⟩, rest, rfl, hfirst, hrest⟩ := List.map_eq_cons_iff.1 heq.symm
    obtain ⟨inner, ends, rfl, hinner, hends⟩ := List.map_eq_append_iff.1 hrest
    obtain ⟨⟨kind', last'⟩, rfl, hlast⟩ := List.map_eq_singleton_iff.1 hends
    cases hfirst
    cases hlast
    obtain ⟨items, hitems, rfl⟩ := h.of_ahead hinner.symm
    refine ⟨_, .list first' last' hitems, ?_⟩
    rw [Datum.ahead, Datum.map, ← Span.merge_ahead]

theorem SpellsAll.of_ahead {n : Nat} : ∀ {ts us : List Token} {ds : List Datum},
    SpellsAll ts ds → ts = us.map (·.ahead n) →
      ∃ es, SpellsAll us es ∧ ds = Datum.mapAll id (·.ahead n) es
  | _, us, _, .nil, heq => by
    rw [List.map_eq_nil_iff.1 heq.symm]
    exact ⟨[], .nil, rfl⟩
  | _, us, _, .cons head tail, heq => by
    obtain ⟨us₁, us₂, rfl, h₁, h₂⟩ := List.map_eq_append_iff.1 heq.symm
    obtain ⟨e, he, rfl⟩ := head.of_ahead h₁.symm
    obtain ⟨es, hes, rfl⟩ := tail.of_ahead h₂.symm
    exact ⟨e :: es, .cons he hes, rfl⟩

end

/-! ## Cutting a text -/

/-- The token is what it is without regard to what follows: no symbol spelt like a boolean. -/
def TokenKind.Steady (k : TokenKind) : Prop :=
  k ≠ .atom (.symbol "#t") ∧ k ≠ .atom (.symbol "#f")

/-- The datum is no such symbol itself; its items may be, since something follows each of them. -/
def Datum.Steady : Datum → Prop
  | atom a _ => (TokenKind.atom a).Steady
  | list _ _ => True

section

variable {before text after mid mid' piece : List Char} {k : TokenKind} {t : Token}
  {pre us post : List Token}

theorem IsPiece.cut (h : IsPiece (before ++ mid) piece (mid' ++ after)) :
    IsPiece mid piece mid' := by
  rcases h with hparen | hrun
  · exact .paren hparen
  · refine .run ⟨hrun.ne_nil, hrun.atoms, fun c hc => hrun.left c ?_, fun c hc => hrun.right c ?_⟩
    · rw [List.getLast?_append, hc]
      rfl
    · rw [List.head?_append, hc]
      rfl

/-- What follows matters to symbols spelt like booleans only. -/
theorem KindOf.at_end {next : Option Char} (h : KindOf piece next k) (hk : k.Steady) :
    KindOf piece none k := by
  cases h with
  | opening => exact .opening none
  | closing => exact .closing none
  | atom hrun ha =>
    refine .atom hrun ?_
    cases ha with
    | integer h => exact .integer h
    | boolean h _ => exact .boolean h nofun
    | symbol hinteger _ =>
      refine .symbol hinteger fun b hb => ?_
      subst hb
      cases b with
      | true => exact absurd rfl hk.1
      | false => exact absurd rfl hk.2

theorem KindOf.cut (h : KindOf piece (mid' ++ after).head? k) (hk : mid' = [] → k.Steady) :
    KindOf piece mid'.head? k := by
  cases mid' with
  | nil => exact h.at_end (hk rfl)
  | cons c mid' => exact h

/-- A token inside a part of a text is a token of that part. -/
theorem TokenOf.cut (h : TokenOf (before ++ text ++ after) t)
    (hstart : byteSize before ≤ t.span.start) (hstop : t.span.stop ≤ byteSize (before ++ text))
    (hk : t.span.stop = byteSize (before ++ text) → t.kind.Steady) :
    ∃ u, TokenOf text u ∧ t = u.ahead (byteSize before) := by
  obtain ⟨front, piece, back, hcs, hpiece, hkind, hspan⟩ := h
  obtain ⟨kind, span⟩ := t
  subst hspan
  rw [List.append_assoc, List.append_assoc] at hcs
  obtain ⟨mid, rfl, hrest⟩ := exists_append_of_byteSize_le hcs hstart
  rw [← List.append_assoc] at hrest
  have hle : byteSize (mid ++ piece) ≤ byteSize text := by
    simp only [place, byteSize_append] at hstop ⊢
    omega
  obtain ⟨mid', rfl, rfl⟩ := exists_append_of_byteSize_le hrest.symm hle
  refine ⟨⟨kind, place mid piece⟩, ⟨mid, piece, mid', rfl, hpiece.cut, ?_, rfl⟩, ?_⟩
  · refine hkind.cut fun hmid => hk ?_
    simp [place, hmid]
  · rw [Token.ahead, place_append]

/-- The tokens lie in a part of the text and none of them depends on what follows it. -/
structure Inside (before text : List Char) (us : List Token) : Prop where
  start_le : ∀ t ∈ us, byteSize before ≤ t.span.start
  le_stop : ∀ t ∈ us, t.span.stop ≤ byteSize (before ++ text)
  steady : ∀ t ∈ us, t.span.stop = byteSize (before ++ text) → t.kind.Steady

theorem Inside.exists_tokens (h : Inside before text us)
    (hus : ∀ t ∈ us, TokenOf (before ++ text ++ after) t) :
    ∃ vs : List Token, us = vs.map (·.ahead (byteSize before)) ∧ ∀ v ∈ vs, TokenOf text v := by
  induction us with
  | nil => exact ⟨[], rfl, nofun⟩
  | cons t us ih =>
    obtain ⟨ht, hrest⟩ := List.forall_mem_cons.1 hus
    obtain ⟨hstart, hstarts⟩ := List.forall_mem_cons.1 h.start_le
    obtain ⟨hstop, hstops⟩ := List.forall_mem_cons.1 h.le_stop
    obtain ⟨hsteady, hsteadies⟩ := List.forall_mem_cons.1 h.steady
    obtain ⟨v, hv, rfl⟩ := ht.cut hstart hstop hsteady
    obtain ⟨vs, rfl, hvs⟩ := ih ⟨hstarts, hstops, hsteadies⟩ hrest
    exact ⟨v :: vs, rfl, List.forall_mem_cons.2 ⟨hv, hvs⟩⟩

/-- **A text cut at tokens**: tokens that follow each other, with the others outside a part of
the text, are the tokens of that part. -/
theorem IsTokenization.cut (h : IsTokenization (before ++ text ++ after) (pre ++ us ++ post))
    (hus : Inside before text us) (hpre : ∀ t ∈ pre, t.span.stop ≤ byteSize before)
    (hpost : ∀ t ∈ post, byteSize (before ++ text) ≤ t.span.start) :
    ∃ vs : List Token, us = vs.map (·.ahead (byteSize before)) ∧ IsTokenization text vs := by
  obtain ⟨vs, rfl, hvs⟩ := hus.exists_tokens fun t ht => h.pieces t (by simp [ht])
  refine ⟨vs, rfl, hvs, fun v hv => (hvs v hv).nonempty, ?_, ?_⟩
  · have hordered := (List.pairwise_append.1 (List.pairwise_append.1 h.ordered).1).2.1
    refine (List.pairwise_map.1 hordered).imp fun {v w} hle => ?_
    simpa [Token.ahead, Span.ahead] using hle
  · intro front c back htext hc
    have hsplit : before ++ text ++ after = (before ++ front) ++ c :: (back ++ after) := by
      simp [htext]
    obtain ⟨t, ht, hle, hge⟩ := h.covered hsplit hc
    have hpos := c.utf8Size_pos
    simp only [htext, byteSize_append, byteSize_cons, byteSize_nil] at hle hge hpost
    rcases List.mem_append.1 ht with ht | ht
    · rcases List.mem_append.1 ht with ht | ht
      · have hout := hpre t ht
        omega
      · obtain ⟨v, hv, rfl⟩ := List.mem_map.1 ht
        refine ⟨v, hv, ?_⟩
        simp only [Token.ahead, Span.ahead, byteSize_append, byteSize_cons,
          byteSize_nil] at hle hge ⊢
        omega
    · have hout := hpost t ht
      omega

end

/-- The lexer finds the tokenization that there is. -/
theorem IsTokenization.tokenize_eq {source : String} {ts : List Token}
    (h : IsTokenization source.toList ts) : tokenize source = .ok ts := by
  cases hlex : tokenize source with
  | ok us => rw [h.unique (isTokenization_of_tokenize hlex)]
  | error e =>
    obtain ⟨before, run, after, ho, -⟩ := isFirstOversized_of_tokenize hlex
    exact (h.not_oversized ho).elim

/-! ## The ranges of a datum and of its tokens -/

/-- The tokens have ranges that are not empty and follow each other. -/
structure InOrder (ts : List Token) : Prop where
  nonempty : ∀ t ∈ ts, t.span.start < t.span.stop
  ordered : ts.Pairwise fun t u => t.span.stop ≤ u.span.start

/-- Ranges inside another one that touch neither end of it, none of them empty, in order and
apart. -/
structure Span.Encloses (s : Span) (inner : List Span) : Prop where
  inside : ∀ x ∈ inner, s.start < x.start ∧ x.stop < s.stop
  nonempty : ∀ x ∈ inner, x.start < x.stop
  ordered : inner.Pairwise fun x y => x.stop ≤ y.start

section

variable {ts us : List Token} {d : Datum} {ds : List Datum} {first last : Span}

theorem IsTokenization.inOrder {cs : List Char} (h : IsTokenization cs ts) : InOrder ts :=
  ⟨h.nonempty, h.ordered⟩

theorem InOrder.sublist (h : InOrder ts) (hsub : us.Sublist ts) : InOrder us :=
  ⟨fun t ht => h.nonempty t (hsub.subset ht), h.ordered.sublist hsub⟩

theorem InOrder.middle {pre post : List Token} (h : InOrder (pre ++ us ++ post)) : InOrder us :=
  h.sublist ((List.sublist_append_right pre us).trans (List.sublist_append_left _ post))

/-- Two parentheses in a row of tokens: the range from one to the other. -/
theorem InOrder.merge_eq (h : InOrder (⟨.opening, first⟩ :: (ts ++ [⟨.closing, last⟩]))) :
    first.merge last = ⟨first.start, last.stop⟩ ∧ first.start < first.stop ∧
      first.stop ≤ last.start ∧ last.start < last.stop := by
  have hfirst := h.nonempty ⟨.opening, first⟩ List.mem_cons_self
  have hlast := h.nonempty ⟨.closing, last⟩ (by simp)
  have hends := (List.pairwise_cons.1 h.ordered).1 ⟨.closing, last⟩ (by simp)
  simp only at hfirst hlast hends
  refine ⟨?_, hfirst, hends, hlast⟩
  simp only [Span.merge, Span.mk.injEq]
  omega

/-- What is between two parentheses in a row of tokens. -/
theorem InOrder.between (h : InOrder (⟨.opening, first⟩ :: (ts ++ [⟨.closing, last⟩])))
    {t : Token} (ht : t ∈ ts) : first.stop ≤ t.span.start ∧ t.span.stop ≤ last.start := by
  obtain ⟨hafter, hrest⟩ := List.pairwise_cons.1 h.ordered
  exact ⟨hafter t (by simp [ht]),
    (List.pairwise_append.1 hrest).2.2 t ht _ List.mem_cons_self⟩

/-- The range of a datum starts where one of its tokens starts and ends where one ends. -/
theorem Spells.exists_ends (h : Spells ts d) (hts : InOrder ts) :
    (∃ t ∈ ts, ∃ u ∈ ts, d.span = ⟨t.span.start, u.span.stop⟩) ∧ d.span.start < d.span.stop := by
  cases h with
  | atom a span =>
    have hlt := hts.nonempty _ List.mem_cons_self
    exact ⟨⟨_, List.mem_cons_self, _, List.mem_cons_self, rfl⟩, hlt⟩
  | list first last hitems =>
    obtain ⟨hmerge, hfirst, hends, hlast⟩ := hts.merge_eq
    rw [Datum.span, hmerge]
    refine ⟨⟨_, List.mem_cons_self, ⟨.closing, last⟩, by simp, rfl⟩, ?_⟩
    simp only
    omega

/-- The tokens of a datum lie in its range, and one that ends it does not depend on what
follows. -/
theorem Spells.within (h : Spells ts d) (hts : InOrder ts) {t : Token} (ht : t ∈ ts) :
    d.span.start ≤ t.span.start ∧ t.span.stop ≤ d.span.stop ∧
      (t.span.stop = d.span.stop → d.Steady → t.kind.Steady) := by
  cases h with
  | atom a span =>
    obtain rfl := List.mem_singleton.1 ht
    exact ⟨Nat.le_refl _, Nat.le_refl _, fun _ hd => hd⟩
  | list first last hitems =>
    obtain ⟨hmerge, hfirst, hends, hlast⟩ := hts.merge_eq
    rw [Datum.span, hmerge]
    have hparen {k : TokenKind} (hk : k = .opening ∨ k = .closing) : k.Steady := by
      rcases hk with rfl | rfl <;> simp [TokenKind.Steady]
    rcases List.mem_cons.1 ht with rfl | ht
    · exact ⟨Nat.le_refl _, by simp only; omega, fun _ _ => hparen (.inl rfl)⟩
    rcases List.mem_append.1 ht with ht | ht
    · -- an item ends before the last parenthesis does
      have hin := hts.between ht
      refine ⟨by simp only; omega, by simp only; omega, fun hstop _ => ?_⟩
      simp only at hstop
      omega
    · obtain rfl := List.mem_singleton.1 ht
      exact ⟨by simp only; omega, Nat.le_refl _, fun _ _ => hparen (.inr rfl)⟩

/-- The tokens of a datum lie in the text at its range. -/
theorem Spells.inside {before text : List Char} (h : Spells ts d) (hts : InOrder ts)
    (hspan : d.span = place before text) (hd : d.Steady) : Inside before text ts := by
  have hwithin {t : Token} (ht : t ∈ ts) := h.within hts ht
  rw [hspan, place] at hwithin
  exact ⟨fun t ht => (hwithin ht).1, fun t ht => (hwithin ht).2.1,
    fun t ht hstop => (hwithin ht).2.2 hstop hd⟩

/-- The tokens of one of several data follow each other. -/
theorem SpellsAll.exists_of_mem (h : SpellsAll ts ds) (hd : d ∈ ds) :
    ∃ pre us post, ts = pre ++ us ++ post ∧ Spells us d := by
  induction ds generalizing ts with
  | nil => cases hd
  | cons e ds ih =>
    cases h with
    | @cons us vs _ _ head tail =>
      rcases List.mem_cons.1 hd with rfl | hd
      · exact ⟨[], us, vs, rfl, head⟩
      · obtain ⟨pre, ws, post, rfl, hws⟩ := ih tail hd
        exact ⟨us ++ pre, ws, post, by simp, hws⟩

/-- One of several data starts and ends with tokens of theirs. -/
theorem SpellsAll.exists_ends (h : SpellsAll ts ds) (hts : InOrder ts) (hd : d ∈ ds) :
    (∃ t ∈ ts, ∃ u ∈ ts, d.span = ⟨t.span.start, u.span.stop⟩) ∧ d.span.start < d.span.stop := by
  obtain ⟨pre, us, post, rfl, hus⟩ := h.exists_of_mem hd
  obtain ⟨⟨t, ht, u, hu, hspan⟩, hlt⟩ := hus.exists_ends hts.middle
  exact ⟨⟨t, by simp [ht], u, by simp [hu], hspan⟩, hlt⟩

/-- The ranges of data follow each other like their tokens. -/
theorem SpellsAll.ordered (h : SpellsAll ts ds) (hts : InOrder ts) :
    ds.Pairwise fun d e => d.span.stop ≤ e.span.start := by
  induction ds generalizing ts with
  | nil => exact .nil
  | cons d ds ih =>
    cases h with
    | @cons us vs _ _ head tail =>
      have hus := hts.sublist (List.sublist_append_left us vs)
      have hvs := hts.sublist (List.sublist_append_right us vs)
      refine List.pairwise_cons.2 ⟨fun e he => ?_, ih tail hvs⟩
      obtain ⟨⟨_, _, u, hu, hspan⟩, _⟩ := head.exists_ends hus
      obtain ⟨⟨t, ht, _, _, hspan'⟩, _⟩ := tail.exists_ends hvs he
      rw [hspan, hspan']
      exact (List.pairwise_append.1 hts.ordered).2.2 u hu t ht

/-- **Items lie inside their list**, one after the other. -/
theorem Spells.encloses {span : Span} (h : Spells ts (.list ds span)) (hts : InOrder ts) :
    span.Encloses (ds.map Datum.span) := by
  cases h with
  | @list inner _ first last hitems =>
    obtain ⟨hmerge, hfirst, hends, hlast⟩ := hts.merge_eq
    have hinner : InOrder inner := hts.sublist
      ((List.sublist_append_left inner _).trans (List.sublist_cons_self _ _))
    have hmem {d : Datum} (hd : d ∈ ds) := hitems.exists_ends hinner hd
    rw [hmerge]
    refine ⟨?_, ?_, List.pairwise_map.2 (hitems.ordered hinner)⟩
    · refine List.forall_mem_map.2 fun d hd => ?_
      obtain ⟨⟨t, ht, u, hu, hspan⟩, -⟩ := hmem hd
      have hstart := (hts.between ht).1
      have hstop := (hts.between hu).2
      rw [hspan]
      simp only
      omega
    · exact List.forall_mem_map.2 fun d hd => (hmem hd).2

end

/-! ## Reading a part of a text -/

/-- The text at a range of another text. -/
def Span.Selects (s : Span) (source text : String) : Prop :=
  ∃ before after, source.toList = before ++ text.toList ++ after ∧ s = place before text.toList

/-- The tokens of the datum follow each other somewhere in a row of tokens. -/
def SpelledIn (ts : List Token) (d : Datum) : Prop :=
  ∃ pre us post, ts = pre ++ us ++ post ∧ Spells us d

section

variable {limit : Nat} {source text : String} {ts : List Token} {d : Datum} {ds : List Datum}
  {span : Span}

theorem SpelledIn.item (h : SpelledIn ts (.list ds span)) (hd : d ∈ ds) : SpelledIn ts d := by
  obtain ⟨pre, us, post, rfl, hus⟩ := h
  cases hus with
  | list first last hitems =>
    obtain ⟨pre', vs, post', rfl, hvs⟩ := hitems.exists_of_mem hd
    exact ⟨pre ++ ⟨.opening, first⟩ :: pre', vs, post' ++ ⟨.closing, last⟩ :: post,
      by simp, hvs⟩

/-- The range of a datum is that of a part of the text. -/
theorem SpelledIn.exists_selects (h : SpelledIn ts d) (hts : IsTokenization source.toList ts) :
    ∃ text, d.span.Selects source text := by
  obtain ⟨pre, us, post, rfl, hus⟩ := h
  obtain ⟨⟨t, ht, u, hu, hspan⟩, hlt⟩ := hus.exists_ends hts.inOrder.middle
  obtain ⟨front, piece, back, hcs, -, -, hfront⟩ := hts.pieces t (by simp [ht])
  obtain ⟨front', piece', back', hcs', -, -, hback⟩ := hts.pieces u (by simp [hu])
  rw [hspan, hfront, hback, place, place] at hlt ⊢
  rw [List.append_assoc] at hcs
  obtain ⟨text, htext, -⟩ := exists_append_of_byteSize_le (hcs.symm.trans hcs') (Nat.le_of_lt hlt)
  refine ⟨String.ofList text, front, back', ?_, ?_⟩
  · rw [String.toList_ofList, ← htext, hcs']
  · rw [String.toList_ofList, place, ← htext]

/-- **The part of a text at the range of a datum** is read as that datum, with ranges counted
from the start of the part. -/
theorem SpelledIn.parse_eq (h : SpelledIn ts d) (hts : IsTokenization source.toList ts)
    (hdepth : d.depth ≤ limit) (htext : d.span.Selects source text) (hsteady : d.Steady) :
    ∃ e, parse limit text = .ok e ∧ d = e.ahead d.span.start := by
  obtain ⟨pre, us, post, rfl, hus⟩ := h
  obtain ⟨before, after, hcs, hspan⟩ := htext
  rw [hcs] at hts
  have horder : InOrder us := hts.inOrder.middle
  have hinside := hus.inside horder hspan hsteady
  -- the other tokens are outside, since the datum starts and ends with tokens of its own
  obtain ⟨⟨t, ht, u, hu, hends⟩, -⟩ := hus.exists_ends horder
  obtain ⟨hfront, -, hback⟩ := List.pairwise_append.1 hts.ordered
  have hbefore := (List.pairwise_append.1 hfront).2.2
  have hstart : byteSize before = t.span.start := congrArg Span.start (hspan.symm.trans hends)
  have hstop : byteSize (before ++ text.toList) = u.span.stop :=
    congrArg Span.stop (hspan.symm.trans hends)
  obtain ⟨vs, rfl, hvs⟩ := hts.cut hinside (fun v hv => hstart ▸ hbefore v hv t ht)
    (fun v hv => hstop ▸ hback u (by simp [hu]) v hv)
  obtain ⟨e, he, hd⟩ := hus.of_ahead rfl
  have hfits : e.depth ≤ limit := by
    rwa [hd, Datum.ahead, Datum.depth_map] at hdepth
  refine ⟨e, ?_, ?_⟩
  · rw [parse, hvs.tokenize_eq]
    exact readOnly_eq_ok_iff.2 ⟨he, hfits⟩
  · rw [hspan, place]
    exact hd

end

/-! ## Nodes -/

namespace Store

/-- Two trees of pairs, one in each store, that are alike except that every range in the second
one is `n` bytes further on. -/
inductive Ahead (n : Nat) (s t : Store) : Node → Node → Prop
  | atom (a : Atom) (span : Span) : Ahead n s t ⟨.atom a, span⟩ ⟨.atom a, span.ahead n⟩
  | nil (span : Span) : Ahead n s t ⟨.nil, span⟩ ⟨.nil, span.ahead n⟩
  | pair {c c' : CellId} (span : Span) (car : Ahead n s t (s.cell c).car (t.cell c').car)
      (cdr : Ahead n s t (s.cell c).cdr (t.cell c').cdr) :
      Ahead n s t ⟨.pair c, span⟩ ⟨.pair c', span.ahead n⟩

/-- The node is an element of the list that the other one is. -/
def IsElement (s : Store) (list node : Node) : Prop :=
  ∃ items, s.elements? list.value = some items ∧ node ∈ items

variable {n : Nat} {s t u v : Store}

theorem Ahead.span_eq {x y : Node} (h : Ahead n s t x y) : y.span = x.span.ahead n := by
  cases h <;> rfl

/-- The same node with another range. -/
theorem Ahead.with_span {x y : Node} (h : Ahead n s t x y) (span : Span) :
    Ahead n s t ⟨x.value, span⟩ ⟨y.value, span.ahead n⟩ := by
  cases h with
  | atom a _ => exact .atom a span
  | nil _ => exact .nil span
  | pair _ car cdr => exact .pair span car cdr

/-- A chain of cells starts with a pair that reaches from the first item to the end. -/
theorem exists_pair_newTail {stop : Nat} {x : Node} {xs : List Node}
    (ht : Grows (u.newTail stop (x :: xs)).2 t) :
    ∃ c, (u.newTail stop (x :: xs)).1 = ⟨.pair c, ⟨x.span.start, stop⟩⟩ ∧
      t.cell c = ⟨x, (u.newTail stop xs).1⟩ := by
  obtain ⟨c, hc, -, hcell⟩ := exists_cell_newTail ht
  refine ⟨c, ?_, hcell⟩
  rw [← hc]
  rfl

/-- The chain of cells of nodes that are moved is moved with them, the ranges of the cells and
of the empty list at its end included. -/
theorem ahead_newTail {stop : Nat} {xs ys : List Node} (h : List.Forall₂ (Ahead n s t) xs ys)
    (hs : Grows (u.newTail stop xs).2 s) (ht : Grows (v.newTail (stop + n) ys).2 t) :
    Ahead n s t (u.newTail stop xs).1 (v.newTail (stop + n) ys).1 := by
  induction h with
  | nil => exact .nil (.point stop)
  | @cons x y xs ys hxy _ ih =>
    have htail := ih ((grows_newCell _ _ _).trans hs) ((grows_newCell _ _ _).trans ht)
    obtain ⟨c, hc, hcell⟩ := exists_pair_newTail hs
    obtain ⟨c', hc', hcell'⟩ := exists_pair_newTail ht
    rw [hc, hc', hxy.span_eq]
    refine .pair ⟨x.span.start, stop⟩ ?_ ?_
    · rw [hcell, hcell']
      exact hxy
    · rw [hcell, hcell']
      exact htail

mutual

/-- **A datum that is moved is built of pairs that are moved.** -/
theorem ahead_load : ∀ (u v : Store) (d : Datum), Grows (u.load d).2 s →
    Grows (v.load (d.ahead n)).2 t → Ahead n s t (u.load d).1 (v.load (d.ahead n)).1
  | _, _, .atom a span, _, _ => .atom a span
  | u, v, .list items span, hs, ht =>
    (ahead_newTail (ahead_loadAll u v items ((grows_newTail _ span.stop _).trans hs)
      ((grows_newTail _ (span.stop + n) _).trans ht)) hs ht).with_span span

theorem ahead_loadAll : ∀ (u v : Store) (ds : List Datum), Grows (u.loadAll ds).2 s →
    Grows (v.loadAll (Datum.mapAll id (·.ahead n) ds)).2 t →
    List.Forall₂ (Ahead n s t) (u.loadAll ds).1 (v.loadAll (Datum.mapAll id (·.ahead n) ds)).1
  | _, _, [], _, _ => .nil
  | u, v, d :: ds, hs, ht =>
    .cons (ahead_load u v d ((grows_loadAll _ ds).trans hs) ((grows_loadAll _ _).trans ht))
      (ahead_loadAll (u.load d).2 (v.load (d.ahead n)).2 ds hs ht)

end

theorem map_span_loadAll (u : Store) (ds : List Datum) :
    (u.loadAll ds).1.map Node.span = ds.map Datum.span := by
  induction ds generalizing u with
  | nil => rfl
  | cons d ds ih =>
    rw [loadAll, List.map_cons, List.map_cons, ih, span_load]

theorem exists_of_mem_loadAll {ds : List Datum} {x : Node} (hx : x ∈ (u.loadAll ds).1) :
    ∃ (w : Store) (d : Datum), d ∈ ds ∧ x = (w.load d).1 ∧ Grows (w.load d).2 (u.loadAll ds).2 := by
  induction ds generalizing u with
  | nil => cases hx
  | cons d ds ih =>
    rcases List.mem_cons.1 hx with rfl | hx
    · exact ⟨u, d, List.mem_cons_self, rfl, grows_loadAll _ ds⟩
    · obtain ⟨w, e, he, rfl, hgrows⟩ := ih hx
      exact ⟨w, e, List.mem_cons_of_mem d he, rfl, hgrows⟩

/-- Only a list has elements, and they are the nodes of its items. -/
theorem exists_of_elements?_load {d : Datum} {items : List Node} (ht : Grows (u.load d).2 t)
    (h : t.elements? (u.load d).1.value = some items) :
    ∃ ds span, d = .list ds span ∧ items = (u.loadAll ds).1 ∧ Grows (u.loadAll ds).2 t := by
  cases d with
  | atom a span =>
    simp [load, elements?, elementsWithin] at h
  | list ds span =>
    have hlist := (isList_newTail ht).elements?_eq
    exact ⟨ds, span, rfl, Option.some.inj (h.symm.trans hlist),
      (grows_newTail _ span.stop _).trans ht⟩

/-- The node was built for some of the tokens, which follow each other, and within the limit. -/
def ReadFrom (t : Store) (limit : Nat) (ts : List Token) (node : Node) : Prop :=
  ∃ (u : Store) (d : Datum), node = (u.load d).1 ∧ Grows (u.load d).2 t ∧ SpelledIn ts d ∧
    d.depth ≤ limit

/-- One step down: an element of a node that was read was read as well. -/
theorem ReadFrom.element {limit : Nat} {ts : List Token} {x y : Node} (h : t.ReadFrom limit ts x)
    (hxy : t.IsElement x y) : t.ReadFrom limit ts y := by
  obtain ⟨u, d, rfl, ht, hd, hdepth⟩ := h
  obtain ⟨items, hitems, hy⟩ := hxy
  obtain ⟨ds, span, rfl, rfl, hds⟩ := exists_of_elements?_load ht hitems
  obtain ⟨w, e, he, rfl, hw⟩ := exists_of_mem_loadAll hy
  refine ⟨w, e, rfl, hw.trans hds, hd.item he, ?_⟩
  have hle := Datum.depth_le_depthAll he
  rw [Datum.depth] at hdepth
  omega

/-- **Every node below one that was read was read**, however far down it is. -/
theorem ReadFrom.reachable {limit : Nat} {ts : List Token} {x y : Node} (h : t.ReadFrom limit ts x)
    (hxy : Relation.ReflTransGen t.IsElement x y) : t.ReadFrom limit ts y := by
  induction hxy with
  | refl => exact h
  | tail _ hstep ih => exact ih.element hstep

end Store

/-- **The range of a node selects its text.** Take any node of a text that was read: the text
itself, an element of it, an element of that, and so on, in whatever store the pairs were built.
Its range is that of a part of the text. If it is a list, the ranges of its elements lie strictly
inside its own, in order and apart. And unless it is a symbol spelt like a boolean, the part
alone is read with the same limit, and the pairs built for it are those of the node, all ranges
in them counted from the start of the part. -/
theorem ranges_select_their_text {limit : Nat} {source : String} {d : Datum}
    (h : parse limit source = .ok d) (s : Store) (node : Node)
    (hnode : Relation.ReflTransGen (s.load d).2.IsElement (s.load d).1 node) :
    (∃ text, node.span.Selects source text) ∧
      (∀ items, (s.load d).2.elements? node.value = some items →
        node.span.Encloses (items.map Node.span)) ∧
      ∀ text, node.span.Selects source text → node.value ≠ .atom (.symbol "#t") →
        node.value ≠ .atom (.symbol "#f") →
        ∃ e, parse limit text = .ok e ∧
          ∀ t : Store, Store.Ahead node.span.start (t.load e).2 (s.load d).2 (t.load e).1 node := by
  unfold parse at h
  split at h
  · cases h
  rename_i ts htokens
  have hts := isTokenization_of_tokenize htokens
  obtain ⟨hspells, hdepth⟩ := readOnly_eq_ok_iff.1 h
  have hroot : (s.load d).2.ReadFrom limit ts (s.load d).1 :=
    ⟨s, d, rfl, .refl _, ⟨[], ts, [], by simp, hspells⟩, hdepth⟩
  obtain ⟨u, e, rfl, hgrows, hspelled, hfits⟩ := hroot.reachable hnode
  rw [Store.span_load]
  refine ⟨hspelled.exists_selects hts, fun items hitems => ?_, fun text htext htrue hfalse => ?_⟩
  · obtain ⟨ds, span, rfl, rfl, -⟩ := Store.exists_of_elements?_load hgrows hitems
    obtain ⟨pre, us, post, rfl, hus⟩ := hspelled
    rw [Store.map_span_loadAll]
    exact hus.encloses hts.inOrder.middle
  · have hsteady : e.Steady := by
      cases e with
      | atom a span =>
        exact ⟨fun ha => htrue (by cases ha; rfl), fun ha => hfalse (by cases ha; rfl)⟩
      | list items span => trivial
    obtain ⟨e', hparse, he⟩ := hspelled.parse_eq hts hfits htext hsteady
    generalize e.span.start = n at he
    subst he
    exact ⟨e', hparse, fun t => Store.ahead_load t u e' (.refl _) hgrows⟩

/-- A list that stands after a letter of two bytes and ends with a symbol spelt like a boolean. -/
theorem ranges_select_their_text_of_quirk :
    ∃ d e, parse 2 "(é (x #t\u00a0))" = .ok d ∧ parse 2 "(x #t\u00a0)" = .ok e ∧
      ∀ t : Store, Store.Ahead 4 (t.load e).2 (Store.empty.load d).2 (t.load e).1
        ⟨.pair ⟨1⟩, ⟨4, 12⟩⟩ := by
  have hread : parse 2 "(é (x #t\u00a0))" = .ok (.list [.atom (.symbol "é") ⟨1, 3⟩,
      .list [.atom (.symbol "x") ⟨5, 6⟩, .atom (.symbol "#t") ⟨7, 9⟩] ⟨4, 12⟩] ⟨0, 13⟩) := by
    decide +kernel
  obtain ⟨-, -, hslice⟩ := ranges_select_their_text hread .empty ⟨.pair ⟨1⟩, ⟨4, 12⟩⟩ (.single
    ⟨[⟨.atom (.symbol "é"), ⟨1, 3⟩⟩, ⟨.pair ⟨1⟩, ⟨4, 12⟩⟩], rfl, by simp⟩)
  obtain ⟨e, hparse, hahead⟩ := hslice "(x #t\u00a0)"
    ⟨['(', 'é', ' '], [')'], by decide +kernel, by decide +kernel⟩ (by simp) (by simp)
  exact ⟨_, e, hread, hparse, hahead⟩

-- On its own such a symbol is a boolean.
example : parse 0 "#t\u00a0" = .ok (.atom (.symbol "#t") ⟨0, 2⟩) ∧
    parse 0 "#t" = .ok (.atom (.boolean true) ⟨0, 2⟩) := by decide +kernel

end MiniScheme
