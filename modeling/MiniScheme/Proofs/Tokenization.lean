import Mathlib.Data.List.Sort
import Mathlib.Data.Nat.Digits.Defs
import MiniScheme.Proofs.Runs

/-!
# The tokens of a text

What the lexer computes, said without rules and without a scanner. A *piece* of a text is a
parenthesis or a maximal run of characters that are neither blanks nor parentheses; each piece names
one kind of token. A list of tokens is the tokenization of a text if its ranges are those of pieces,
in order, and leave nothing out but blanks.

Two pieces of a text that meet are the same piece (`IsPiece.meet`). So the tokens of a text are
determined by it: they are exactly the tokens of its pieces.

* `IsInteger` is an optional sign and digits with its value, `Denotes` the atom of a run, `KindOf`
  the kind of token of a piece.
* `IsTokenization` is the specification, `Oversized` the only way in which it has no solution.

## Results

* `lexedAfter_lexFrom`: what the lexer yields, from any place in a text.
* `IsTokenization.mem_iff`: the tokens of a text are those of its pieces.
* `tokenize_is_maximal_munch`: the lexer succeeds with the only tokenization there is, or fails
  at the first integer outside 64 bits.
-/

namespace MiniScheme

/-! ## Bytes -/

@[simp] theorem byteSize_nil : byteSize [] = 0 := rfl

@[simp] theorem byteSize_cons (c : Char) (cs : List Char) :
    byteSize (c :: cs) = c.utf8Size + byteSize cs := rfl

@[simp] theorem byteSize_append (cs ds : List Char) :
    byteSize (cs ++ ds) = byteSize cs + byteSize ds := by
  induction cs with
  | nil => simp
  | cons c cs ih => simp [ih, Nat.add_assoc]

theorem byteSize_pos {cs : List Char} (h : cs ≠ []) : 0 < byteSize cs := by
  cases cs with
  | nil => exact absurd rfl h
  | cons c cs =>
    have hc := c.utf8Size_pos
    rw [byteSize_cons]
    omega

/-- Of two beginnings of a text the one with more bytes is longer. -/
theorem exists_append_of_byteSize_le {before before' rest rest' : List Char}
    (h : before ++ rest = before' ++ rest') (hle : byteSize before ≤ byteSize before') :
    ∃ mid, before' = before ++ mid ∧ rest = mid ++ rest' := by
  rcases List.append_eq_append_iff.1 h with ⟨mid, h₁, h₂⟩ | ⟨mid, h₁, h₂⟩
  · exact ⟨mid, h₁, h₂⟩
  · have hmid : mid = [] := by
      by_contra hne
      have hpos := byteSize_pos hne
      rw [h₁, byteSize_append] at hle
      omega
    subst hmid
    exact ⟨[], by simpa using h₁.symm, by simpa using h₂.symm⟩

/-- The range of bytes of a piece of a text that stands after `before`. -/
def place (before text : List Char) : Span := ⟨byteSize before, byteSize (before ++ text)⟩

/-! ## Integers -/

/-- The value of a text of decimal digits. -/
def digitsValue (ds : List Char) : Nat :=
  Nat.ofDigits 10 (ds.reverse.map fun c => c.toNat - '0'.toNat)

/-- The text is an optional sign and at least one decimal digit, and this is its value. -/
inductive IsInteger : List Char → Int → Prop
  | unsigned {ds : List Char} (hne : ds ≠ []) (hds : ∀ c ∈ ds, c.isDigit = true) :
      IsInteger ds (digitsValue ds)
  | plus {ds : List Char} (hne : ds ≠ []) (hds : ∀ c ∈ ds, c.isDigit = true) :
      IsInteger ('+' :: ds) (digitsValue ds)
  | minus {ds : List Char} (hne : ds ≠ []) (hds : ∀ c ∈ ds, c.isDigit = true) :
      IsInteger ('-' :: ds) (-digitsValue ds)

/-- The integer is one of 64 bits. -/
def IsWord (z : Int) : Prop := -2 ^ 63 ≤ z ∧ z < 2 ^ 63

theorem ofDigitChars_eq (ds : List Char) : Nat.ofDigitChars 10 ds 0 = digitsValue ds := by
  rw [digitsValue, Nat.ofDigits_eq_foldr, Nat.ofDigitChars, List.foldl_eq_foldr_reverse,
    List.foldr_map]
  congr 1
  funext c n
  exact Nat.add_comm _ _

theorem digits?_eq_some_iff {ds : List Char} {z : Int} :
    Decimal.digits? ds = some z ↔
      (ds ≠ [] ∧ ∀ c ∈ ds, c.isDigit = true) ∧ z = digitsValue ds := by
  unfold Decimal.digits?
  rw [ofDigitChars_eq]
  cases ds with
  | nil => simp
  | cons c ds =>
    rw [Option.ite_none_right_eq_some, Option.some.injEq, eq_comm (a := z)]
    simp

/-- The first character of an unsigned integer is no sign. -/
theorem read?_eq_digits? {ds : List Char} (hds : ∀ c ∈ ds, c.isDigit = true) :
    Decimal.read? ds = Decimal.digits? ds := by
  unfold Decimal.read?
  split
  · exact absurd (hds '+' List.mem_cons_self) (by decide)
  · exact absurd (hds '-' List.mem_cons_self) (by decide)
  · rfl

theorem read?_eq_some_iff {run : List Char} {z : Int} :
    Decimal.read? run = some z ↔ IsInteger run z := by
  constructor
  · intro h
    unfold Decimal.read? at h
    split at h
    · obtain ⟨⟨hne, hds⟩, rfl⟩ := digits?_eq_some_iff.1 h
      exact .plus hne hds
    · obtain ⟨y, hy, rfl⟩ := Option.map_eq_some_iff.1 h
      obtain ⟨⟨hne, hds⟩, rfl⟩ := digits?_eq_some_iff.1 hy
      exact .minus hne hds
    · obtain ⟨⟨hne, hds⟩, rfl⟩ := digits?_eq_some_iff.1 h
      exact .unsigned hne hds
  · intro h
    cases h with
    | unsigned hne hds =>
      rw [read?_eq_digits? hds]
      exact digits?_eq_some_iff.2 ⟨⟨hne, hds⟩, rfl⟩
    | plus hne hds => exact digits?_eq_some_iff.2 ⟨⟨hne, hds⟩, rfl⟩
    | minus hne hds =>
      exact Option.map_eq_some_iff.2 ⟨_, digits?_eq_some_iff.2 ⟨⟨hne, hds⟩, rfl⟩, rfl⟩

theorem narrow?_eq_none_iff {z : Int} : narrow? z = none ↔ ¬IsWord z := by
  unfold narrow? IsWord
  split <;> simp_all

/-! ## Atoms -/

/-- The atom that a maximal run denotes, `next` being the character after it: an integer of
64 bits, a boolean unless a blank outside ASCII follows, and a symbol in all other cases. -/
inductive Denotes (run : List Char) (next : Option Char) : Atom → Prop
  | integer {n : Int64} (h : IsInteger run n.toInt) : Denotes run next (.integer n)
  | boolean {b : Bool} (h : run = (Atom.boolean b).chars)
      (hnext : ∀ c, next = some c → isWideBlank c = false) : Denotes run next (.boolean b)
  | symbol (hinteger : ∀ z, ¬IsInteger run z)
      (hboolean : ∀ b, run = (Atom.boolean b).chars → ∃ c, next = some c ∧ isWideBlank c = true) :
      Denotes run next (.symbol (String.ofList run))

theorem booleanOf?_eq_some_iff {run : List Char} {b : Bool} :
    booleanOf? run = some b ↔ run = (Atom.boolean b).chars := by
  constructor
  · intro h
    unfold booleanOf? at h
    split at h <;> cases h <;> rfl
  · rintro rfl
    cases b <;> rfl

theorem classify_eq_some_iff {run : List Char} {next : Option Char} {a : Atom} :
    classify run next = some a ↔ Denotes run next a := by
  have hnone (h : Decimal.read? run = none) (z : Int) : ¬IsInteger run z := fun hz => by
    rw [read?_eq_some_iff.2 hz] at h
    cases h
  have hwide : next.any isWideBlank = true ↔ ∃ c, next = some c ∧ isWideBlank c = true := by
    cases next <;> simp
  constructor
  · intro h
    unfold classify at h
    split at h
    · rename_i z hz
      obtain ⟨n, hn, rfl⟩ := Option.map_eq_some_iff.1 h
      rw [← narrow?_eq_some_iff.1 hn] at hz
      exact .integer (read?_eq_some_iff.1 hz)
    · rename_i hread
      split at h
      · rename_i b hb
        cases h
        split
        · rename_i hnext
          exact .symbol (hnone hread) fun _ _ => hwide.1 hnext
        · rename_i hnext
          refine .boolean (booleanOf?_eq_some_iff.1 hb) fun c hc => ?_
          by_contra hblank
          exact hnext (hwide.2 ⟨c, hc, by simpa using hblank⟩)
      · rename_i hb
        cases h
        refine .symbol (hnone hread) fun b hrun => ?_
        rw [booleanOf?_eq_some_iff.2 hrun] at hb
        cases hb
  · intro h
    unfold classify
    cases h with
    | integer h =>
      rw [read?_eq_some_iff.2 h]
      simp only [narrow?_eq_some_iff.2 rfl, Option.map_some]
    | @boolean b h hnext =>
      have hread : Decimal.read? run = none := by
        rw [h]
        cases b <;> rfl
      have hany : next.any isWideBlank = false := by
        rw [Bool.eq_false_iff]
        intro hw
        obtain ⟨c, hc, hblank⟩ := hwide.1 hw
        rw [hnext c hc] at hblank
        cases hblank
      simp [hread, booleanOf?_eq_some_iff.2 h, hany]
    | symbol hinteger hboolean =>
      have hread : Decimal.read? run = none := by
        cases hr : Decimal.read? run with
        | none => rfl
        | some z => exact absurd (read?_eq_some_iff.1 hr) (hinteger z)
      rw [hread]
      cases hb : booleanOf? run with
      | none => rfl
      | some b => simp [hwide.2 (hboolean b (booleanOf?_eq_some_iff.1 hb))]

theorem classify_eq_none_iff {run : List Char} {next : Option Char} :
    classify run next = none ↔ ∃ z, IsInteger run z ∧ ¬IsWord z := by
  unfold classify
  constructor
  · intro h
    split at h
    · rename_i z hz
      exact ⟨z, read?_eq_some_iff.1 hz, narrow?_eq_none_iff.1 (Option.map_eq_none_iff.1 h)⟩
    · split at h <;> cases h
  · rintro ⟨z, hz, hword⟩
    rw [read?_eq_some_iff.2 hz]
    simp [narrow?_eq_none_iff.2 hword]

/-! ## Pieces -/

/-- A run of atom characters that cannot be extended on either side. -/
structure IsRun (before run after : List Char) : Prop where
  ne_nil : run ≠ []
  atoms : ∀ c ∈ run, isAtomChar c = true
  left : ∀ c, before.getLast? = some c → isAtomChar c = false
  right : ∀ c, after.head? = some c → isAtomChar c = false

/-- A piece of the text `before ++ text ++ after` that makes one token. -/
inductive IsPiece (before text after : List Char) : Prop
  | paren (h : text = ['('] ∨ text = [')'])
  | run (h : IsRun before text after)

theorem isAtomChar_iff {c : Char} :
    isAtomChar c = true ↔ isBlank c = false ∧ c ≠ '(' ∧ c ≠ ')' := by
  simp [isAtomChar, and_assoc]

namespace IsPiece

variable {before text after before' text' after' : List Char}

theorem ne_nil (h : IsPiece before text after) : text ≠ [] := by
  rcases h with (rfl | rfl) | h
  · exact List.cons_ne_nil _ _
  · exact List.cons_ne_nil _ _
  · exact h.ne_nil

theorem not_blank (h : IsPiece before text after) {c : Char} (hc : c ∈ text) :
    isBlank c = false := by
  rcases h with (rfl | rfl) | h
  · rw [List.mem_singleton.1 hc]
    decide
  · rw [List.mem_singleton.1 hc]
    decide
  · exact (isAtomChar_iff.1 (h.atoms c hc)).1

end IsPiece

/-- A maximal run is all of the text up to the next character that belongs to no atom. -/
theorem IsRun.takeWhile_eq {before run after : List Char} (h : IsRun before run after) :
    (run ++ after).takeWhile isAtomChar = run := by
  rw [List.takeWhile_append_of_pos h.atoms]
  cases after with
  | nil => simp
  | cons c after => simp [h.right c rfl]

namespace IsPiece

variable {before text after before' text' after' mid : List Char}

/-- A run does not start with a parenthesis. -/
theorem not_run_of_paren {c : Char} {rest : List Char} (hc : c = '(' ∨ c = ')')
    (h : IsRun before text after) (heq : c :: rest = text ++ after) : False := by
  obtain ⟨d, ds, rfl⟩ := List.exists_cons_of_ne_nil h.ne_nil
  cases (List.cons.inj heq).1
  have hd := isAtomChar_iff.1 (h.atoms c List.mem_cons_self)
  exact hc.elim hd.2.1 hd.2.2

/-- Two pieces that start at the same place are the same. -/
theorem same (h : IsPiece before text after) (h' : IsPiece before text' after')
    (heq : text ++ after = text' ++ after') : text = text' ∧ after = after' := by
  have htext : text = text' := by
    rcases h with hp | h
    · rcases h' with hp' | h'
      · rcases hp with rfl | rfl <;> rcases hp' with rfl | rfl <;> simp_all
      · rcases hp with rfl | rfl
        · exact (not_run_of_paren (.inl rfl) h' heq).elim
        · exact (not_run_of_paren (.inr rfl) h' heq).elim
    · rcases h' with hp' | h'
      · rcases hp' with rfl | rfl
        · exact (not_run_of_paren (.inl rfl) h heq.symm).elim
        · exact (not_run_of_paren (.inr rfl) h heq.symm).elim
      · rw [← h.takeWhile_eq, ← h'.takeWhile_eq, heq]
  subst htext
  exact ⟨rfl, List.append_cancel_left heq⟩

/-- No piece starts inside another one. -/
theorem not_inside (h : IsPiece before (mid ++ text) after) (hmid : mid ≠ []) (htext : text ≠ [])
    (h' : IsPiece (before ++ mid) text' after') (heq : text ++ after = text' ++ after') :
    False := by
  rcases h with hp | h
  · -- a parenthesis is too short to hold two characters
    have hlen : (mid ++ text).length = 1 := by rcases hp with hp | hp <;> rw [hp] <;> rfl
    have hm := List.length_pos_of_ne_nil hmid
    have ht := List.length_pos_of_ne_nil htext
    rw [List.length_append] at hlen
    omega
  · have hatom {c : Char} (hc : c ∈ mid ++ text) := isAtomChar_iff.1 (h.atoms c hc)
    rcases h' with hp | h'
    · obtain ⟨c, cs, rfl⟩ := List.exists_cons_of_ne_nil htext
      have hc := hatom (c := c) (by simp)
      rcases hp with rfl | rfl
      · exact hc.2.1 (List.cons.inj heq).1
      · exact hc.2.2 (List.cons.inj heq).1
    · have hlast : (before ++ mid).getLast? = some (mid.getLast hmid) := by
        rw [List.getLast?_append, List.getLast?_eq_some_getLast hmid]
        rfl
      have hfalse := h'.left _ hlast
      rw [h.atoms _ (List.mem_append_left _ (List.getLast_mem hmid))] at hfalse
      cases hfalse

/-- **Pieces that meet are the same.** -/
theorem meet (h : IsPiece before text after) (h' : IsPiece before' text' after')
    (heq : before ++ text ++ after = before' ++ text' ++ after')
    (hle : byteSize before ≤ byteSize before')
    (hlt : byteSize before' < byteSize (before ++ text)) :
    before' = before ∧ text' = text ∧ after' = after := by
  rw [List.append_assoc, List.append_assoc] at heq
  obtain ⟨mid, rfl, hrest⟩ := exists_append_of_byteSize_le heq hle
  have hcut : mid ++ (text' ++ after') = text ++ after := hrest.symm
  obtain ⟨rest, rfl, hafter⟩ := exists_append_of_byteSize_le hcut (by
    rw [byteSize_append, byteSize_append] at hlt
    omega)
  by_cases hmid : mid = []
  · subst hmid
    rw [List.append_nil] at h' ⊢
    obtain ⟨rfl, rfl⟩ := h'.same h hcut
    exact ⟨rfl, rfl, rfl⟩
  · have hne : rest ≠ [] := by
      rintro rfl
      rw [List.append_nil] at hlt
      omega
    exact (not_inside h hmid hne h' hafter.symm).elim

end IsPiece

/-! ## Tokens -/

/-- The kind of token that a piece is, `next` being the character after it. -/
inductive KindOf : List Char → Option Char → TokenKind → Prop
  | opening (next : Option Char) : KindOf ['('] next .opening
  | closing (next : Option Char) : KindOf [')'] next .closing
  | atom {run : List Char} {next : Option Char} {a : Atom}
      (hrun : ∀ c ∈ run, isAtomChar c = true) (ha : Denotes run next a) : KindOf run next (.atom a)

theorem KindOf.unique {text : List Char} {next : Option Char} {k k' : TokenKind}
    (h : KindOf text next k) (h' : KindOf text next k') : k = k' := by
  have hparen {c : Char} (hc : c = '(' ∨ c = ')') (hrun : ∀ d ∈ [c], isAtomChar d = true) :
      False := by
    have hd := isAtomChar_iff.1 (hrun c List.mem_cons_self)
    exact hc.elim hd.2.1 hd.2.2
  cases h with
  | opening =>
    cases h' with
    | opening => rfl
    | atom hrun => exact (hparen (.inl rfl) hrun).elim
  | closing =>
    cases h' with
    | closing => rfl
    | atom hrun => exact (hparen (.inr rfl) hrun).elim
  | atom hrun ha =>
    cases h' with
    | opening => exact (hparen (.inl rfl) hrun).elim
    | closing => exact (hparen (.inr rfl) hrun).elim
    | atom _ ha' =>
      have heq := (classify_eq_some_iff.2 ha).symm.trans (classify_eq_some_iff.2 ha')
      cases heq
      rfl

/-- The token is that of a piece of the text, with the piece's range. -/
def TokenOf (cs : List Char) (t : Token) : Prop :=
  ∃ before text after, cs = before ++ text ++ after ∧ IsPiece before text after ∧
    KindOf text after.head? t.kind ∧ t.span = place before text

/-- The tokens of a text: those of pieces of it, with ranges that are not empty and follow each
other, and every character outside them is a blank. -/
structure IsTokenization (cs : List Char) (ts : List Token) : Prop where
  pieces : ∀ t ∈ ts, TokenOf cs t
  nonempty : ∀ t ∈ ts, t.span.start < t.span.stop
  ordered : ts.Pairwise fun t u => t.span.stop ≤ u.span.start
  covered : ∀ {before c after}, cs = before ++ c :: after → isBlank c = false →
    ∃ t ∈ ts, t.span.start ≤ byteSize before ∧ byteSize (before ++ [c]) ≤ t.span.stop

/-- A maximal run that is an integer outside 64 bits. -/
structure Oversized (cs before run after : List Char) : Prop where
  text : cs = before ++ run ++ after
  isRun : IsRun before run after
  value : ∃ z, IsInteger run z ∧ ¬IsWord z

section

variable {cs : List Char} {ts : List Token} {t u : Token}

/-- An integer outside 64 bits is no token. -/
theorem Oversized.not_kindOf {before run after : List Char} {k : TokenKind}
    (h : Oversized cs before run after) (hkind : KindOf run after.head? k) : False := by
  have hnone : classify run after.head? = none := classify_eq_none_iff.2 h.value
  cases hkind with
  | opening => exact absurd (h.isRun.atoms '(' List.mem_cons_self) (by decide)
  | closing => exact absurd (h.isRun.atoms ')' List.mem_cons_self) (by decide)
  | atom _ ha =>
    rw [classify_eq_some_iff.2 ha] at hnone
    cases hnone

theorem TokenOf.nonempty (h : TokenOf cs t) : t.span.start < t.span.stop := by
  obtain ⟨before, text, after, -, hpiece, -, hspan⟩ := h
  have hpos := byteSize_pos hpiece.ne_nil
  rw [hspan, place]
  simp only [byteSize_append]
  omega

theorem TokenOf.stop_le (h : TokenOf cs t) : t.span.stop ≤ byteSize cs := by
  obtain ⟨before, text, after, rfl, -, -, hspan⟩ := h
  rw [hspan, place, byteSize_append _ after]
  exact Nat.le_add_right _ _

/-- Tokens of a text that meet are the same. -/
theorem TokenOf.meet (h : TokenOf cs t) (h' : TokenOf cs u) (hle : t.span.start ≤ u.span.start)
    (hlt : u.span.start < t.span.stop) : u = t := by
  obtain ⟨before, text, after, hcs, hpiece, hkind, hspan⟩ := h
  obtain ⟨before', text', after', hcs', hpiece', hkind', hspan'⟩ := h'
  obtain ⟨kind, span⟩ := t
  obtain ⟨kind', span'⟩ := u
  cases hspan
  cases hspan'
  obtain ⟨rfl, rfl, rfl⟩ := hpiece.meet hpiece' (hcs.symm.trans hcs') hle hlt
  cases hkind.unique hkind'
  rfl

/-- **The tokens of a text are those of its pieces.** Each piece starts with a character that is
no blank, so some token covers it, and that token is its own. -/
theorem IsTokenization.mem_iff (h : IsTokenization cs ts) : t ∈ ts ↔ TokenOf cs t := by
  refine ⟨h.pieces t, fun ht => ?_⟩
  obtain ⟨before, text, after, hcs, hpiece, -, hspan⟩ := id ht
  obtain ⟨c, rest, rfl⟩ := List.exists_cons_of_ne_nil hpiece.ne_nil
  have hsplit : cs = before ++ c :: (rest ++ after) := by simp [hcs]
  obtain ⟨u, hu, hle, hge⟩ := h.covered hsplit (hpiece.not_blank List.mem_cons_self)
  have hpos := c.utf8Size_pos
  have hstart : t.span.start = byteSize before := by rw [hspan, place]
  have hlt : byteSize before < u.span.stop := by
    simp only [byteSize_append, byteSize_cons, byteSize_nil] at hge
    omega
  rw [(h.pieces u hu).meet ht (by omega) (by omega)]
  exact hu

/-- A text has at most one tokenization. -/
theorem IsTokenization.unique {us : List Token} (h : IsTokenization cs ts)
    (h' : IsTokenization cs us) : us = ts := by
  have hstarts {vs : List Token} (hvs : IsTokenization cs vs) :
      vs.Pairwise fun t u => t.span.start < u.span.start := by
    refine hvs.ordered.imp_of_mem fun {t u} ht _ hle => ?_
    exact Nat.lt_of_lt_of_le (hvs.nonempty t ht) hle
  have : Std.Asymm fun t u : Token => t.span.start < u.span.start :=
    ⟨fun _ _ h h' => Nat.lt_asymm h h'⟩
  exact (hstarts h').eq_of_mem_iff (hstarts h) fun t => h'.mem_iff.trans h.mem_iff.symm

/-- Where an integer is outside 64 bits there is no tokenization: the run would be a token. -/
theorem IsTokenization.not_oversized (h : IsTokenization cs ts) {before run after : List Char}
    (ho : Oversized cs before run after) : False := by
  obtain ⟨c, rest, rfl⟩ := List.exists_cons_of_ne_nil ho.isRun.ne_nil
  have hsplit : cs = before ++ c :: (rest ++ after) := by simp [ho.text]
  obtain ⟨t, ht, hle, hge⟩ := h.covered hsplit
    ((IsPiece.run ho.isRun).not_blank List.mem_cons_self)
  obtain ⟨before', text', after', hcs, hpiece, hkind, hspan⟩ := h.pieces t ht
  have hpos := c.utf8Size_pos
  rw [hspan, place] at hle hge
  obtain ⟨rfl, rfl, rfl⟩ := hpiece.meet (.run ho.isRun) (hcs.symm.trans ho.text) hle (by
    simp only [byteSize_append, byteSize_cons, byteSize_nil] at hge ⊢
    omega)
  exact ho.not_kindOf hkind

end

/-! ## What the lexer yields -/

/-- The tokens of `cs`, which stands after `before`. -/
structure TokensAfter (before cs : List Char) (ts : List Token) : Prop where
  pieces : ∀ t ∈ ts, TokenOf (before ++ cs) t ∧ byteSize before ≤ t.span.start
  ordered : ts.Pairwise fun t u => t.span.stop ≤ u.span.start
  covered : ∀ {mid c after}, cs = mid ++ c :: after → isBlank c = false →
    ∃ t ∈ ts, t.span.start ≤ byteSize (before ++ mid) ∧
      byteSize (before ++ mid ++ [c]) ≤ t.span.stop

/-- The first integer outside 64 bits in `cs`, which stands after `before`, is where the error
is. -/
def FailsAfter (before cs : List Char) (e : LexError) : Prop :=
  ∃ mid run after, Oversized (before ++ cs) (before ++ mid) run after ∧
    e = ⟨.integerOutOfRange (String.ofList run), place (before ++ mid) run⟩ ∧
    ∀ before' run' after', Oversized (before ++ cs) before' run' after' →
      byteSize before ≤ byteSize before' → byteSize (before ++ mid) ≤ byteSize before'

section

variable {before text cs after : List Char} {ts : List Token} {e : LexError} {c : Char}

theorem TokensAfter.nil (before : List Char) : TokensAfter before [] [] where
  pieces := nofun
  ordered := .nil
  covered h := by simp at h

theorem TokensAfter.blank (hc : isBlank c = true) (h : TokensAfter (before ++ [c]) cs ts) :
    TokensAfter before (c :: cs) ts where
  pieces t ht := by
    obtain ⟨hpiece, hle⟩ := h.pieces t ht
    rw [List.append_assoc] at hpiece
    rw [byteSize_append] at hle
    exact ⟨hpiece, by omega⟩
  ordered := h.ordered
  covered {mid d after} heq hd := by
    cases mid with
    | nil =>
      cases (List.cons.inj heq).1
      rw [hc] at hd
      cases hd
    | cons b mid =>
      obtain ⟨rfl, rfl⟩ := List.cons.inj heq
      simpa using h.covered rfl hd

/-- A piece in front is the first token. -/
theorem TokensAfter.piece {k : TokenKind} (hpiece : IsPiece before text cs)
    (hkind : KindOf text cs.head? k) (h : TokensAfter (before ++ text) cs ts) :
    TokensAfter before (text ++ cs) (⟨k, place before text⟩ :: ts) where
  pieces := by
    refine List.forall_mem_cons.2 ⟨⟨⟨before, text, cs, by simp, hpiece, hkind, rfl⟩, ?_⟩, ?_⟩
    · exact Nat.le_refl _
    · intro t ht
      obtain ⟨ht, hle⟩ := h.pieces t ht
      rw [List.append_assoc] at ht
      rw [byteSize_append] at hle
      exact ⟨ht, by omega⟩
  ordered := List.pairwise_cons.2 ⟨fun t ht => (h.pieces t ht).2, h.ordered⟩
  covered {mid c after} heq hc := by
    rcases List.append_eq_append_iff.1 heq with ⟨mid', hm, hcs⟩ | ⟨rest, htext, hrest⟩
    · obtain ⟨t, ht, hle, hge⟩ := h.covered hcs hc
      refine ⟨t, List.mem_cons_of_mem _ ht, ?_⟩
      rw [hm, ← List.append_assoc]
      exact ⟨hle, hge⟩
    · cases rest with
      | nil =>
        have hcs : cs = [] ++ c :: after := by simpa using hrest.symm
        obtain ⟨t, ht, hle, hge⟩ := h.covered hcs hc
        refine ⟨t, List.mem_cons_of_mem _ ht, ?_⟩
        simp only [List.append_nil] at htext hle hge
        rw [← htext]
        exact ⟨hle, hge⟩
      | cons d rest =>
        cases (List.cons.inj hrest).1
        refine ⟨_, List.mem_cons_self, ?_, ?_⟩
        · simp [place]
        · simp only [place, htext, byteSize_append, byteSize_cons, byteSize_nil]
          omega

theorem FailsAfter.blank (hc : isBlank c = true) (h : FailsAfter (before ++ [c]) cs e) :
    FailsAfter before (c :: cs) e := by
  obtain ⟨mid, run, after, ho, he, hfirst⟩ := h
  simp only [List.append_assoc, List.singleton_append] at ho he hfirst
  refine ⟨c :: mid, run, after, ho, he, fun before' run' after' ho' hle => ?_⟩
  refine hfirst before' run' after' ho' ?_
  -- a run does not start at the blank
  obtain ⟨rest, rfl, hrest⟩ := exists_append_of_byteSize_le
    (by simpa [List.append_assoc] using ho'.text) hle
  cases rest with
  | nil =>
    obtain ⟨d, ds, rfl⟩ := List.exists_cons_of_ne_nil ho'.isRun.ne_nil
    have hd := (IsPiece.run ho'.isRun).not_blank List.mem_cons_self
    rw [← (List.cons.inj hrest).1, hc] at hd
    cases hd
  | cons d rest =>
    rw [(List.cons.inj hrest).1]
    simp only [byteSize_append, byteSize_cons, byteSize_nil]
    omega

/-- A piece in front that is a token is not where the error is. -/
theorem FailsAfter.piece {k : TokenKind} (hpiece : IsPiece before text cs)
    (hkind : KindOf text cs.head? k) (h : FailsAfter (before ++ text) cs e) :
    FailsAfter before (text ++ cs) e := by
  obtain ⟨mid, run, after, ho, he, hfirst⟩ := h
  simp only [List.append_assoc] at ho he hfirst
  refine ⟨text ++ mid, run, after, ho, he, fun before' run' after' ho' hle => ?_⟩
  refine hfirst before' run' after' ho' (Nat.le_of_not_lt fun hlt => ?_)
  obtain ⟨rfl, rfl, rfl⟩ := hpiece.meet (.run ho'.isRun)
    (by rw [← ho'.text, List.append_assoc]) hle hlt
  exact ho'.not_kindOf hkind

/-- The rest of a text does not go on with an atom character where an atom has just ended. -/
def Fresh (before cs : List Char) : Prop :=
  ∀ c d, before.getLast? = some c → cs.head? = some d → isAtomChar c = true →
    isAtomChar d = false

theorem Fresh.isRun {c : Char} {rest : List Char} (h : Fresh before (c :: rest))
    (hc : isAtomChar c = true) :
    IsRun before (c :: rest.takeWhile isAtomChar) (rest.dropWhile isAtomChar) where
  ne_nil := List.cons_ne_nil _ _
  atoms := List.forall_mem_cons.2 ⟨hc, List.all_eq_true.1 List.all_takeWhile⟩
  left d hd := by
    by_contra hatom
    have hfalse := h d c hd rfl (by simpa using hatom)
    rw [hc] at hfalse
    cases hfalse
  right d hd := by
    have hhead := List.head?_dropWhile_not isAtomChar rest
    rw [hd] at hhead
    simpa using hhead

theorem fresh_of_getLast {text : List Char} (htext : text ≠ [])
    (h : isAtomChar (text.getLast htext) = false) : Fresh (before ++ text) cs := by
  intro c d hc _ hatom
  rw [List.getLast?_append, List.getLast?_eq_some_getLast htext] at hc
  cases hc
  rw [h] at hatom
  cases hatom

/-- What the lexer yields for `cs`, which stands after `before`. -/
def LexedAfter (before cs : List Char) : Except LexError (List Token) → Prop
  | .ok ts => TokensAfter before cs ts
  | .error e => FailsAfter before cs e

theorem LexedAfter.piece {k : TokenKind} {r : Except LexError (List Token)}
    (hpiece : IsPiece before text cs) (hkind : KindOf text cs.head? k)
    (h : LexedAfter (before ++ text) cs r) :
    LexedAfter before (text ++ cs) (r.map (⟨k, place before text⟩ :: ·)) := by
  cases r with
  | ok ts => exact TokensAfter.piece hpiece hkind h
  | error e => exact FailsAfter.piece hpiece hkind h

/-- **From any place** in a text where no atom has to go on, the lexer yields the tokens that
follow, or the first integer outside 64 bits that follows. -/
theorem lexedAfter_lexFrom (before cs : List Char) (hfresh : Fresh before cs) :
    LexedAfter before cs (lexFrom (byteSize before) cs) := by
  induction hn : cs.length using Nat.strong_induction_on generalizing before cs with
  | _ n ih =>
    subst hn
    cases cs with
    | nil =>
      rw [lexFrom]
      exact TokensAfter.nil before
    | cons c rest =>
      have hsize : byteSize before + c.utf8Size = byteSize (before ++ [c]) := by simp
      have hnext (h : isAtomChar c = false) :
          LexedAfter (before ++ [c]) rest (lexFrom (byteSize (before ++ [c])) rest) :=
        ih rest.length (by simp) (before ++ [c]) rest
          (fresh_of_getLast (List.cons_ne_nil c []) h) rfl
      rw [lexFrom]
      by_cases hblank : isBlank c = true
      · rw [if_pos hblank, hsize]
        have h := hnext (by simp [isAtomChar, hblank])
        cases hlex : lexFrom (byteSize (before ++ [c])) rest with
        | ok ts =>
          rw [hlex] at h
          exact TokensAfter.blank hblank h
        | error e =>
          rw [hlex] at h
          exact FailsAfter.blank hblank h
      rw [if_neg hblank]
      by_cases hopen : c = '('
      · subst hopen
        rw [if_pos rfl]
        simp only [show byteSize before + 1 = byteSize (before ++ ['(']) from hsize]
        have hpiece : IsPiece before ['('] rest := .paren (.inl rfl)
        exact (hnext rfl).piece hpiece (.opening _)
      rw [if_neg hopen]
      by_cases hclose : c = ')'
      · subst hclose
        rw [if_pos rfl]
        simp only [show byteSize before + 1 = byteSize (before ++ [')']) from hsize]
        have hpiece : IsPiece before [')'] rest := .paren (.inr rfl)
        exact (hnext rfl).piece hpiece (.closing _)
      rw [if_neg hclose]
      have hatom : isAtomChar c = true := isAtomChar_iff.2 ⟨by simpa using hblank, hopen, hclose⟩
      have hrun := hfresh.isRun hatom
      have hcut : c :: rest = (c :: rest.takeWhile isAtomChar) ++ rest.dropWhile isAtomChar := by
        simp
      have hstop : byteSize before + byteSize (c :: rest.takeWhile isAtomChar) =
          byteSize (before ++ c :: rest.takeWhile isAtomChar) := by simp
      simp only [hstop]
      cases hclass : classify (c :: rest.takeWhile isAtomChar)
          (rest.dropWhile isAtomChar).head? with
      | none =>
        refine ⟨[], _, rest.dropWhile isAtomChar, ⟨?_, ?_, classify_eq_none_iff.1 hclass⟩, ?_, ?_⟩
        · rw [List.append_nil, List.append_assoc, ← hcut]
        · rwa [List.append_nil]
        · rw [List.append_nil]
          rfl
        · intro before' run' after' _ hle
          rwa [List.append_nil]
      | some a =>
        have hafter : Fresh (before ++ c :: rest.takeWhile isAtomChar)
            (rest.dropWhile isAtomChar) := fun _ d _ hd _ => hrun.right d hd
        have hlen : (rest.dropWhile isAtomChar).length < (c :: rest).length :=
          Nat.lt_succ_of_le (List.length_dropWhile_le _ _)
        have h := ih _ hlen _ _ hafter rfl
        have hpiece := h.piece (.run hrun)
          (.atom hrun.atoms (classify_eq_some_iff.1 hclass))
        rw [← hcut] at hpiece
        exact hpiece

end

theorem fresh_start (cs : List Char) : Fresh [] cs := nofun

theorem isTokenization_of_tokenize {source : String} {ts : List Token}
    (h : tokenize source = .ok ts) : IsTokenization source.toList ts := by
  have hlex := lexedAfter_lexFrom [] source.toList (fresh_start _)
  rw [tokenize_eq] at h
  rw [byteSize_nil, h] at hlex
  exact {
    pieces := fun t ht => (hlex.pieces t ht).1
    nonempty := fun t ht => (hlex.pieces t ht).1.nonempty
    ordered := hlex.ordered
    covered := fun heq hc => hlex.covered heq hc }

/-- The error is at the first integer outside 64 bits. -/
def IsFirstOversized (cs : List Char) (e : LexError) : Prop :=
  ∃ before run after, Oversized cs before run after ∧
    e = ⟨.integerOutOfRange (String.ofList run), place before run⟩ ∧
    ∀ before' run' after', Oversized cs before' run' after' → byteSize before ≤ byteSize before'

theorem isFirstOversized_of_tokenize {source : String} {e : LexError}
    (h : tokenize source = .error e) : IsFirstOversized source.toList e := by
  have hlex := lexedAfter_lexFrom [] source.toList (fresh_start _)
  rw [tokenize_eq] at h
  rw [byteSize_nil, h] at hlex
  obtain ⟨before, run, after, ho, he, hfirst⟩ := hlex
  exact ⟨before, run, after, ho, he,
    fun before' run' after' ho' => hfirst before' run' after' ho' (Nat.zero_le _)⟩

theorem IsFirstOversized.unique {cs : List Char} {e e' : LexError} (h : IsFirstOversized cs e)
    (h' : IsFirstOversized cs e') : e = e' := by
  obtain ⟨before, run, after, ho, rfl, hfirst⟩ := h
  obtain ⟨before', run', after', ho', rfl, hfirst'⟩ := h'
  have hpos := byteSize_pos ho.isRun.ne_nil
  have hle := hfirst' before run after ho
  obtain ⟨rfl, rfl, -⟩ := (IsPiece.run ho.isRun).meet (.run ho'.isRun) (ho.text.symm.trans ho'.text)
    (hfirst before' run' after' ho') (by rw [byteSize_append]; omega)
  rfl

/-- **The lexer computes exactly the maximal-munch tokenization.** It succeeds with the one list
of tokens that there is: ranges of characters of the text, not empty, in order and disjoint, with
nothing but blanks outside them, each a parenthesis or a maximal run and named for it. It fails
if and only if some maximal run is an integer outside 64 bits, and then the error has the text
and the range of the first one. That no rule matches at some place is never the error. -/
theorem tokenize_is_maximal_munch (source : String) :
    (∀ ts, tokenize source = .ok ts ↔
      IsTokenization source.toList ts ∧ ∀ ts', IsTokenization source.toList ts' → ts' = ts) ∧
    (∀ e, tokenize source = .error e ↔ IsFirstOversized source.toList e) ∧
    ((∃ e, tokenize source = .error e) ↔
      ∃ before run after, Oversized source.toList before run after) ∧
    ∀ span, tokenize source ≠ .error ⟨.invalidToken, span⟩ := by
  -- a text with an integer outside 64 bits has no tokenization, so the lexer fails
  have hfails {before run after : List Char} (ho : Oversized source.toList before run after) :
      ∃ e, tokenize source = .error e := by
    cases h : tokenize source with
    | ok ts => exact ((isTokenization_of_tokenize h).not_oversized ho).elim
    | error e => exact ⟨e, rfl⟩
  refine ⟨fun ts => ⟨fun h => ?_, fun h => ?_⟩,
    fun e => ⟨isFirstOversized_of_tokenize, fun h => ?_⟩, ⟨fun h => ?_, fun h => ?_⟩,
    fun span h => ?_⟩
  · have htok := isTokenization_of_tokenize h
    exact ⟨htok, fun ts' h' => htok.unique h'⟩
  · cases hres : tokenize source with
    | ok us => rw [h.2 us (isTokenization_of_tokenize hres)]
    | error e =>
      obtain ⟨before, run, after, ho, -⟩ := isFirstOversized_of_tokenize hres
      exact (h.1.not_oversized ho).elim
  · obtain ⟨before, run, after, ho, -⟩ := id h
    obtain ⟨e', he'⟩ := hfails ho
    rw [he', h.unique (isFirstOversized_of_tokenize he')]
  · obtain ⟨e, he⟩ := h
    obtain ⟨before, run, after, ho, -⟩ := isFirstOversized_of_tokenize he
    exact ⟨before, run, after, ho⟩
  · obtain ⟨before, run, after, ho⟩ := h
    exact hfails ho
  · obtain ⟨before, run, after, -, he, -⟩ := isFirstOversized_of_tokenize h
    cases he

end MiniScheme
