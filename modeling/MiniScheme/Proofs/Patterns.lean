import Mathlib.Data.List.Basic
import MiniScheme.Token.Lexer

/-!
# Patterns, and the longest match

`Pattern.Matches` is the language of a pattern. A derivative matches what its pattern matches after
the character (`matches_deriv`), so following derivatives through a text tells at each place which
rules match what was taken up to there.

`LongestMatch` says which rule is to be taken at the beginning of a text: one with the longest match
of all, and of those with this match one with the highest priority. It is all that is assumed of the
generated lexer about overlapping rules.

## Results

* `Pattern.matches_deriv`, `Pattern.nullable_iff`.
* `TokenRule.longest?_spec`: the rule that is found is one to take, and if none is found then no
  rule matches.
-/

namespace MiniScheme

namespace Pattern

/-- The texts that a pattern matches. -/
inductive Matches : Pattern → List Char → Prop
  | empty : Matches empty []
  | char {p : Char → Bool} {c : Char} (h : p c = true) : Matches (char p) [c]
  | seq {a b : Pattern} {v w : List Char} (first : Matches a v) (second : Matches b w) :
      Matches (seq a b) (v ++ w)
  | left {a : Pattern} (b : Pattern) {w : List Char} (h : Matches a w) : Matches (alt a b) w
  | right (a : Pattern) {b : Pattern} {w : List Char} (h : Matches b w) : Matches (alt a b) w
  | done (a : Pattern) : Matches (star a) []
  | more {a : Pattern} {v w : List Char} (first : Matches a v) (rest : Matches (star a) w) :
      Matches (star a) (v ++ w)

variable {a b : Pattern} {w : List Char} {c : Char}

theorem matches_seq_iff : (seq a b).Matches w ↔ ∃ u v, w = u ++ v ∧ a.Matches u ∧ b.Matches v := by
  constructor
  · rintro ⟨⟩
    exact ⟨_, _, rfl, ‹_›, ‹_›⟩
  · rintro ⟨u, v, rfl, hu, hv⟩
    exact .seq hu hv

theorem matches_alt_iff : (alt a b).Matches w ↔ a.Matches w ∨ b.Matches w := by
  constructor
  · rintro ⟨⟩
    · exact .inl ‹_›
    · exact .inr ‹_›
  · rintro (h | h)
    · exact .left b h
    · exact .right a h

theorem matches_char_iff {p : Char → Bool} :
    (char p).Matches w ↔ ∃ c, w = [c] ∧ p c = true := by
  constructor
  · intro h
    cases h with
    | char hp => exact ⟨_, rfl, hp⟩
  · rintro ⟨c, rfl, h⟩
    exact .char h

theorem matches_empty_iff : empty.Matches w ↔ w = [] := by
  constructor
  · rintro ⟨⟩
    rfl
  · rintro rfl
    exact .empty

theorem not_matches_never : ¬never.Matches w := by
  rintro ⟨⟩

theorem isNever_eq_false (h : a.Matches w) : a.isNever = false := by
  cases h <;> rfl

theorem nullable_iff : a.nullable = true ↔ a.Matches [] := by
  induction a with
  | never => simp [nullable, not_matches_never]
  | empty => simp [nullable, matches_empty_iff]
  | char p => simp [nullable, matches_char_iff]
  | seq a b iha ihb => simp [nullable, matches_seq_iff, iha, ihb]
  | alt a b iha ihb => simp [nullable, matches_alt_iff, iha, ihb]
  | star a => simp [nullable, Matches.done]

theorem matches_followedBy_iff : (followedBy a b).Matches w ↔ (seq a b).Matches w := by
  unfold followedBy
  split
  · simp [matches_seq_iff, not_matches_never]
  · simp [matches_seq_iff, matches_empty_iff]
  · rfl

theorem matches_orElse_iff : (orElse a b).Matches w ↔ a.Matches w ∨ b.Matches w := by
  unfold orElse
  split
  · simp [not_matches_never]
  · simp [not_matches_never]
  · exact matches_alt_iff

/-- A text that starts with a character and is matched several times over starts with a part that
is matched once and starts with the character. -/
theorem matches_star_cons_iff :
    (star a).Matches (c :: w) ↔ ∃ u v, w = u ++ v ∧ a.Matches (c :: u) ∧ (star a).Matches v := by
  constructor
  · intro h
    generalize hstar : star a = s at h
    generalize hcw : c :: w = cw at h
    induction h with
    | empty | char | seq | left | right => cases hstar
    | done => cases hcw
    | @more a' v' w' first rest _ ih =>
      cases hstar
      cases v' with
      | nil => exact ih rfl hcw
      | cons d v' =>
        cases hcw
        exact ⟨v', w', rfl, first, rest⟩
  · rintro ⟨u, v, rfl, hu, hv⟩
    exact .more hu hv

/-- **What is left after a character.** -/
theorem matches_deriv : ∀ (a : Pattern) (c : Char) (w : List Char),
    (a.deriv c).Matches w ↔ a.Matches (c :: w)
  | never, c, w => by simp [deriv, not_matches_never]
  | empty, c, w => by simp [deriv, not_matches_never, matches_empty_iff]
  | char p, c, w => by
    by_cases h : p c = true <;>
      simp [deriv, h, matches_char_iff, matches_empty_iff, not_matches_never]
  | alt a b, c, w => by
    rw [deriv, matches_orElse_iff, matches_alt_iff, matches_deriv a, matches_deriv b]
  | star a, c, w => by
    rw [deriv, matches_followedBy_iff, matches_seq_iff, matches_star_cons_iff]
    simp only [matches_deriv a]
  | seq a b, c, w => by
    have hfirst : (followedBy (a.deriv c) b).Matches w ↔
        ∃ u v, w = u ++ v ∧ a.Matches (c :: u) ∧ b.Matches v := by
      rw [matches_followedBy_iff, matches_seq_iff]
      simp only [matches_deriv a]
    have hsplit : (seq a b).Matches (c :: w) ↔
        (∃ u v, w = u ++ v ∧ a.Matches (c :: u) ∧ b.Matches v) ∨
          a.Matches [] ∧ b.Matches (c :: w) := by
      rw [matches_seq_iff]
      constructor
      · rintro ⟨u, v, huv, hu, hv⟩
        cases u with
        | nil =>
          rw [List.nil_append] at huv
          exact .inr ⟨hu, huv ▸ hv⟩
        | cons d u =>
          cases huv
          exact .inl ⟨u, v, rfl, hu, hv⟩
      · rintro (⟨u, v, rfl, hu, hv⟩ | ⟨hnil, hb⟩)
        · exact ⟨c :: u, v, rfl, hu, hv⟩
        · exact ⟨[], c :: w, rfl, hnil, hb⟩
    rw [deriv, hsplit]
    split
    · rename_i hnull
      rw [matches_orElse_iff, hfirst, matches_deriv b, and_iff_right (nullable_iff.1 hnull)]
    · rename_i hnull
      rw [hfirst, or_iff_left fun h => hnull (nullable_iff.2 h.1)]

/-! ## The patterns of the table -/

theorem matches_star_char_iff {p : Char → Bool} :
    (star (char p)).Matches w ↔ ∀ c ∈ w, p c = true := by
  induction w with
  | nil => simp [Matches.done]
  | cons c w ih =>
    rw [matches_star_cons_iff, List.forall_mem_cons, ← ih]
    constructor
    · rintro ⟨u, v, rfl, hu, hv⟩
      obtain ⟨d, hd, hp⟩ := matches_char_iff.1 hu
      cases hd
      exact ⟨hp, hv⟩
    · rintro ⟨hp, hw⟩
      exact ⟨[], w, rfl, .char hp, hw⟩

/-- A run of characters of a class. -/
theorem matches_plus_char_iff {p : Char → Bool} :
    (plus (char p)).Matches w ↔ w ≠ [] ∧ ∀ c ∈ w, p c = true := by
  rw [plus, matches_seq_iff]
  constructor
  · rintro ⟨u, v, rfl, hu, hv⟩
    obtain ⟨c, rfl, hp⟩ := matches_char_iff.1 hu
    exact ⟨by simp, List.forall_mem_cons.2 ⟨hp, matches_star_char_iff.1 hv⟩⟩
  · rintro ⟨hne, hw⟩
    obtain ⟨c, w, rfl⟩ := List.exists_cons_of_ne_nil hne
    obtain ⟨hp, hw⟩ := List.forall_mem_cons.1 hw
    exact ⟨[c], w, rfl, .char hp, matches_star_char_iff.2 hw⟩

theorem matches_text_iff {cs : List Char} : (text cs).Matches w ↔ w = cs := by
  induction cs generalizing w with
  | nil => exact matches_empty_iff
  | cons c cs ih =>
    rw [text, matches_seq_iff]
    constructor
    · rintro ⟨u, v, rfl, hu, hv⟩
      obtain ⟨d, rfl, hd⟩ := matches_char_iff.1 hu
      rw [ih.1 hv, beq_iff_eq.1 hd]
      rfl
    · rintro rfl
      exact ⟨[c], cs, rfl, .char (beq_self_eq_true c), ih.2 rfl⟩

theorem matches_opt_iff : (opt a).Matches w ↔ a.Matches w ∨ w = [] := by
  rw [opt, matches_alt_iff, matches_empty_iff]

end Pattern

namespace TokenRule

/-! ## The longest match -/

/-- The rule matches the first `n + 1` characters of the text and can be taken in front of what
follows them. -/
def Takes (rule : TokenRule) (cs : List Char) (n : Nat) : Prop :=
  n < cs.length ∧ rule.pattern.Matches (cs.take (n + 1)) ∧
    rule.before (cs.drop (n + 1)).head? = true

/-- **Longest match, then priority**: the rule takes the first `n + 1` characters, no rule takes
more, and none that takes as many has a higher priority. -/
structure LongestMatch (rules : List TokenRule) (cs : List Char) (rule : TokenRule) (n : Nat) :
    Prop where
  mem : rule ∈ rules
  takes : rule.Takes cs n
  longest : ∀ r ∈ rules, ∀ m, r.Takes cs m → m ≤ n
  strongest : ∀ r ∈ rules, r.Takes cs n → r.priority ≤ rule.priority

theorem strongest?_eq_none_iff {rules : List TokenRule} : strongest? rules = none ↔ rules = [] := by
  cases rules with
  | nil => simp [strongest?]
  | cons r rules =>
    simp only [strongest?, reduceCtorEq, iff_false]
    split
    · split <;> exact fun h => by cases h
    · exact fun h => by cases h

theorem strongest?_spec {rules : List TokenRule} {best : TokenRule}
    (h : strongest? rules = some best) :
    best ∈ rules ∧ ∀ r ∈ rules, r.priority ≤ best.priority := by
  induction rules generalizing best with
  | nil => cases h
  | cons r rules ih =>
    rw [strongest?] at h
    split at h
    · rename_i other hother
      obtain ⟨hmem, hmax⟩ := ih hother
      split at h
      · rename_i hlt
        cases h
        exact ⟨List.mem_cons_of_mem r hmem,
          List.forall_mem_cons.2 ⟨Nat.le_of_lt hlt, hmax⟩⟩
      · rename_i hge
        cases h
        refine ⟨List.mem_cons_self, List.forall_mem_cons.2 ⟨Nat.le_refl _, fun q hq => ?_⟩⟩
        exact Nat.le_trans (hmax q hq) (Nat.le_of_not_lt hge)
    · rename_i hnone
      cases h
      obtain rfl := strongest?_eq_none_iff.1 hnone
      exact ⟨List.mem_cons_self, by simp⟩

/-- A rule whose remaining pattern is in the list ends its match `n + 1` characters on. -/
def EndsAt (live : List (Pattern × TokenRule)) (cs : List Char) (rule : TokenRule) (n : Nat) :
    Prop :=
  ∃ p, (p, rule) ∈ live ∧ n < cs.length ∧ p.Matches (cs.take (n + 1)) ∧
    rule.before (cs.drop (n + 1)).head? = true

section

variable {live : List (Pattern × TokenRule)} {c : Char} {cs : List Char} {rule : TokenRule}
  {n : Nat}

theorem mem_advance {p : Pattern} : (p, rule) ∈ advance c live ↔
    (∃ q, (q, rule) ∈ live ∧ q.deriv c = p) ∧ p.isNever = false := by
  simp [advance]

theorem mem_ending {next : Option Char} : rule ∈ ending next live ↔
    ∃ p, (p, rule) ∈ live ∧ p.Matches [] ∧ rule.before next = true := by
  simp [ending, Pattern.nullable_iff]

/-- A match ends at once if its rule is among those that end in front of what follows. -/
theorem endsAt_zero : EndsAt live (c :: cs) rule 0 ↔ rule ∈ ending cs.head? (advance c live) := by
  rw [mem_ending]
  simp only [EndsAt, mem_advance, List.length_cons, Nat.zero_lt_succ, true_and, Nat.zero_add,
    List.take_succ_cons, List.take_zero, List.drop_succ_cons, List.drop_zero]
  constructor
  · rintro ⟨p, hp, hmatch, hbefore⟩
    have hnext := (Pattern.matches_deriv p c []).2 hmatch
    exact ⟨p.deriv c, ⟨⟨p, hp, rfl⟩, Pattern.isNever_eq_false hnext⟩, hnext, hbefore⟩
  · rintro ⟨_, ⟨⟨p, hp, rfl⟩, -⟩, hmatch, hbefore⟩
    exact ⟨p, hp, (Pattern.matches_deriv p c []).1 hmatch, hbefore⟩

/-- A match that ends later goes on with the derivative. -/
theorem endsAt_succ : EndsAt live (c :: cs) rule (n + 1) ↔ EndsAt (advance c live) cs rule n := by
  simp only [EndsAt, mem_advance, List.length_cons, Nat.add_lt_add_iff_right,
    List.take_succ_cons, List.drop_succ_cons]
  constructor
  · rintro ⟨p, hp, hn, hmatch, hbefore⟩
    have hnext := (Pattern.matches_deriv p c _).2 hmatch
    exact ⟨p.deriv c, ⟨⟨p, hp, rfl⟩, Pattern.isNever_eq_false hnext⟩, hn, hnext, hbefore⟩
  · rintro ⟨_, ⟨⟨p, hp, rfl⟩, -⟩, hn, hmatch, hbefore⟩
    exact ⟨p, hp, hn, (Pattern.matches_deriv p c _).1 hmatch, hbefore⟩

/-- The match is the longest, and the strongest of those that are as long. -/
def IsBest (live : List (Pattern × TokenRule)) (cs : List Char) (rule : TokenRule) (n : Nat) :
    Prop :=
  EndsAt live cs rule n ∧
    ∀ r m, EndsAt live cs r m → m < n ∨ m = n ∧ r.priority ≤ rule.priority

/-- **The scan** finds the best match if there is one, and otherwise keeps the one it had. -/
theorem scan_spec (live : List (Pattern × TokenRule)) (taken : Nat)
    (best : Option (TokenRule × Nat)) (cs : List Char) :
    (∃ rule n, scan live taken best cs = some (rule, taken + n) ∧ IsBest live cs rule n) ∨
      scan live taken best cs = best ∧ ∀ rule n, ¬EndsAt live cs rule n := by
  induction cs generalizing live taken best with
  | nil =>
    refine .inr ⟨rfl, fun rule n h => ?_⟩
    obtain ⟨-, -, hn, -⟩ := h
    exact Nat.not_lt_zero n hn
  | cons c cs ih =>
    rw [scan]
    split
    · rename_i hempty
      have hnone : advance c live = [] := List.isEmpty_iff.1 hempty
      refine .inr ⟨rfl, fun rule n h => ?_⟩
      cases n with
      | zero =>
        rw [endsAt_zero, hnone] at h
        exact List.not_mem_nil h
      | succ n =>
        rw [endsAt_succ, hnone] at h
        obtain ⟨p, hp, -⟩ := h
        exact List.not_mem_nil hp
    · obtain ⟨rule, n, hscan, hends, hbest⟩ | ⟨hscan, hnone⟩ :=
        ih (advance c live) (taken + 1)
          (((strongest? (ending cs.head? (advance c live))).map fun r => (r, taken)).or best)
      · -- a later match is longer
        refine .inl ⟨rule, n + 1, ?_, endsAt_succ.2 hends, fun r m h => ?_⟩
        · rw [hscan, Nat.add_assoc, Nat.add_comm 1]
        · cases m with
          | zero => exact .inl (Nat.zero_lt_succ n)
          | succ m =>
            obtain hlt | ⟨rfl, hle⟩ := hbest r m (endsAt_succ.1 h)
            · exact .inl (Nat.succ_lt_succ hlt)
            · exact .inr ⟨rfl, hle⟩
      · cases hfound : strongest? (ending cs.head? (advance c live)) with
        | none =>
          rw [hfound] at hscan
          refine .inr ⟨hscan, fun rule n h => ?_⟩
          cases n with
          | zero =>
            rw [endsAt_zero, strongest?_eq_none_iff.1 hfound] at h
            exact List.not_mem_nil h
          | succ n => exact hnone rule n (endsAt_succ.1 h)
        | some rule =>
          rw [hfound] at hscan
          obtain ⟨hmem, hmax⟩ := strongest?_spec hfound
          refine .inl ⟨rule, 0, hscan, endsAt_zero.2 hmem, fun r m h => ?_⟩
          cases m with
          | zero => exact .inr ⟨rfl, hmax r (endsAt_zero.1 h)⟩
          | succ m => exact (hnone r m (endsAt_succ.1 h)).elim

end

/-- **The rule that is found** is one to take, and if none is found then no rule matches. -/
theorem longest?_spec (rules : List TokenRule) (cs : List Char) :
    (∃ rule n, longest? rules cs = some (rule, n) ∧ LongestMatch rules cs rule n) ∨
      longest? rules cs = none ∧ ∀ rule ∈ rules, ∀ n, ¬rule.Takes cs n := by
  have hends {rule : TokenRule} {n : Nat} :
      EndsAt (rules.map fun r => (r.pattern, r)) cs rule n ↔ rule ∈ rules ∧ rule.Takes cs n := by
    simp [EndsAt, Takes]
  obtain ⟨rule, n, hscan, htakes, hbest⟩ | ⟨hscan, hnone⟩ :=
    scan_spec (rules.map fun r => (r.pattern, r)) 0 none cs
  · rw [Nat.zero_add] at hscan
    obtain ⟨hmem, htakes⟩ := hends.1 htakes
    refine .inl ⟨rule, n, hscan, hmem, htakes, fun r hr m hm => ?_, fun r hr hm => ?_⟩
    · obtain hlt | ⟨heq, -⟩ := hbest r m (hends.2 ⟨hr, hm⟩)
      · exact Nat.le_of_lt hlt
      · exact Nat.le_of_eq heq
    · obtain hlt | ⟨-, hle⟩ := hbest r n (hends.2 ⟨hr, hm⟩)
      · exact absurd hlt (Nat.lt_irrefl n)
      · exact hle
  · exact .inr ⟨hscan, fun rule hrule n h => hnone rule n (hends.2 ⟨hrule, h⟩)⟩

end TokenRule

end MiniScheme
