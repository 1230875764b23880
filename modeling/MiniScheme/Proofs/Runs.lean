import Mathlib.Data.List.TakeWhile
import MiniScheme.Proofs.Patterns

/-!
# The lexer by maximal runs

What the table of rules comes to. Its patterns overlap on runs of characters that are neither blanks
nor parentheses, and there the longest match is the whole run: `symbol` matches it, and no rule
matches beyond it. Which atom the run is, is then a question of priorities, and `classify` is the
answer. So the lexer of the table reads a text run by run (`lexFrom`), and never meets a place at
which no rule matches.

## Results

* `longest?_blank`, `longest?_paren`, `longest?_run`: the rule to take, by the first character.
* `tokensFrom_eq`: the two lexers agree.
-/

namespace MiniScheme

/-- The boolean that a run spells, when it spells one. -/
def booleanOf? : List Char → Option Bool
  | ['#', 't'] => some true
  | ['#', 'f'] => some false
  | _ => none

/-- The atom that a maximal run of atom characters denotes, `next` being the character after it.
An optional sign and digits is an integer, `none` when it needs more than 64 bits. A boolean
followed directly by a blank outside ASCII is a symbol of that spelling. -/
def classify (run : List Char) (next : Option Char) : Option Atom :=
  match Decimal.read? run with
  | some z => (narrow? z).map Atom.integer
  | none =>
    match booleanOf? run with
    | some b => some (if next.any isWideBlank then .symbol (String.ofList run) else .boolean b)
    | none => some (.symbol (String.ofList run))

/-- The tokens of the characters `cs`, the first of which stands at byte `pos`, run by run. -/
def lexFrom (pos : Nat) (cs : List Char) : Except LexError (List Token) :=
  match cs with
  | [] => .ok []
  | c :: rest =>
    if isBlank c then lexFrom (pos + c.utf8Size) rest
    else if c = '(' then (lexFrom (pos + 1) rest).map (⟨.opening, ⟨pos, pos + 1⟩⟩ :: ·)
    else if c = ')' then (lexFrom (pos + 1) rest).map (⟨.closing, ⟨pos, pos + 1⟩⟩ :: ·)
    else
      let run := c :: rest.takeWhile isAtomChar
      let after := rest.dropWhile isAtomChar
      let stop := pos + byteSize run
      match classify run after.head? with
      | none => .error ⟨.integerOutOfRange (String.ofList run), ⟨pos, stop⟩⟩
      | some a => (lexFrom stop after).map (⟨.atom a, ⟨pos, stop⟩⟩ :: ·)
termination_by cs.length
decreasing_by
  all_goals simp only [List.length_cons]
  · omega
  · omega
  · omega
  · exact Nat.lt_succ_of_le (List.length_dropWhile_le _ _)

/-! ## What the rules match -/

theorem isAtomChar_of_isDigit {c : Char} (h : c.isDigit = true) : isAtomChar c = true := by
  have hc : 48 ≤ c.toNat ∧ c.toNat ≤ 57 := by
    simpa [Char.isDigit, UInt32.le_iff_toNat_le] using h
  have hblank : isBlank c = false := by
    simp only [isBlank, blankRanges, List.any_cons, List.any_nil, Bool.or_false,
      Bool.or_eq_false_iff, Bool.and_eq_false_iff, decide_eq_false_iff_not]
    omega
  have hne {d : Char} (hd : d.toNat < 48) : (c != d) = true := by
    refine bne_iff_ne.2 ?_
    rintro rfl
    omega
  simp only [isAtomChar, hblank, hne (d := '(') (by decide), hne (d := ')') (by decide)]
  rfl

namespace Decimal

theorem isSome_digits?_iff {cs : List Char} :
    (digits? cs).isSome = true ↔ (Pattern.plus (.char Char.isDigit)).Matches cs := by
  rw [Pattern.matches_plus_char_iff, digits?]
  cases cs with
  | nil => simp
  | cons c cs =>
    simp only [List.isEmpty_cons, Bool.not_false, Bool.true_and, ne_eq, reduceCtorEq,
      not_false_eq_true, true_and, ← List.all_eq_true]
    split <;> simp_all

/-- **The pattern of integers** is the spelling of integers. -/
theorem isSome_read?_iff {cs : List Char} :
    (read? cs).isSome = true ↔ TokenRule.integer.pattern.Matches cs := by
  have hsplit : TokenRule.integer.pattern.Matches cs ↔
      (∃ ds, (cs = '+' :: ds ∨ cs = '-' :: ds) ∧ (Pattern.plus (.char Char.isDigit)).Matches ds) ∨
        (Pattern.plus (.char Char.isDigit)).Matches cs := by
    simp only [TokenRule.integer, Pattern.matches_seq_iff, Pattern.matches_opt_iff,
      Pattern.matches_char_iff, Bool.or_eq_true, beq_iff_eq]
    constructor
    · rintro ⟨u, v, rfl, ⟨c, rfl, rfl | rfl⟩ | rfl, hv⟩
      · exact .inl ⟨v, .inl rfl, hv⟩
      · exact .inl ⟨v, .inr rfl, hv⟩
      · exact .inr hv
    · rintro (⟨ds, rfl | rfl, hds⟩ | hds)
      · exact ⟨['+'], ds, rfl, .inl ⟨_, rfl, .inl rfl⟩, hds⟩
      · exact ⟨['-'], ds, rfl, .inl ⟨_, rfl, .inr rfl⟩, hds⟩
      · exact ⟨[], cs, rfl, .inr rfl, hds⟩
  have hsigned {c : Char} {ds : List Char} (hc : c.isDigit = false) :
      ¬(Pattern.plus (.char Char.isDigit)).Matches (c :: ds) := by
    rw [Pattern.matches_plus_char_iff]
    rintro ⟨-, hall⟩
    rw [hall c List.mem_cons_self] at hc
    cases hc
  rw [hsplit]
  unfold read?
  split
  · rename_i ds
    rw [isSome_digits?_iff, or_iff_left (hsigned (by decide))]
    constructor
    · exact fun h => ⟨ds, .inl rfl, h⟩
    · rintro ⟨_, h | h, hds⟩ <;> cases h
      exact hds
  · rename_i ds
    rw [Option.isSome_map, isSome_digits?_iff, or_iff_left (hsigned (by decide))]
    constructor
    · exact fun h => ⟨ds, .inr rfl, h⟩
    · rintro ⟨_, h | h, hds⟩ <;> cases h
      exact hds
  · rename_i hplus hminus
    rw [isSome_digits?_iff, or_iff_right]
    rintro ⟨ds, rfl | rfl, -⟩
    · exact hplus ds rfl
    · exact hminus ds rfl

end Decimal

theorem take_length_takeWhile {α : Type} (p : α → Bool) (l : List α) :
    l.take (l.takeWhile p).length = l.takeWhile p :=
  (List.prefix_iff_eq_take.1 (List.takeWhile_prefix p)).symm

theorem drop_length_takeWhile {α : Type} (p : α → Bool) (l : List α) :
    l.drop (l.takeWhile p).length = l.dropWhile p := by
  have h : (l.takeWhile p ++ l.dropWhile p).drop (l.takeWhile p).length = l.dropWhile p :=
    List.drop_left
  rwa [List.takeWhile_append_dropWhile] at h

namespace TokenRule

variable {c : Char} {rest : List Char} {rule : TokenRule} {n : Nat}

theorem mem_tokenRules : rule ∈ tokenRules ↔ rule = blanks ∨ rule = paren '(' .opening ∨
    rule = paren ')' .closing ∨ rule = integer ∨ rule = boolean true ∨ rule = boolean false ∨
      rule = symbol := by
  simp [tokenRules]

/-- The characters that an atom rule matches are atom characters. -/
theorem atoms_of_matches {w : List Char} (h : integer.pattern.Matches w ∨
    (∃ b, (boolean b).pattern.Matches w) ∨ symbol.pattern.Matches w) :
    ∀ c ∈ w, isAtomChar c = true := by
  rcases h with h | ⟨b, h⟩ | h
  · simp only [integer, Pattern.matches_seq_iff, Pattern.matches_opt_iff,
      Pattern.matches_char_iff, Bool.or_eq_true, beq_iff_eq, Pattern.matches_plus_char_iff] at h
    obtain ⟨u, v, rfl, hu, -, hv⟩ := h
    intro c hc
    rcases List.mem_append.1 hc with hc | hc
    · obtain ⟨d, rfl, rfl | rfl⟩ | rfl := hu
      · rw [List.mem_singleton.1 hc]
        decide
      · rw [List.mem_singleton.1 hc]
        decide
      · cases hc
    · exact isAtomChar_of_isDigit (hv c hc)
  · obtain rfl := Pattern.matches_text_iff.1 h
    cases b <;> exact List.all_eq_true.1 (by decide)
  · exact (Pattern.matches_plus_char_iff.1 h).2

/-- The first `n + 1` characters are of a class if the first is and `n` more follow it. -/
theorem forall_mem_take_iff {p : Char → Bool} (hn : n ≤ rest.length) :
    (∀ d ∈ (c :: rest).take (n + 1), p d = true) ↔
      p c = true ∧ n ≤ (rest.takeWhile p).length := by
  rw [List.take_succ_cons, List.forall_mem_cons]
  refine and_congr_right fun _ => ?_
  induction rest generalizing n with
  | nil => simpa using hn
  | cons d rest ih =>
    cases n with
    | zero => simp
    | succ n =>
      rw [List.take_succ_cons, List.forall_mem_cons, List.takeWhile_cons, ih (by simpa using hn)]
      by_cases hd : p d = true <;> simp [hd]

/-- A rule for runs of a class takes any beginning of the run. -/
theorem takes_run_iff {p : Char → Bool} (hpattern : rule.pattern = .plus (.char p))
    (hbefore : ∀ next, rule.before next = true) :
    rule.Takes (c :: rest) n ↔ p c = true ∧ n ≤ (rest.takeWhile p).length := by
  unfold Takes
  rw [hpattern, Pattern.matches_plus_char_iff, hbefore, List.length_cons, Nat.lt_succ_iff]
  constructor
  · rintro ⟨hn, ⟨-, hall⟩, -⟩
    exact (forall_mem_take_iff hn).1 hall
  · rintro ⟨hc, hn⟩
    have hle : n ≤ rest.length := Nat.le_trans hn (List.takeWhile_sublist p).length_le
    exact ⟨hle, ⟨by simp, (forall_mem_take_iff hle).2 ⟨hc, hn⟩⟩, rfl⟩

/-- A rule for integers, booleans or symbols. -/
def IsAtomRule (rule : TokenRule) : Prop :=
  rule = integer ∨ (∃ b, rule = boolean b) ∨ rule = symbol

/-- A rule for atoms stays within the run. -/
theorem Takes.within (h : rule.Takes (c :: rest) n) (hrule : rule.IsAtomRule) :
    isAtomChar c = true ∧ n ≤ (rest.takeWhile isAtomChar).length := by
  obtain ⟨hn, hmatch, -⟩ := h
  refine (forall_mem_take_iff (Nat.lt_succ_iff.1 hn)).1 (atoms_of_matches ?_)
  rcases hrule with rfl | ⟨b, rfl⟩ | rfl
  · exact .inl hmatch
  · exact .inr (.inl ⟨b, hmatch⟩)
  · exact .inr (.inr hmatch)

theorem takes_paren_iff {d : Char} {kind : TokenKind} :
    (paren d kind).Takes (c :: rest) n ↔ c = d ∧ n = 0 := by
  unfold Takes paren
  rw [Pattern.matches_text_iff, List.take_succ_cons, List.cons_eq_cons, List.length_cons,
    List.take_eq_nil_iff]
  constructor
  · rintro ⟨hn, ⟨rfl, rfl | rfl⟩, -⟩
    · exact ⟨rfl, rfl⟩
    · exact ⟨rfl, Nat.lt_one_iff.1 hn⟩
  · rintro ⟨rfl, rfl⟩
    simp

/-- Where no atom starts, the other rules are left: blanks, and one for each parenthesis. -/
theorem Takes.blanks_or_paren (h : rule.Takes (c :: rest) n) (hrule : rule ∈ tokenRules)
    (hc : isAtomChar c = false) :
    rule = blanks ∧ isBlank c = true ∧ n ≤ (rest.takeWhile isBlank).length ∨
      c = '(' ∧ rule = paren '(' .opening ∧ n = 0 ∨
      c = ')' ∧ rule = paren ')' .closing ∧ n = 0 := by
  have hno : ¬rule.IsAtomRule := by
    intro hatom
    rw [(h.within hatom).1] at hc
    cases hc
  rcases mem_tokenRules.1 hrule with rfl | rfl | rfl | rfl | rfl | rfl | rfl
  · exact .inl ⟨rfl, (takes_run_iff rfl fun _ => rfl).1 h⟩
  · obtain ⟨rfl, rfl⟩ := takes_paren_iff.1 h
    exact .inr (.inl ⟨rfl, rfl, rfl⟩)
  · obtain ⟨rfl, rfl⟩ := takes_paren_iff.1 h
    exact .inr (.inr ⟨rfl, rfl, rfl⟩)
  · exact absurd (.inl rfl) hno
  · exact absurd (.inr (.inl ⟨true, rfl⟩)) hno
  · exact absurd (.inr (.inl ⟨false, rfl⟩)) hno
  · exact absurd (.inr (.inr rfl)) hno

/-- Where an atom starts, the rules for atoms are the only ones. -/
theorem Takes.isAtomRule (h : rule.Takes (c :: rest) n) (hrule : rule ∈ tokenRules)
    (hc : isAtomChar c = true) : rule.IsAtomRule := by
  rcases mem_tokenRules.1 hrule with rfl | rfl | rfl | rfl | rfl | rfl | rfl
  · have hblank := ((takes_run_iff rfl fun _ => rfl).1 h).1
    simp [isAtomChar, hblank] at hc
  · rw [(takes_paren_iff.1 h).1] at hc
    cases hc
  · rw [(takes_paren_iff.1 h).1] at hc
    cases hc
  · exact .inl rfl
  · exact .inr (.inl ⟨_, rfl⟩)
  · exact .inr (.inl ⟨_, rfl⟩)
  · exact .inr (.inr rfl)

/-! ## The rule to take -/

/-- If a rule takes a text and none takes more, then a rule is found that takes as much. -/
theorem exists_longest {q : TokenRule} (hq : q ∈ tokenRules) (htakes : q.Takes (c :: rest) n)
    (hmax : ∀ r ∈ tokenRules, ∀ m, r.Takes (c :: rest) m → m ≤ n) :
    ∃ rule, longest? tokenRules (c :: rest) = some (rule, n) ∧
      LongestMatch tokenRules (c :: rest) rule n := by
  obtain ⟨rule, m, hfound, hbest⟩ | ⟨-, hnone⟩ := longest?_spec tokenRules (c :: rest)
  · obtain rfl : m = n :=
      Nat.le_antisymm (hmax rule hbest.mem m hbest.takes) (hbest.longest q hq n htakes)
    exact ⟨rule, hfound, hbest⟩
  · exact absurd htakes (hnone q hq n)

/-- **A blank** is skipped, with all that follow it. -/
theorem longest?_blank (hc : isBlank c = true) :
    longest? tokenRules (c :: rest) = some (blanks, (rest.takeWhile isBlank).length) := by
  have hatom : isAtomChar c = false := by simp [isAtomChar, hc]
  have honly {r : TokenRule} (hr : r ∈ tokenRules) {m : Nat} (h : r.Takes (c :: rest) m) :
      r = blanks ∧ m ≤ (rest.takeWhile isBlank).length := by
    obtain ⟨hrule, -, hm⟩ | ⟨rfl, -⟩ | ⟨rfl, -⟩ := h.blanks_or_paren hr hatom
    · exact ⟨hrule, hm⟩
    · cases hc
    · cases hc
  obtain ⟨rule, hfound, hbest⟩ := exists_longest (mem_tokenRules.2 (.inl rfl))
    ((takes_run_iff rfl fun _ => rfl).2 ⟨hc, Nat.le_refl _⟩) fun r hr m h => (honly hr h).2
  rw [hfound, (honly hbest.mem hbest.takes).1]

/-- **A parenthesis** is a token by itself. -/
theorem longest?_paren (rest : List Char) {kind : TokenKind} (hrule : paren c kind ∈ tokenRules)
    (hatom : isAtomChar c = false) (hblank : isBlank c = false) :
    ∃ rule, longest? tokenRules (c :: rest) = some (rule, 0) ∧
      (c = '(' ∧ rule = paren '(' .opening ∨ c = ')' ∧ rule = paren ')' .closing) := by
  have honly {r : TokenRule} (hr : r ∈ tokenRules) {m : Nat} (h : r.Takes (c :: rest) m) :
      m = 0 ∧ (c = '(' ∧ r = paren '(' .opening ∨ c = ')' ∧ r = paren ')' .closing) := by
    obtain ⟨-, hc, -⟩ | ⟨hc, hr, hm⟩ | ⟨hc, hr, hm⟩ := h.blanks_or_paren hr hatom
    · rw [hblank] at hc
      cases hc
    · exact ⟨hm, .inl ⟨hc, hr⟩⟩
    · exact ⟨hm, .inr ⟨hc, hr⟩⟩
  obtain ⟨rule, hfound, hbest⟩ := exists_longest hrule (takes_paren_iff.2 ⟨rfl, rfl⟩)
    fun r hr m h => Nat.le_of_eq (honly hr h).1
  exact ⟨rule, hfound, (honly hbest.mem hbest.takes).2⟩

/-- A rule takes a whole run if its pattern matches the run and the next character lets it. -/
theorem takes_whole_run_iff (c : Char) (rest : List Char) :
    rule.Takes (c :: rest) (rest.takeWhile isAtomChar).length ↔
      rule.pattern.Matches (c :: rest.takeWhile isAtomChar) ∧
        rule.before (rest.dropWhile isAtomChar).head? = true := by
  have hle := (List.takeWhile_sublist isAtomChar (l := rest)).length_le
  unfold Takes
  rw [List.take_succ_cons, List.drop_succ_cons, take_length_takeWhile, drop_length_takeWhile,
    List.length_cons, and_iff_right (Nat.lt_succ_of_le hle)]

/-- Of the rules for atoms that match a run the strongest one makes it the atom that `classify`
tells. -/
theorem kind_eq_classify {run : List Char} {next : Option Char} (hrule : rule.IsAtomRule)
    (hmatch : rule.pattern.Matches run) (hbefore : rule.before next = true)
    (hstrongest : ∀ r ∈ tokenRules, r.pattern.Matches run → r.before next = true →
      r.priority ≤ rule.priority) :
    rule.kind run =
      match classify run next with
      | some a => .ok (some (.atom a))
      | none => .error (.integerOutOfRange (String.ofList run)) := by
  unfold classify
  rcases hrule with rfl | ⟨b, rfl⟩ | rfl
  · obtain ⟨z, hz⟩ := Option.isSome_iff_exists.1 (Decimal.isSome_read?_iff.2 hmatch)
    simp only [integer, integerOf, hz, Option.bind_some]
    cases narrow? z <;> rfl
  · obtain rfl := Pattern.matches_text_iff.1 hmatch
    have hread : Decimal.read? (Atom.boolean b).chars = none := by cases b <;> rfl
    have hboolean : booleanOf? (Atom.boolean b).chars = some b := by cases b <;> rfl
    have hnext : next.any isWideBlank = false := by simpa [boolean] using hbefore
    simp [hread, hboolean, hnext, boolean]
  · -- a symbol is what no stronger rule takes
    have hread : Decimal.read? run = none := by
      rw [← Option.not_isSome_iff_eq_none, Decimal.isSome_read?_iff]
      intro hinteger
      have hle := hstrongest integer (by simp [tokenRules]) hinteger rfl
      exact absurd hle (by decide)
    rw [hread]
    cases hboolean : booleanOf? run with
    | none => rfl
    | some b =>
      have hrun : run = (Atom.boolean b).chars := by
        unfold booleanOf? at hboolean
        split at hboolean <;> cases hboolean <;> rfl
      have hwide : next.any isWideBlank = true := by
        by_contra hnot
        have hle := hstrongest (boolean b) (by cases b <;> simp [tokenRules])
          (Pattern.matches_text_iff.2 hrun) (by simpa [boolean] using hnot)
        exact absurd hle (by simp [boolean, symbol])
      simp [hwide, symbol]

/-- **A run** is matched as a whole, and is the atom that `classify` tells. -/
theorem longest?_run (rest : List Char) (hc : isAtomChar c = true) :
    ∃ rule, longest? tokenRules (c :: rest) = some (rule, (rest.takeWhile isAtomChar).length) ∧
      rule.kind (c :: rest.takeWhile isAtomChar) =
        match classify (c :: rest.takeWhile isAtomChar) (rest.dropWhile isAtomChar).head? with
        | some a => .ok (some (.atom a))
        | none => .error (.integerOutOfRange (String.ofList (c :: rest.takeWhile isAtomChar))) := by
  obtain ⟨rule, hfound, hbest⟩ := exists_longest
    (mem_tokenRules.2 (.inr (.inr (.inr (.inr (.inr (.inr rfl)))))))
    ((takes_run_iff rfl fun _ => rfl).2 ⟨hc, Nat.le_refl _⟩)
    fun r hr m h => (h.within (h.isAtomRule hr hc)).2
  obtain ⟨hmatch, hbefore⟩ := (takes_whole_run_iff c rest).1 hbest.takes
  refine ⟨rule, hfound, kind_eq_classify (hbest.takes.isAtomRule hbest.mem hc) hmatch hbefore ?_⟩
  intro r hr hmatch hbefore
  exact hbest.strongest r hr ((takes_whole_run_iff c rest).2 ⟨hmatch, hbefore⟩)

end TokenRule

/-! ## The two lexers -/

/-- Blanks in front make no token, whether they are skipped at once or one by one. -/
theorem lexFrom_blanks {blanks : List Char} (h : ∀ c ∈ blanks, isBlank c = true) (pos : Nat)
    (cs : List Char) : lexFrom pos (blanks ++ cs) = lexFrom (pos + byteSize blanks) cs := by
  induction blanks generalizing pos with
  | nil => rfl
  | cons c blanks ih =>
    obtain ⟨hc, h⟩ := List.forall_mem_cons.1 h
    rw [List.cons_append, lexFrom, if_pos hc, ih h, Nat.add_assoc]
    rfl

/-- **The table comes to maximal runs.** -/
theorem tokensFrom_eq (pos : Nat) (cs : List Char) : tokensFrom pos cs = lexFrom pos cs := by
  induction hn : cs.length using Nat.strongRecOn generalizing pos cs with
  | _ n ih =>
    subst hn
    cases cs with
    | nil => rw [tokensFrom, lexFrom]
    | cons c rest =>
      have hafter (p : Char → Bool) (pos : Nat) :
          tokensFrom pos (rest.dropWhile p) = lexFrom pos (rest.dropWhile p) :=
        ih _ (Nat.lt_succ_of_le (List.length_dropWhile_le p rest)) pos _ rfl
      have hrest (pos : Nat) : tokensFrom pos rest = lexFrom pos rest :=
        ih _ (Nat.lt_succ_self _) pos rest rfl
      have hparen {kind : TokenKind} (hrule : TokenRule.paren c kind ∈ tokenRules)
          (hatom : isAtomChar c = false) (hblank : isBlank c = false) :
          tokensFrom pos (c :: rest) = lexFrom pos (c :: rest) := by
        obtain ⟨rule, hfound, ⟨rfl, rfl⟩ | ⟨rfl, rfl⟩⟩ :=
          TokenRule.longest?_paren rest hrule hatom hblank
        all_goals
          rw [tokensFrom, lexFrom]
          simp only [hfound, TokenRule.paren, List.take_zero, List.drop_zero, hrest, hblank]
          rfl
      by_cases hblank : isBlank c = true
      · rw [tokensFrom]
        simp only [TokenRule.longest?_blank hblank, TokenRule.blanks, take_length_takeWhile,
          drop_length_takeWhile, hafter]
        have hall : ∀ d ∈ c :: rest.takeWhile isBlank, isBlank d = true :=
          List.forall_mem_cons.2 ⟨hblank, List.all_eq_true.1 List.all_takeWhile⟩
        have hrun := lexFrom_blanks hall pos (rest.dropWhile isBlank)
        rw [List.cons_append, List.takeWhile_append_dropWhile] at hrun
        exact hrun.symm
      by_cases hopen : c = '('
      · subst hopen
        exact hparen (TokenRule.mem_tokenRules.2 (.inr (.inl rfl))) rfl rfl
      by_cases hclose : c = ')'
      · subst hclose
        exact hparen (TokenRule.mem_tokenRules.2 (.inr (.inr (.inl rfl)))) rfl rfl
      have hatom : isAtomChar c = true := by
        simp [isAtomChar, hblank, hopen, hclose]
      obtain ⟨rule, hfound, hkind⟩ := TokenRule.longest?_run rest hatom
      rw [tokensFrom, lexFrom, if_neg hblank, if_neg hopen, if_neg hclose]
      simp only [hfound, take_length_takeWhile, drop_length_takeWhile, hkind]
      cases classify (c :: rest.takeWhile isAtomChar) (rest.dropWhile isAtomChar).head? with
      | none => rfl
      | some a => simp only [hafter]

/-- The tokens of a text are those of its runs. -/
theorem tokenize_eq (source : String) : tokenize source = lexFrom 0 source.toList :=
  tokensFrom_eq 0 source.toList

end MiniScheme
