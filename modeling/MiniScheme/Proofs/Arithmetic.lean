import MiniScheme.Proofs.Primitives
import MiniScheme.Proofs.Tokenization

/-!
# Exact arithmetic

What sums, differences, products and quotients are, said in integers of any size. A call folds its
arguments from left to right; `folded` is the result after some of them. The call goes well as
long as the arguments are integers, no divisor is zero and every result on the way is one of
64 bits (`Sound`). The first argument at which it does not go well (`FailsAt`) is the one that is
blamed.

Where a fold starts depends on how many arguments there are: the first of two or more is what a
difference is taken from, and a single one is taken from zero.

The loop carries `Sound` for the arguments that it has passed. Its ends are described by
`Computes`, and since no argument of a sound call can be blamed (`Sound.not_failsAt`), only one end
fits a call (`Computes.unique`).

## Results

* `computes_foldIntegers`: the loop, from any argument on.
* `computes_compute`: a whole computation.
* `arithmetic_is_exact_up_to_first_fault`: when a call succeeds and with what, when it fails and
  why.
-/

namespace MiniScheme

/-- The integer that a node is. -/
def Node.integer? (n : Node) : Option Int :=
  match n.value with
  | .atom (.integer n) => some n.toInt
  | _ => none

instance (z : Int) : Decidable (IsWord z) := inferInstanceAs (Decidable (_ ∧ _))

namespace Arithmetic

/-! ## Results in exact integers -/

/-- One step, exactly; quotients are rounded toward zero. -/
def exact : Arithmetic → Int → Int → Int
  | add, a, b => a + b
  | sub, a, b => a - b
  | mul, a, b => a * b
  | div, a, b => a.tdiv b

/-- In a call with `count` arguments the first one is what the others are combined with. -/
def Leads (op : Arithmetic) (count : Nat) : Prop := op = .div ∨ op = .sub ∧ 2 ≤ count

instance (op : Arithmetic) (count : Nat) : Decidable (op.Leads count) :=
  inferInstanceAs (Decidable (_ ∨ _))

/-- What the arguments are combined with when the first one is an argument like the others. -/
def seed : Arithmetic → Int
  | add | sub => 0
  | mul | div => 1

/-- The exact result after the arguments `ns`, in a call with `count` arguments. -/
def folded (op : Arithmetic) (count : Nat) : List Int → Int
  | [] => op.seed
  | n :: ns => if op.Leads count then ns.foldl op.exact n else (n :: ns).foldl op.exact op.seed

/-- The arguments, in a call with `count` of them, are the integers `ns`; no divisor among them is
zero, and every result on the way is one of 64 bits. -/
structure Sound (op : Arithmetic) (count : Nat) (args : List Node) (ns : List Int) : Prop where
  integers : args.map Node.integer? = ns.map some
  divisors : op = .div → ∀ n ∈ ns.tail, n ≠ 0
  words : ∀ ms, ms <+: ns → IsWord (op.folded count ms)

/-- After the arguments `ns`, in a call at `span` with `count` arguments, it goes wrong at `arg`:
it is no integer, it is a divisor and zero, or the result leaves the 64 bits. -/
inductive FailsAt (op : Arithmetic) (count : Nat) (span : Span) (ns : List Int) (arg : Node) :
    EvalError → Prop
  | type (h : arg.integer? = none) :
      FailsAt op count span ns arg
        (.mismatch (.arithmetic op) .integer arg.value (ns.length + 1) arg.span)
  | zero (hop : op = .div) (hns : ns ≠ []) (h : arg.integer? = some 0) :
      FailsAt op count span ns arg (.divisionByZero arg.span)
  | overflow {n : Int} (h : arg.integer? = some n) (hzero : op = .div → ns ≠ [] → n ≠ 0)
      (hword : ¬IsWord (op.folded count (ns ++ [n]))) :
      FailsAt op count span ns arg (.overflow op span)

/-- How a call at `span` with `count` arguments ends when its arguments are `args`. -/
inductive Computes (op : Arithmetic) (count : Nat) (span : Span) (args : List Node) :
    Except EvalError Int64 → Prop
  | ok {ns : List Int} {r : Int64} (sound : op.Sound count args ns)
      (value : r.toInt = op.folded count ns) : Computes op count span args (.ok r)
  | error {before after : List Node} {arg : Node} {ns : List Int} {e : EvalError}
      (split : args = before ++ arg :: after) (sound : op.Sound count before ns)
      (fails : op.FailsAt count span ns arg e) : Computes op count span args (.error e)

variable {op : Arithmetic} {count : Nat} {span : Span} {args before after : List Node} {arg : Node}
  {ns : List Int} {n : Int} {e e' : EvalError}

/-! ## Folding one argument more -/

/-- One argument more is one step more, once there is something to combine it with. -/
theorem folded_append (h : op.Leads count → ns ≠ []) :
    op.folded count (ns ++ [n]) = op.exact (op.folded count ns) n := by
  cases ns with
  | nil =>
    have hlead : ¬op.Leads count := fun hlead => h hlead rfl
    simp [folded, hlead]
  | cons m ns =>
    by_cases hlead : op.Leads count <;> simp [folded, hlead]

theorem folded_lead (h : op.Leads count) : op.folded count [n] = n := by
  simp [folded, h]

theorem isWord_seed (op : Arithmetic) : IsWord op.seed := by
  cases op <;> decide

theorem sound_nil (op : Arithmetic) (count : Nat) : op.Sound count [] [] where
  integers := rfl
  divisors := by simp
  words ms h := by
    rw [List.prefix_nil.1 h]
    exact op.isWord_seed

theorem Sound.snoc (h : op.Sound count before ns) (harg : arg.integer? = some n)
    (hzero : op = .div → ns ≠ [] → n ≠ 0) (hword : IsWord (op.folded count (ns ++ [n]))) :
    op.Sound count (before ++ [arg]) (ns ++ [n]) where
  integers := by simp [h.integers, harg]
  divisors hop m hm := by
    cases ns with
    | nil => simp at hm
    | cons k ns =>
      simp only [List.cons_append, List.tail_cons, List.mem_append, List.mem_singleton] at hm
      rcases hm with hm | rfl
      · exact h.divisors hop m hm
      · exact hzero hop (by simp)
  words ms hms := by
    rcases List.prefix_concat_iff.1 hms with rfl | hms
    · exact hword
    · exact h.words ms hms

/-- The arguments in front of one are its integers up to there. -/
theorem Sound.split {ms : List Int} (h : op.Sound count (before ++ arg :: after) ms)
    (hb : op.Sound count before ns) :
    ∃ n rest, arg.integer? = some n ∧ ms = ns ++ n :: rest := by
  have hms := h.integers
  rw [List.map_append, hb.integers, List.map_cons] at hms
  obtain ⟨ns', rest, rfl, hns, hrest⟩ := List.map_eq_append_iff.1 hms.symm
  obtain ⟨n, rest, rfl, hn, -⟩ := List.map_eq_cons_iff.1 hrest
  obtain rfl : ns' = ns := List.map_injective_iff.2 (Option.some_injective Int) hns
  exact ⟨n, rest, hn.symm, rfl⟩

/-- **No argument of a sound call is to blame.** -/
theorem Sound.not_failsAt {ms : List Int} (h : op.Sound count (before ++ arg :: after) ms)
    (hb : op.Sound count before ns) : ¬op.FailsAt count span ns arg e := by
  obtain ⟨n, rest, hn, rfl⟩ := h.split hb
  intro hfail
  cases hfail with
  | type hnone => simp [hn] at hnone
  | zero hop hns hzero =>
    have hmem : n ∈ (ns ++ n :: rest).tail := by
      simp [List.tail_append_of_ne_nil hns]
    have hne := h.divisors hop n hmem
    simp_all
  | overflow hm _ hword =>
    simp only [hn, Option.some.injEq] at hm
    subst hm
    exact hword (h.words _ ⟨rest, by simp⟩)

theorem FailsAt.unique (h : op.FailsAt count span ns arg e) (h' : op.FailsAt count span ns arg e') :
    e' = e := by
  cases h <;> cases h' <;> simp_all

/-! ## One end for each call -/

theorem Sound.unique {ms : List Int} (h : op.Sound count args ns) (h' : op.Sound count args ms) :
    ms = ns :=
  List.map_injective_iff.2 (Option.some_injective Int) (h'.integers.symm.trans h.integers)

/-- What stands in front of an argument to blame is not to blame. -/
theorem FailsAt.same_of_append {mid after' : List Node} {arg' : Node} {ns' : List Int}
    (hmid : arg :: after = mid ++ arg' :: after') (hb : op.Sound count before ns)
    (hb' : op.Sound count (before ++ mid) ns') (h : op.FailsAt count span ns arg e)
    (h' : op.FailsAt count span ns' arg' e') : e' = e := by
  cases mid with
  | nil =>
    rw [List.append_nil] at hb'
    obtain ⟨rfl, -⟩ := List.cons.inj hmid
    obtain rfl := hb.unique hb'
    exact h.unique h'
  | cons m mid =>
    obtain ⟨rfl, -⟩ := List.cons.inj hmid
    exact absurd h (hb'.not_failsAt hb)

theorem FailsAt.same {before' after' : List Node} {arg' : Node} {ns' : List Int}
    (hsplit : before ++ arg :: after = before' ++ arg' :: after')
    (hb : op.Sound count before ns) (hb' : op.Sound count before' ns')
    (h : op.FailsAt count span ns arg e) (h' : op.FailsAt count span ns' arg' e') : e' = e := by
  rcases List.append_eq_append_iff.1 hsplit with ⟨mid, rfl, hmid⟩ | ⟨mid, rfl, hmid⟩
  · exact h.same_of_append hmid hb hb' h'
  · exact (h'.same_of_append hmid hb' hb h).symm

/-- **A call has one end.** -/
theorem Computes.unique {x y : Except EvalError Int64} (h : op.Computes count span args x)
    (h' : op.Computes count span args y) : y = x := by
  cases h with
  | ok sound value =>
    cases h' with
    | ok sound' value' =>
      obtain rfl := sound.unique sound'
      rw [Int64.toInt_inj.1 (value'.trans value.symm)]
    | error split sound' fails =>
      subst split
      exact absurd fails (sound.not_failsAt sound')
  | error split sound fails =>
    cases h' with
    | ok sound' value' =>
      subst split
      exact absurd fails (sound'.not_failsAt sound)
    | error split' sound' fails' => rw [fails.same (split.symm.trans split') sound sound' fails']

/-! ## The loop -/

theorem expectInteger_of_some (p : Primitive) (i : Nat) (h : arg.integer? = some n) :
    ∃ w : Int64, w.toInt = n ∧ p.expectInteger i arg = .ok w := by
  unfold Node.integer? at h
  split at h
  · rename_i w hw
    exact ⟨w, Option.some.inj h, by simp [Primitive.expectInteger, hw]⟩
  · cases h

theorem expectInteger_of_none (p : Primitive) (i : Nat) (h : arg.integer? = none) :
    p.expectInteger i arg = .error (.mismatch p .integer arg.value i arg.span) := by
  unfold Primitive.expectInteger
  split
  · rename_i w hw
    simp [Node.integer?, hw] at h
  · rfl

theorem expectWord_of_isWord (op : Arithmetic) (span : Span) (h : IsWord n) :
    ∃ w : Int64, w.toInt = n ∧ op.expectWord span n = .ok w := by
  unfold expectWord
  cases hn : narrow? n with
  | none => exact absurd h (narrow?_eq_none_iff.1 hn)
  | some w => exact ⟨w, narrow?_eq_some_iff.1 hn, rfl⟩

theorem expectWord_of_not_isWord (op : Arithmetic) (span : Span) (h : ¬IsWord n) :
    op.expectWord span n = .error (.overflow op span) := by
  simp [expectWord, narrow?_eq_none_iff.2 h]

/-- A step fails at a divisor that is zero, and is exact otherwise. -/
theorem combine_eq (op : Arithmetic) (arg : Node) (a b : Int) :
    op.combine arg a b =
      if op = .div ∧ b = 0 then .error (.divisionByZero arg.span) else .ok (op.exact a b) := by
  cases op <;> simp [combine, exact]

/-- **The loop**, after the arguments `before`: its result is how the call ends. -/
theorem computes_foldIntegers (span : Span) (args : List Node) (acc : Int64)
    (h : op.Sound count before ns) (hacc : acc.toInt = op.folded count ns)
    (hlead : op.Leads count → ns ≠ []) (hdiv : op = .div → ns ≠ []) :
    op.Computes count span (before ++ args) (op.foldIntegers span (ns.length + 1) acc args) := by
  induction args generalizing before ns acc with
  | nil =>
    rw [List.append_nil]
    exact .ok h hacc
  | cons arg args ih =>
    unfold foldIntegers
    cases harg : arg.integer? with
    | none =>
      rw [expectInteger_of_none _ _ harg]
      exact .error rfl h (.type harg)
    | some n =>
      obtain ⟨w, rfl, hw⟩ := expectInteger_of_some (.arithmetic op) (ns.length + 1) harg
      simp only [hw, combine_eq, hacc, bind, Except.bind]
      by_cases hzero : op = .div ∧ w.toInt = 0
      · rw [if_pos hzero]
        exact .error rfl h (.zero hzero.1 (hdiv hzero.1) (by rw [harg, hzero.2]))
      · rw [if_neg hzero]
        have hdivisor : op = .div → ns ≠ [] → w.toInt ≠ 0 := fun hop _ hw => hzero ⟨hop, hw⟩
        have hnext := folded_append (n := w.toInt) hlead
        by_cases hword : IsWord (op.exact (op.folded count ns) w.toInt)
        · obtain ⟨acc', hacc', hfits⟩ := expectWord_of_isWord op span hword
          rw [← hnext] at hword hacc'
          have hloop := ih acc' (h.snoc harg hdivisor hword) hacc' (by simp) (by simp)
          simpa [hfits] using hloop
        · simp only [expectWord_of_not_isWord op span hword]
          rw [← hnext] at hword
          exact .error rfl h (.overflow harg hdivisor hword)

/-- A fold that starts with its first argument. -/
theorem computes_foldFrom (hlead : op.Leads count) :
    op.Computes count span (arg :: args) (op.foldFrom span arg args) := by
  have hnil := op.sound_nil count
  unfold foldFrom
  cases harg : arg.integer? with
  | none =>
    rw [expectInteger_of_none _ _ harg]
    exact .error (List.nil_append _).symm hnil (.type harg)
  | some n =>
    obtain ⟨w, rfl, hw⟩ := expectInteger_of_some (.arithmetic op) 1 harg
    have hword : IsWord w.toInt := by
      have hle := Int64.le_toInt w
      have hlt := Int64.toInt_lt w
      exact ⟨hle, hlt⟩
    have hfirst := hnil.snoc harg (by simp) (by simpa [folded_lead hlead] using hword)
    have hloop := computes_foldIntegers span args w hfirst
      (by simp [folded_lead hlead]) (by simp) (by simp)
    simpa [hw, bind, Except.bind] using hloop

/-- The negation of a single argument is a fold that takes it from zero. -/
theorem compute_negation (arg : Node) (span : Span) :
    sub.compute [arg] span = sub.foldIntegers span 1 0 [arg] := by
  simp only [compute, foldIntegers, combine, bind, Except.bind, Int64.toInt_zero, Int.zero_sub]
  cases (Primitive.arithmetic sub).expectInteger 1 arg with
  | error e => rfl
  | ok w => cases hw : sub.expectWord span (-w.toInt) <;> simp [hw]

/-- **A whole computation**: with arguments enough, it ends as the fold of its arguments does. -/
theorem computes_compute (span : Span) {least : Nat} (harity : op.arity = .atLeast least)
    (hargs : least ≤ args.length) :
    op.Computes args.length span args (op.compute args span) := by
  have hnil := op.sound_nil args.length
  cases op with
  | add =>
    have hloop := computes_foldIntegers span args 0 hnil rfl (by simp [Leads]) (by simp)
    simpa [compute] using hloop
  | mul =>
    have hloop := computes_foldIntegers span args 1 hnil rfl (by simp [Leads]) (by simp)
    simpa [compute] using hloop
  | sub =>
    cases harity
    match args, hargs with
    | [arg], _ =>
      have hloop := computes_foldIntegers span [arg] 0 hnil rfl (by simp [Leads]) (by simp)
      rwa [compute_negation]
    | arg :: next :: args, _ => exact computes_foldFrom (.inr ⟨rfl, by simp⟩)
  | div =>
    cases harity
    match args, hargs with
    | arg :: next :: args, _ => exact computes_foldFrom (.inl rfl)

theorem compute_eq_iff (span : Span) {least : Nat} (harity : op.arity = .atLeast least)
    (hargs : least ≤ args.length) {x : Except EvalError Int64} :
    op.compute args span = x ↔ op.Computes args.length span args x := by
  have hends := computes_compute span harity hargs
  constructor
  · rintro rfl
    exact hends
  · intro h
    exact h.unique hends

/-- A call of an operation yields what it computes, at the place of the call, and nothing else
happens. -/
theorem applyPrimitive_arithmetic (op : Arithmetic) (args : List Node) (span : Span) (m : Machine) :
    applyPrimitive (.arithmetic op) args span m =
      match op.compute args span with
      | .ok r => .ok (.integer r span) m
      | .error e => .error e m := by
  simp only [applyPrimitive]
  cases op.compute args span <;> rfl

end Arithmetic

/-- **Arithmetic is exact or fails at the leftmost fault.** Given its least number of arguments, a
sum, difference, product or quotient succeeds if and only if every argument is an integer, no
divisor is zero and every result on the way is one of 64 bits, and then with the exact result, at
the place of the call. It fails if and only if up to some argument all of that holds and at that
argument something goes wrong: it is no integer, else it is a divisor and zero, else the result
leaves the 64 bits. -/
theorem arithmetic_is_exact_up_to_first_fault (op : Arithmetic) (args : List Node) (span : Span)
    {least : Nat} (harity : op.arity = .atLeast least) (hargs : least ≤ args.length) :
    (∀ m v m', applyPrimitive (.arithmetic op) args span m = .ok v m' ↔
        ∃ ns r, op.Sound args.length args ns ∧ r.toInt = op.folded args.length ns ∧
          v = .integer r span ∧ m' = m) ∧
      ∀ m e m', applyPrimitive (.arithmetic op) args span m = .error e m' ↔
        ∃ before arg after ns, args = before ++ arg :: after ∧
          op.Sound args.length before ns ∧ op.FailsAt args.length span ns arg e ∧ m' = m := by
  have hends {x : Except EvalError Int64} :
      op.compute args span = x ↔ op.Computes args.length span args x :=
    Arithmetic.compute_eq_iff span harity hargs
  constructor
  · intro m v m'
    rw [op.applyPrimitive_arithmetic]
    constructor
    · intro h
      cases hx : op.compute args span with
      | error e => simp [hx] at h
      | ok r =>
        simp only [hx, EStateM.Result.ok.injEq] at h
        cases hends.1 hx with
        | ok sound value => exact ⟨_, r, sound, value, h.1.symm, h.2.symm⟩
    · rintro ⟨ns, r, sound, value, rfl, rfl⟩
      rw [hends.2 (.ok sound value)]
  · intro m e m'
    rw [op.applyPrimitive_arithmetic]
    constructor
    · intro h
      cases hx : op.compute args span with
      | ok r => simp [hx] at h
      | error e' =>
        simp only [hx, EStateM.Result.error.injEq] at h
        obtain ⟨rfl, rfl⟩ := h
        cases hends.1 hx with
        | error split sound fails => exact ⟨_, _, _, _, split, sound, fails, rfl⟩
    · rintro ⟨before, arg, after, ns, split, sound, fails, rfl⟩
      rw [hends.2 (.error split sound fails)]

/-- The least integer divided by minus one leaves the 64 bits; that the next argument is no
integer is not found out. -/
theorem quotient_overflows_before_boolean :
    Arithmetic.div.arity = .atLeast 2 ∧
      applyPrimitive (.arithmetic .div) [.integer Int64.minValue ⟨3, 5⟩, .integer (-1) ⟨6, 8⟩,
        .boolean true ⟨9, 11⟩] ⟨0, 12⟩ default = .error (.overflow .div ⟨0, 12⟩) default := by
  have hfirst : Arithmetic.div.Sound 3 [.integer Int64.minValue ⟨3, 5⟩] [-2 ^ 63] :=
    (Arithmetic.div.sound_nil 3).snoc rfl (by simp) (by decide +kernel)
  refine ⟨rfl, ((arithmetic_is_exact_up_to_first_fault .div _ _ rfl (by simp)).2 _ _ _).2
    ⟨_, _, _, _, rfl, hfirst, .overflow (n := -1) rfl (by simp) ?_, rfl⟩⟩
  decide +kernel

end MiniScheme
