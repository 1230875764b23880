import MiniScheme.Proofs.Arithmetic

/-!
# Comparison of several integers

A comparison looks at neighbours only, from left to right. The relations are transitive
(`relates_trans`), so it says as much about every two of the integers: they are in order.

The loop of a comparison checks an argument and compares it with the one before in the same turn,
and it goes on when two were out of order. So it comes to the same as two passes, one that checks
every argument and one that compares neighbours (`compute_eq`). An argument that is no integer is
reported wherever it stands, also behind two integers that are out of order; of several such
arguments the first one is.

## Results

* `compareFrom_eq`, `compute_eq`: the loop is a check of all arguments and a chain of comparisons.
* `integers_of_words`, `integers_of_first`: the check of the arguments.
* `chained_iff`: neighbours in order are all in order.
* `comparison_is_sortedness`: whole calls, and calls with the arguments in reverse order.
-/

namespace MiniScheme

namespace Comparison

variable {r : Comparison}

/-! ## Two passes -/

/-- The integers that the arguments are, the first of them being the argument at `position`. -/
def integers (r : Comparison) : Nat → List Node → Except EvalError (List Int64)
  | _, [] => .ok []
  | position, arg :: args => do
    let n ← (Primitive.comparison r).expectInteger position arg
    let ns ← integers r (position + 1) args
    return n :: ns

/-- Whether the relation holds between each integer and the next. -/
def chained (r : Comparison) : List Int64 → Bool
  | a :: b :: rest => r.holds a b && r.chained (b :: rest)
  | _ => true

/-- What the loop has found so far, and the chain of what is left. -/
theorem compareFrom_eq (r : Comparison) (i : Nat) (last : Int64) (result : Bool)
    (args : List Node) :
    r.compareFrom i last result args =
      (r.integers i args).map fun ns => result && r.chained (last :: ns) := by
  induction args generalizing i last result with
  | nil => simp [compareFrom, integers, chained, Except.map]
  | cons arg args ih =>
    simp only [compareFrom, integers, bind, Except.bind, pure, Except.pure]
    cases (Primitive.comparison r).expectInteger i arg with
    | error e => rfl
    | ok n =>
      simp only [ih]
      cases r.integers (i + 1) args with
      | error e => rfl
      | ok ns => simp [Except.map, chained, Bool.and_assoc]

/-- **One loop is two passes**: a check of every argument and a chain of comparisons. -/
theorem compute_eq (r : Comparison) {args : List Node} (span : Span) (h : 2 ≤ args.length) :
    r.compute args span = (r.integers 1 args).map r.chained := by
  match args, h with
  | arg :: next :: args, _ =>
    rw [compute, integers]
    cases (Primitive.comparison r).expectInteger 1 arg with
    | error e => rfl
    | ok n =>
      simp only [bind, Except.bind, compareFrom_eq, Bool.true_and, pure, Except.pure]
      cases r.integers 2 (next :: args) <;> rfl

/-! ## The relations -/

/-- The relation, between integers of any size. -/
def Relates : Comparison → Int → Int → Prop
  | equal, a, b => a = b
  | less, a, b => a < b
  | lessEqual, a, b => a ≤ b
  | greater, a, b => b < a
  | greaterEqual, a, b => b ≤ a

/-- The relation with its two sides exchanged. -/
def converse : Comparison → Comparison
  | equal => equal
  | less => greater
  | lessEqual => greaterEqual
  | greater => less
  | greaterEqual => lessEqual

theorem holds_iff (r : Comparison) (a b : Int64) :
    r.holds a b = true ↔ r.Relates a.toInt b.toInt := by
  cases r <;> simp [holds, Relates, Int64.lt_iff_toInt_lt, Int64.le_iff_toInt_le, Int64.toInt_inj]

theorem relates_trans {a b c : Int} (hab : r.Relates a b) (hbc : r.Relates b c) :
    r.Relates a c := by
  cases r <;> simp only [Relates] at * <;> omega

theorem relates_converse (r : Comparison) (a b : Int) :
    r.converse.Relates a b ↔ r.Relates b a := by
  cases r with
  | equal => exact eq_comm
  | less | lessEqual | greater | greaterEqual => exact Iff.rfl

/-- **Neighbours in order are all in order.** -/
theorem chained_iff (ns : List Int64) :
    r.chained ns = true ↔ (ns.map Int64.toInt).Pairwise r.Relates := by
  induction ns with
  | nil => simp [chained]
  | cons a ns ih =>
    cases ns with
    | nil => simp [chained]
    | cons b ns =>
      rw [chained, Bool.and_eq_true, holds_iff, ih, List.map_cons, List.map_cons,
        List.pairwise_cons (a := a.toInt)]
      constructor
      · rintro ⟨hab, hsorted⟩
        refine ⟨List.forall_mem_cons.2 ⟨hab, fun c hc => ?_⟩, hsorted⟩
        -- what comes after the neighbour is related to it already
        exact relates_trans hab ((List.pairwise_cons.1 hsorted).1 c hc)
      · rintro ⟨hfirst, hsorted⟩
        exact ⟨hfirst b.toInt List.mem_cons_self, hsorted⟩

theorem chained_reverse (r : Comparison) (ns : List Int64) :
    r.converse.chained ns.reverse = r.chained ns := by
  rw [Bool.eq_iff_iff, chained_iff, chained_iff, List.map_reverse, List.pairwise_reverse]
  simp only [relates_converse]

/-! ## The arguments -/

/-- Arguments that are integers are integers of 64 bits. -/
theorem exists_words {args : List Node} {ns : List Int}
    (h : args.map Node.integer? = ns.map some) :
    ∃ ws : List Int64, args.map Node.value = ws.map (fun w => .atom (.integer w)) ∧
      ws.map Int64.toInt = ns := by
  induction args generalizing ns with
  | nil =>
    obtain rfl : ns = [] := by simpa using h.symm
    exact ⟨[], rfl, rfl⟩
  | cons arg args ih =>
    obtain ⟨n, ns, rfl, harg, hargs⟩ := List.map_eq_cons_iff.1 h.symm
    obtain ⟨ws, hvalues, rfl⟩ := ih hargs.symm
    unfold Node.integer? at harg
    split at harg
    · rename_i w hw
      cases harg
      exact ⟨w :: ws, by rw [List.map_cons, hw, hvalues, List.map_cons], rfl⟩
    · cases harg

theorem integers_of_words (r : Comparison) (i : Nat) {args : List Node} {ws : List Int64}
    (h : args.map Node.value = ws.map fun w => .atom (.integer w)) :
    r.integers i args = .ok ws := by
  induction args generalizing ws i with
  | nil =>
    obtain rfl : ws = [] := by simpa using h.symm
    rfl
  | cons arg args ih =>
    obtain ⟨w, ws, rfl, harg, hargs⟩ := List.map_eq_cons_iff.1 h.symm
    have hfirst : (Primitive.comparison r).expectInteger i arg = .ok w := by
      simp [Primitive.expectInteger, ← harg]
    simp only [integers, hfirst, ih (i + 1) hargs.symm, bind, Except.bind, pure, Except.pure]

/-- **The first argument that is no integer** ends the check, whatever is in front of it. -/
theorem integers_of_first (r : Comparison) (i : Nat) {before : List Node} {arg : Node}
    (after : List Node) (hbefore : ∀ a ∈ before, a.integer? ≠ none) (harg : arg.integer? = none) :
    r.integers i (before ++ arg :: after) =
      .error (.mismatch (.comparison r) .integer arg.value (i + before.length) arg.span) := by
  induction before generalizing i with
  | nil =>
    have hfails := Arithmetic.expectInteger_of_none (.comparison r) i harg
    simp only [List.nil_append, integers, hfails, bind, Except.bind, List.length_nil, Nat.add_zero]
  | cons a before ih =>
    obtain ⟨ha, hbefore⟩ := List.forall_mem_cons.1 hbefore
    obtain ⟨n, hn⟩ := Option.ne_none_iff_exists'.1 ha
    obtain ⟨w, -, hw⟩ := Arithmetic.expectInteger_of_some (.comparison r) i hn
    have hrest := ih (i + 1) hbefore
    rw [Nat.add_right_comm] at hrest
    simp only [List.cons_append, integers, hw, hrest, bind, Except.bind, List.length_cons]
    rfl

/-! ## Calls -/

/-- A call with arguments enough is the check of the arguments and the comparison of neighbours. -/
theorem applyPrimitive_comparison (r : Comparison) {args : List Node} (span : Span)
    (h : 2 ≤ args.length) (m : Machine) :
    applyPrimitive (.comparison r) args span m =
      match r.integers 1 args with
      | .ok ws => .ok (.boolean (r.chained ws) span) m
      | .error e => .error e m := by
  simp only [applyPrimitive, r.compute_eq span h]
  cases r.integers 1 args <;> rfl

end Comparison

/-- **Chained comparison means sortedness, and every argument is checked.** A comparison with two or
more arguments blames the first of them that is no integer, whether or not those in front of it are
in order. If all are integers then the answer is true if and only if every two of them, an earlier
and a later one, are in the relation; and it is the answer of the converse relation to the arguments
in reverse order. Nothing else happens to the machine. -/
theorem comparison_is_sortedness (r : Comparison) (args : List Node) (span : Span)
    (hargs : 2 ≤ args.length) :
    (∀ before arg after, args = before ++ arg :: after → (∀ a ∈ before, a.integer? ≠ none) →
        arg.integer? = none → ∀ m, applyPrimitive (.comparison r) args span m =
          .error (.mismatch (.comparison r) .integer arg.value (before.length + 1) arg.span) m) ∧
      ∀ ns : List Int, args.map Node.integer? = ns.map some →
        (∃ answer, (∀ m, applyPrimitive (.comparison r) args span m =
            .ok (.boolean answer span) m) ∧
          (answer = true ↔ ∀ (i j : Nat) (a b : Int), i < j → ns[i]? = some a →
            ns[j]? = some b → r.Relates a b)) ∧
        ∀ m, applyPrimitive (.comparison r.converse) args.reverse span m =
          applyPrimitive (.comparison r) args span m := by
  constructor
  · rintro before arg after rfl hbefore harg m
    rw [r.applyPrimitive_comparison span hargs,
      Comparison.integers_of_first r 1 after hbefore harg, Nat.add_comm]
  · intro ns hns
    obtain ⟨ws, hvalues, rfl⟩ := Comparison.exists_words hns
    have hanswer (m : Machine) : applyPrimitive (.comparison r) args span m =
        .ok (.boolean (r.chained ws) span) m := by
      rw [r.applyPrimitive_comparison span hargs, r.integers_of_words 1 hvalues]
    refine ⟨⟨r.chained ws, hanswer, ?_⟩, fun m => ?_⟩
    · rw [Comparison.chained_iff, List.pairwise_iff_getElem]
      constructor
      · intro hsorted i j a b hij ha hb
        obtain ⟨hi, rfl⟩ := List.getElem?_eq_some_iff.1 ha
        obtain ⟨hj, rfl⟩ := List.getElem?_eq_some_iff.1 hb
        exact hsorted i j hi hj hij
      · intro hsorted i j hi hj hij
        exact hsorted i j _ _ hij (List.getElem?_eq_getElem hi) (List.getElem?_eq_getElem hj)
    · have hreverse : args.reverse.map Node.value =
          ws.reverse.map fun w => Value.atom (.integer w) := by
        rw [List.map_reverse, hvalues, List.map_reverse]
      rw [r.converse.applyPrimitive_comparison span (by rwa [List.length_reverse]), hanswer,
        r.converse.integers_of_words 1 hreverse]
      simp only [Comparison.chained_reverse]

/-- Two integers that are out of order do not hide the boolean behind them. -/
theorem boolean_is_found_behind_disorder :
    applyPrimitive (.comparison .less)
        [.integer 3 ⟨3, 4⟩, .integer 1 ⟨5, 6⟩, .boolean true ⟨7, 9⟩] ⟨0, 10⟩ default =
      .error (.mismatch (.comparison .less) .integer (.atom (.boolean true)) 3 ⟨7, 9⟩) default :=
  (comparison_is_sortedness .less _ ⟨0, 10⟩ (by decide)).1
    [.integer 3 ⟨3, 4⟩, .integer 1 ⟨5, 6⟩] (.boolean true ⟨7, 9⟩) [] rfl (by decide) rfl default

end MiniScheme
