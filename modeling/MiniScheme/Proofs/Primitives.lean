import Mathlib.Data.List.Forall2
import MiniScheme.Eval.Primitive

/-!
# What a primitive can do

`Primitive.call` takes a call of a primitive apart: an error, or a function that gives the result
and the store after the call. That a call is this (`applyPrimitive_run`) says that it decides by
its arguments alone whether it fails, and that it has changed nothing then.

One inversion lemma for all primitives, for two calls at once. A call that succeeds computes an
integer or a truth value, makes cells out of its arguments, or reads or replaces a half of the
pair that its first argument is. A call that fails complains about its arguments. If the
arguments of two calls differ at most in the objects they name, then both succeed in the same way
or both fail.

The relation between the arguments and the one between errors are parameters; `ArgumentsAlike`
lists what is needed of them.

## Results

* `applyPrimitive_run`: a call of a primitive on a machine.
* `Primitive.call_alike`: two calls of a primitive.
* `Primitive.call_change`: one call of a primitive.
-/

namespace MiniScheme

/-! ## A call, apart from the machine -/

/-- What a primitive does with evaluated arguments: an error, or the result and the store after the
call as a function of the store. -/
def Primitive.call (p : Primitive) (args : List Node) (span : Span) :
    Except EvalError (Store → Node × Store) :=
  match p, args with
  | arithmetic op, args => do
    let n ← op.compute args span
    return fun s => (.integer n span, s)
  | comparison r, args => do
    let b ← r.compute args span
    return fun s => (.boolean b span, s)
  | list, args => .ok fun s => s.newList args span
  | cons, [a, b] => .ok fun s =>
    let (c, s) := s.newCell a b
    (⟨.pair c, span⟩, s)
  | half h, [a] => do
    let c ← (half h).expectPair a
    return fun s => ((s.cell c).half h, s)
  | setHalf h, [a, b] => do
    let c ← (setHalf h).expectPair a
    return fun s => (.unspecified span, s.setHalf c h b)
  | test t, [a] => .ok fun s => (.boolean (t.accepts a.value) span, s)
  | p, args => .error (p.wrongArity args span)

/-- **A primitive that fails has not touched the machine**, and whether it fails does not depend on
the machine. -/
theorem applyPrimitive_run (p : Primitive) (args : List Node) (span : Span) (m : Machine) :
    applyPrimitive p args span m =
      match p.call args span with
      | .ok change => .ok (change m.store).1 { m with store := (change m.store).2 }
      | .error e => .error e m := by
  cases p with
  | arithmetic op =>
    simp only [applyPrimitive, Primitive.call]
    cases op.compute args span <;> rfl
  | comparison r =>
    simp only [applyPrimitive, Primitive.call]
    cases r.compute args span <;> rfl
  | list => rfl
  | cons => obtain _ | ⟨a, _ | ⟨b, _ | ⟨c, args⟩⟩⟩ := args <;> rfl
  | half h =>
    obtain _ | ⟨a, _ | ⟨b, args⟩⟩ := args
    · rfl
    · simp only [applyPrimitive, Primitive.call]
      cases (Primitive.half h).expectPair a <;> rfl
    · rfl
  | setHalf h =>
    obtain _ | ⟨a, _ | ⟨b, _ | ⟨c, args⟩⟩⟩ := args
    · rfl
    · rfl
    · simp only [applyPrimitive, Primitive.call]
      cases (Primitive.setHalf h).expectPair a <;> rfl
    · rfl
  | test t => obtain _ | ⟨a, _ | ⟨b, args⟩⟩ := args <;> rfl

/-! ## Two calls -/

/-- The values differ at most in the objects they name. -/
inductive Value.Similar : Value → Value → Prop
  | atom (a : Atom) : Similar (.atom a) (.atom a)
  | nil : Similar .nil .nil
  | pair (c c' : CellId) : Similar (.pair c) (.pair c')
  | primitive (p : Primitive) : Similar (.procedure (.primitive p)) (.procedure (.primitive p))
  | closure (k k' : ClosureId) : Similar (.procedure (.closure k)) (.procedure (.closure k'))
  | unspecified : Similar .unspecified .unspecified

theorem Value.Similar.refl (v : Value) : v.Similar v := by
  match v with
  | .atom a => exact .atom a
  | .nil => exact .nil
  | .pair c => exact .pair c c
  | .procedure (.primitive p) => exact .primitive p
  | .procedure (.closure k) => exact .closure k k
  | .unspecified => exact .unspecified

theorem Value.Similar.typeName_eq {v v' : Value} (h : v.Similar v') :
    v.typeName = v'.typeName := by
  cases h <;> rfl

theorem TypeTest.accepts_eq (t : TypeTest) {v v' : Value} (h : v.Similar v') :
    t.accepts v = t.accepts v' := by
  cases h with
  | atom a => rfl
  | nil => rfl
  | pair c c' => cases t <;> rfl
  | primitive p => rfl
  | closure k k' => cases t <;> rfl
  | unspecified => rfl

/-- The names that an error mentions, be it as such or as the value that it prints. -/
def EvalError.names : EvalError → List String
  | unbound name _ => [name]
  | arity procedure _ _ _ => [procedure]
  | notAProcedure found _ => found.symbol?.toList
  | malformed (.duplicateParameter name) _ | malformed (.duplicateBinding name) _ => [name]
  | _ => []

/-- The relation between arguments, and what it is for errors about them or about the call at
`site` to be related. -/
structure ArgumentsAlike (V : Node → Node → Prop) (E : EvalError → EvalError → Prop)
    (site : Span) : Prop where
  similar : ∀ {a a'}, V a a' → a.value.Similar a'.value
  span : ∀ {a a'}, V a a' → a.span = a'.span
  mismatch : ∀ {a a'} p x i, V a a' →
    E (.mismatch p x a.value i a.span) (.mismatch p x a'.value i a'.span)
  arity : ∀ (p : Primitive) x n, E (.arity p.name x n site) (.arity p.name x n site)
  divisionByZero : ∀ {a a' n}, V a a' → a.value = .atom (.integer n) →
    E (.divisionByZero a.span) (.divisionByZero a'.span)
  overflow : ∀ op, E (.overflow op site) (.overflow op site)

/-- The computations have related results or related errors. -/
inductive EndsAlike {α β : Type} (E : EvalError → EvalError → Prop) (Q : α → β → Prop) :
    Except EvalError α → Except EvalError β → Prop
  | ok {a : α} {b : β} (h : Q a b) : EndsAlike E Q (.ok a) (.ok b)
  | error {e e' : EvalError} (h : E e e') : EndsAlike E Q (.error e) (.error e')

theorem EndsAlike.bind {α β γ δ : Type} {E : EvalError → EvalError → Prop} {Q : α → β → Prop}
    {P : γ → δ → Prop} {x : Except EvalError α} {x' : Except EvalError β}
    {g : α → Except EvalError γ} {g' : β → Except EvalError δ} (hx : EndsAlike E Q x x')
    (hg : ∀ a b, Q a b → EndsAlike E P (g a) (g' b)) : EndsAlike E P (x >>= g) (x' >>= g') := by
  cases hx with
  | ok h => exact hg _ _ h
  | error h => exact .error h

/-- What two successful calls of a primitive do. -/
inductive Primitive.Changes (V : Node → Node → Prop) (span : Span) (p : Primitive) :
    (Store → Node × Store) → (Store → Node × Store) → Prop
  | integer (n : Int64) :
      Changes V span p (fun s => (.integer n span, s)) (fun s => (.integer n span, s))
  | boolean (b : Bool) :
      Changes V span p (fun s => (.boolean b span, s)) (fun s => (.boolean b span, s))
  | list {args args' : List Node} (h : List.Forall₂ V args args') (hp : p = .list) :
      Changes V span p (fun s => s.newList args span) (fun s => s.newList args' span)
  | cons {a a' b b' : Node} (ha : V a a') (hb : V b b') :
      Changes V span p (fun s => (⟨.pair (s.newCell a b).1, span⟩, (s.newCell a b).2))
        (fun s => (⟨.pair (s.newCell a' b').1, span⟩, (s.newCell a' b').2))
  | half (half : Half) {a a' : Node} {c c' : CellId} (ha : V a a') (hc : a.value = .pair c)
      (hc' : a'.value = .pair c') :
      Changes V span p (fun s => ((s.cell c).half half, s)) (fun s => ((s.cell c').half half, s))
  | setHalf (half : Half) {a a' b b' : Node} {c c' : CellId} (ha : V a a') (hb : V b b')
      (hc : a.value = .pair c) (hc' : a'.value = .pair c') (hp : p = .setHalf half) :
      Changes V span p (fun s => (.unspecified span, s.setHalf c half b))
        (fun s => (.unspecified span, s.setHalf c' half b'))

namespace ArgumentsAlike

variable {V : Node → Node → Prop} {E : EvalError → EvalError → Prop} {span : Span}
  (hE : ArgumentsAlike V E span) {a a' : Node} {args args' : List Node}

include hE

theorem expectInteger (p : Primitive) (i : Nat) (ha : V a a') :
    EndsAlike E (fun n n' => n = n' ∧ a.value = .atom (.integer n)) (p.expectInteger i a)
      (p.expectInteger i a') := by
  have hmismatch := hE.mismatch p .integer i ha
  have hs := hE.similar ha
  obtain ⟨v, span⟩ := a
  obtain ⟨v', span'⟩ := a'
  cases hs with
  | atom b =>
    cases b with
    | integer n => exact .ok ⟨rfl, rfl⟩
    | boolean b => exact .error hmismatch
    | symbol name => exact .error hmismatch
  | nil | pair | primitive | closure | unspecified => exact .error hmismatch

theorem expectPair (p : Primitive) (ha : V a a') :
    EndsAlike E (fun c c' => a.value = .pair c ∧ a'.value = .pair c') (p.expectPair a)
      (p.expectPair a') := by
  have hmismatch := hE.mismatch p .pair 1 ha
  have hs := hE.similar ha
  obtain ⟨v, span⟩ := a
  obtain ⟨v', span'⟩ := a'
  cases hs with
  | pair c c' => exact .ok ⟨rfl, rfl⟩
  | atom | nil | primitive | closure | unspecified => exact .error hmismatch

theorem expectWord (op : Arithmetic) (z : Int) :
    EndsAlike E Eq (op.expectWord span z) (op.expectWord span z) := by
  unfold Arithmetic.expectWord
  cases narrow? z with
  | some n => exact .ok rfl
  | none => exact .error (hE.overflow op)

theorem combine (op : Arithmetic) (ha : V a a') {n : Int64} (hn : a.value = .atom (.integer n))
    (x y : Int) : EndsAlike E Eq (op.combine a x y) (op.combine a' x y) := by
  cases op with
  | add => exact .ok rfl
  | sub => exact .ok rfl
  | mul => exact .ok rfl
  | div =>
    unfold Arithmetic.combine
    by_cases hy : y = 0
    · simp only [if_pos hy]
      exact .error (hE.divisionByZero ha hn)
    · simp only [if_neg hy]
      exact .ok rfl

theorem foldIntegers (op : Arithmetic) (hargs : List.Forall₂ V args args') (i : Nat)
    (acc : Int64) :
    EndsAlike E Eq (op.foldIntegers span i acc args) (op.foldIntegers span i acc args') := by
  induction hargs generalizing i acc with
  | nil => exact .ok rfl
  | cons ha _ ih =>
    refine (hE.expectInteger _ i ha).bind ?_
    rintro n _ ⟨rfl, hn⟩
    refine (hE.combine op ha hn _ _).bind ?_
    rintro z _ rfl
    refine (hE.expectWord op z).bind ?_
    rintro acc _ rfl
    exact ih (i + 1) acc

theorem foldFrom (op : Arithmetic) (ha : V a a') (hargs : List.Forall₂ V args args') :
    EndsAlike E Eq (op.foldFrom span a args) (op.foldFrom span a' args') := by
  refine (hE.expectInteger _ 1 ha).bind ?_
  rintro n _ ⟨rfl, -⟩
  exact hE.foldIntegers op hargs 2 n

theorem wrongArity (p : Primitive) (hargs : List.Forall₂ V args args') :
    E (p.wrongArity args span) (p.wrongArity args' span) := by
  unfold Primitive.wrongArity
  rw [hargs.length_eq]
  exact hE.arity _ _ _

theorem arithmetic (op : Arithmetic) (hargs : List.Forall₂ V args args') :
    EndsAlike E Eq (op.compute args span) (op.compute args' span) := by
  have harity := hE.wrongArity (.arithmetic op) hargs
  cases op with
  | add => exact hE.foldIntegers _ hargs 1 0
  | mul => exact hE.foldIntegers _ hargs 1 1
  | sub =>
    cases hargs with
    | nil => exact .error harity
    | cons ha hargs =>
      cases hargs with
      | nil =>
        refine (hE.expectInteger _ 1 ha).bind ?_
        rintro n _ ⟨rfl, -⟩
        exact hE.expectWord _ _
      | cons hb hargs => exact hE.foldFrom _ ha (.cons hb hargs)
  | div =>
    cases hargs with
    | nil => exact .error harity
    | cons ha hargs =>
      cases hargs with
      | nil => exact .error harity
      | cons hb hargs => exact hE.foldFrom _ ha (.cons hb hargs)

theorem compareFrom (r : Comparison) (hargs : List.Forall₂ V args args') (i : Nat) (last : Int64)
    (result : Bool) :
    EndsAlike E Eq (r.compareFrom i last result args) (r.compareFrom i last result args') := by
  induction hargs generalizing i last result with
  | nil => exact .ok rfl
  | cons ha _ ih =>
    refine (hE.expectInteger _ i ha).bind ?_
    rintro n _ ⟨rfl, -⟩
    exact ih (i + 1) n _

theorem comparison (r : Comparison) (hargs : List.Forall₂ V args args') :
    EndsAlike E Eq (r.compute args span) (r.compute args' span) := by
  have harity := hE.wrongArity (.comparison r) hargs
  match hargs with
  | .nil | .cons _ .nil => exact .error harity
  | .cons ha (.cons hb hargs) =>
    refine (hE.expectInteger _ 1 ha).bind ?_
    rintro n _ ⟨rfl, -⟩
    exact hE.compareFrom r (.cons hb hargs) 2 n true

end ArgumentsAlike

/-- **Two calls of a primitive.** -/
theorem Primitive.call_alike {V : Node → Node → Prop} {E : EvalError → EvalError → Prop}
    {span : Span} (hE : ArgumentsAlike V E span) (p : Primitive) {args args' : List Node}
    (hargs : List.Forall₂ V args args') :
    EndsAlike E (Changes V span p) (p.call args span) (p.call args' span) := by
  have harity := hE.wrongArity p hargs
  cases p with
  | arithmetic op =>
    refine (hE.arithmetic op hargs).bind ?_
    rintro n _ rfl
    exact .ok (.integer n)
  | comparison r =>
    refine (hE.comparison r hargs).bind ?_
    rintro b _ rfl
    exact .ok (.boolean b)
  | list => exact .ok (.list hargs rfl)
  | cons =>
    match hargs with
    | .nil | .cons _ .nil | .cons _ (.cons _ (.cons _ _)) => exact .error harity
    | .cons ha (.cons hb .nil) => exact .ok (.cons ha hb)
  | half half =>
    match hargs with
    | .nil | .cons _ (.cons _ _) => exact .error harity
    | .cons ha .nil =>
      refine (hE.expectPair _ ha).bind ?_
      rintro c c' ⟨hc, hc'⟩
      exact .ok (.half half ha hc hc')
  | setHalf half =>
    match hargs with
    | .nil | .cons _ .nil | .cons _ (.cons _ (.cons _ _)) => exact .error harity
    | .cons ha (.cons hb .nil) =>
      refine (hE.expectPair _ ha).bind ?_
      rintro c c' ⟨hc, hc'⟩
      exact .ok (.setHalf half ha hb hc hc' rfl)
  | test t =>
    match hargs with
    | .nil | .cons _ (.cons _ _) => exact .error harity
    | .cons ha .nil =>
      simp only [call, t.accepts_eq (hE.similar ha)]
      exact .ok (.boolean _)

/-! ## One call -/

/-- Lists of which the items are the same and have a property. -/
theorem eq_of_forall₂ {α : Type} {V : α → Prop} {vs vs' : List α}
    (h : List.Forall₂ (fun v v' => v = v' ∧ V v) vs vs') : vs = vs' ∧ ∀ v ∈ vs, V v := by
  induction h with
  | nil => exact ⟨rfl, nofun⟩
  | cons hv _ ih =>
    obtain ⟨rfl, hv⟩ := hv
    exact ⟨by rw [ih.1], List.forall_mem_cons.2 ⟨hv, ih.2⟩⟩

namespace Primitive

/-- What a successful call of a primitive does, its arguments having a property. -/
inductive Change (V : Node → Prop) (span : Span) (p : Primitive) : (Store → Node × Store) → Prop
  | integer (n : Int64) : Change V span p fun s => (.integer n span, s)
  | boolean (b : Bool) : Change V span p fun s => (.boolean b span, s)
  | list {args : List Node} (h : ∀ a ∈ args, V a) (hp : p = .list) :
      Change V span p fun s => s.newList args span
  | cons {a b : Node} (ha : V a) (hb : V b) :
      Change V span p fun s => (⟨.pair (s.newCell a b).1, span⟩, (s.newCell a b).2)
  | half (half : Half) {a : Node} {c : CellId} (ha : V a) (hc : a.value = .pair c) :
      Change V span p fun s => ((s.cell c).half half, s)
  | setHalf (half : Half) {a b : Node} {c : CellId} (ha : V a) (hb : V b)
      (hc : a.value = .pair c) (hp : p = .setHalf half) :
      Change V span p fun s => (.unspecified span, s.setHalf c half b)

variable {V : Node → Prop} {E : EvalError → Prop} {span : Span} {p : Primitive}

theorem Changes.change {c c' : Store → Node × Store}
    (h : Changes (fun a a' => a = a' ∧ V a) span p c c') : Change V span p c := by
  cases h with
  | integer n => exact .integer n
  | boolean b => exact .boolean b
  | list hargs hp =>
    exact .list (eq_of_forall₂ hargs).2 hp
  | cons ha hb => exact .cons ha.2 hb.2
  | half half ha hc _ => exact .half half ha.2 hc
  | setHalf half ha hb hc _ hp => exact .setHalf half ha.2 hb.2 hc hp

/-- **One call of a primitive.** It does one of the things that a primitive can do, or it
complains about an argument or about the call. -/
theorem call_change (hmismatch : ∀ {a} p x i, V a → E (.mismatch p x a.value i a.span))
    (hdivision : ∀ {a n}, V a → a.value = .atom (.integer n) → E (.divisionByZero a.span))
    (hsite : ∀ {e : EvalError}, e.span = span → (∀ name ∈ e.names, ∃ q : Primitive, q.name = name) →
      E e) {args : List Node} (hargs : ∀ a ∈ args, V a) :
    (∃ change, p.call args span = .ok change ∧ Change V span p change) ∨
      ∃ e, p.call args span = .error e ∧ E e := by
  have hE : ArgumentsAlike (fun a a' => a = a' ∧ V a) (fun e _ => E e) span := {
    similar := fun h => h.1 ▸ .refl _
    span := fun h => congrArg Node.span h.1
    mismatch := fun p x i h => hmismatch p x i h.2
    arity := fun q _ _ => hsite rfl fun _ hname => ⟨q, (List.mem_singleton.1 hname).symm⟩
    divisionByZero := fun h hn => hdivision h.2 hn
    overflow := fun _ => hsite rfl nofun }
  have hsame : List.Forall₂ (fun a a' => a = a' ∧ V a) args args :=
    List.forall₂_same.2 fun a ha => ⟨rfl, hargs a ha⟩
  have hends := p.call_alike hE hsame
  cases hcall : p.call args span with
  | ok change =>
    rw [hcall] at hends
    cases hends with
    | ok h => exact .inl ⟨change, rfl, h.change⟩
  | error e =>
    rw [hcall] at hends
    cases hends with
    | error he => exact .inr ⟨e, rfl, he⟩

end Primitive

end MiniScheme
