import MiniScheme.Proofs.Invariant
import MiniScheme.Proofs.Isolation.Surroundings
import MiniScheme.Proofs.Isolation.Run

/-!
# Runs with the same answer

Two runs that start from one store need not make the same objects. They have the *same answer* if
what they leave is the same up to the objects that are new: there is a one-to-one matching of
objects in which every old object is matched with itself and matched objects have matching contents.
The values that the runs give match as well, or else both fail with errors of the same kind and the
same message. If both are like a third run, each in surroundings of its own, then the third run is
what their objects have in common.

## Results

* `sameAnswer_of_alike`: two runs that go like a third one.
* `sameAnswer_of_stops`: two runs that reach the limit before they change anything.
-/

namespace MiniScheme

/-! ## Objects with a common partner -/

namespace Matching

variable {ρ σ : Matching}

/-- The objects have a common partner. -/
def join (ρ σ : Matching) : Matching := fun r' r'' => ∃ r, ρ r r' ∧ σ r r''

theorem Values.join {v v' v'' : Value} (h : ρ.Values v v') (h' : σ.Values v v'') :
    (ρ.join σ).Values v' v'' := by
  cases h with
  | atom a =>
    cases h'
    exact .atom a
  | nil =>
    cases h'
    exact .nil
  | pair hc =>
    cases h' with
    | pair hc' => exact .pair ⟨_, hc, hc'⟩
  | primitive p =>
    cases h'
    exact .primitive p
  | closure hk =>
    cases h' with
    | closure hk' => exact .closure ⟨_, hk, hk'⟩
  | unspecified =>
    cases h'
    exact .unspecified

theorem Nodes.join {n n' n'' : Node} (h : ρ.Nodes n n') (h' : σ.Nodes n n'') :
    (ρ.join σ).Nodes n' n'' :=
  ⟨h.value.join h'.value, h.span.symm.trans h'.span⟩

theorem outer_join {o o' o'' : Option FrameId}
    (h : Option.Rel (fun g g' => ρ (.frame g) (.frame g')) o o')
    (h' : Option.Rel (fun g g' => σ (.frame g) (.frame g')) o o'') :
    Option.Rel (fun g g' => ρ.join σ (.frame g) (.frame g')) o' o'' := by
  cases h with
  | none =>
    cases h'
    exact .none
  | some hg =>
    cases h' with
    | some hg' => exact .some ⟨_, hg, hg'⟩

theorem entries_join {es es' es'' : List (String × Node)} (h : List.Forall₂ ρ.Entries es es')
    (h' : List.Forall₂ σ.Entries es es'') : List.Forall₂ (ρ.join σ).Entries es' es'' := by
  induction h generalizing es'' with
  | nil =>
    cases h'
    exact .nil
  | cons he _ ih =>
    cases h' with
    | cons he' hes' =>
      exact .cons ⟨he.name.symm.trans he'.name, he.node.join he'.node⟩ (ih hes')

theorem Frames.join {fr fr' fr'' : Frame} (h : ρ.Frames fr fr') (h' : σ.Frames fr fr'') :
    (ρ.join σ).Frames fr' fr'' :=
  ⟨outer_join h.outer h'.outer, entries_join h.entries h'.entries⟩

theorem Closures.join {k k' k'' : Closure} (h : ρ.Closures k k') (h' : σ.Closures k k'') :
    (ρ.join σ).Closures k' k'' where
  name := h.name.symm.trans h'.name
  params := h.params.symm.trans h'.params
  body := h.body.join h'.body
  frame := ⟨_, h.frame, h'.frame⟩

theorem Contents.join {c t t' : Store} {r r' r'' : Ref} (h : ρ.Contents c t r r')
    (h' : σ.Contents c t' r r'') : (ρ.join σ).Contents t t' r' r'' := by
  match r, r', r'', h, h' with
  | .cell _, .cell _, .cell _, ⟨hcar, hcdr⟩, ⟨hcar', hcdr'⟩ =>
    exact ⟨hcar.join hcar', hcdr.join hcdr'⟩
  | .frame _, .frame _, .frame _, ⟨hframe, _, hlow⟩, ⟨hframe', _, hlow'⟩ =>
    exact ⟨hframe.join hframe', hlow, hlow'⟩
  | .closure _, .closure _, .closure _, h, h' => exact Closures.join h h'

end Matching

/-! ## Answers -/

/-- Two stores that came from one hold the same: what there was, and what is new up to its
identity. -/
structure Store.SameAfter (s : Store) (ρ : Matching) (t t' : Store) : Prop where
  old : ∀ {r}, s.Has r → ρ r r
  has : ∀ {r r'}, ρ r r' → t.Has r ∧ t'.Has r'
  unique : ∀ {r r' q q'}, ρ r r' → ρ q q' → (r = q ↔ r' = q')
  contents : ∀ {r r'}, ρ r r' → ρ.Contents t t' r r'

/-- Two runs gave values that are equal up to the matching, or both failed with an error of the same
kind and the same message, at the same place unless the limit of nesting was reached. -/
def SameOutcome (ρ : Matching) :
    EStateM.Result EvalError Machine Node → EStateM.Result EvalError Machine Node → Prop
  | .ok v _, .ok v' _ => ρ.Nodes v v'
  | .error x m, .error x' m' =>
    (Error.eval x).kind = (Error.eval x').kind ∧ x.message m.store = x'.message m'.store ∧
      ((Error.eval x).kind ≠ .recursionLimit → x.span = x'.span)
  | _, _ => False

/-- Two runs that started from the store `s` have the same outcome and leave the same. -/
def Store.SameAnswer (s : Store) (r r' : EStateM.Result EvalError Machine Node) : Prop :=
  ∃ ρ, s.SameAfter ρ (finalMachine r).store (finalMachine r').store ∧ SameOutcome ρ r r'

/-- A run reached the limit, and the store `s` is what it was. -/
def Store.Stops (s : Store) (limit : Nat) (r : EStateM.Result EvalError Machine Node) : Prop :=
  ∃ span m e, r = .error (.depthExceeded limit span) m ∧ Embeds e s m.store ∧
    ∀ r, s.Has r → e.same r r

theorem Matched.sameAfter {ρ σ : Matching} {c s t t' : Store} (h : Matched ρ c t)
    (h' : Matched σ c t') (hold : ∀ r, s.Has r → ρ r r) (hold' : ∀ r, s.Has r → σ r r) :
    s.SameAfter (ρ.join σ) t t' where
  old hr := ⟨_, hold _ hr, hold' _ hr⟩
  has := by
    rintro r' r'' ⟨r, hr, hr'⟩
    exact ⟨(h.has hr).2, (h'.has hr').2⟩
  unique := by
    rintro r' r'' q' q'' ⟨r, hr, hr'⟩ ⟨q, hq, hq'⟩
    exact (h.unique hr hq).symm.trans (h'.unique hr' hq')
  contents := by
    rintro r' r'' ⟨r, hr, hr'⟩
    exact (h.contents hr).join (h'.contents hr')

variable {s : Store} {r r' : EStateM.Result EvalError Machine Node}

/-- **Two runs that go like a third one** have the same answer. -/
theorem sameAnswer_of_alike {e e' : Embedding} {c : EStateM.Result EvalError Machine Node}
    (hold : ∀ r, s.Has r → e.same r r) (hold' : ∀ r, s.Has r → e'.same r r)
    (h : ownRun.Alike e ownRun.value c r) (h' : ownRun.Alike e' ownRun.value c r') :
    s.SameAnswer r r' := by
  have hlost : ∀ u, ¬ownRun.lost u := fun _ => id
  cases c with
  | ok v m =>
    obtain ⟨v₁, m₁, e₁, rfl, hle, hm, hv⟩ := h.of_ok hlost
    obtain ⟨v₂, m₂, e₂, rfl, hle', hm', hv'⟩ := h'.of_ok hlost
    exact ⟨_, hm.toMatched.sameAfter hm'.toMatched (fun r hr => hle.1 r r (hold r hr))
      fun r hr => hle'.1 r r (hold' r hr), Matching.Nodes.join hv hv'⟩
  | error x m =>
    obtain ⟨x₁, m₁, e₁, rfl, hle, hm, hx⟩ := (h.of_error hlost).resolve_left id
    obtain ⟨x₂, m₂, e₂, rfl, hle', hm', hx'⟩ := (h'.of_error hlost).resolve_left id
    refine ⟨_, hm.toMatched.sameAfter hm'.toMatched (fun r hr => hle.1 r r (hold r hr))
      fun r hr => hle'.1 r r (hold' r hr), ?_, ?_, fun _ => ?_⟩
    · exact hx.agree.1.symm.trans hx'.agree.1
    · exact (hm.message hx).symm.trans (hm'.message hx')
    · exact hx.agree.2.1.symm.trans hx'.agree.2.1

/-- Two runs that reach the limit before they change anything have the same answer. -/
theorem sameAnswer_of_stops {limit : Nat} (h : s.Stops limit r) (h' : s.Stops limit r') :
    s.SameAnswer r r' := by
  obtain ⟨span, m, e, rfl, hm, hold⟩ := h
  obtain ⟨span', m', e', rfl, hm', hold'⟩ := h'
  exact ⟨_, hm.toMatched.sameAfter hm'.toMatched hold hold', rfl, rfl,
    fun hkind => absurd rfl hkind⟩

end MiniScheme
