import Mathlib.Data.List.Forall2
import Mathlib.Order.Basic
import MiniScheme.Eval

/-!
# Evaluations in step

Two evaluations that run the same functions on related machines stay related for as long as the
operations on the store keep them so. This file says that once, for every relation: a `Likeness`
is a choice of relations, `Simulation` lists what the operations have to keep, and `step_alike`
carries it through every special form and every call.

The relations are seen from a world `w` that grows while the evaluation runs, so that they can
speak of objects that come into being on the way. A node of code is related in a *role*, the way
in which the form around it reads it, and in the two frames in which it is evaluated.

An invariant of one evaluation is the case in which both sides are the same run. The right side
may also be the run that stops where the other goes on: from a world that is `lost` on nothing is
asked of it.

## Results

* `Likeness.Alike.bind`: related computations, one after the other.
* `Simulation.step_alike`: if two evaluators are alike then so is one level of evaluation over
  them.
-/

namespace MiniScheme

/-- How the form around it reads a piece of code. -/
inductive Role where
  /-- it is evaluated -/
  | expression
  /-- the name that `define` or `let` binds -/
  | target
  /-- the name that `set!` assigns to -/
  | assigned
  /-- the binding list of a `let` -/
  | bindings
  /-- one binding of a `let` -/
  | binding
  /-- one clause of a `cond` -/
  | clause
  /-- the parameter list of a `lambda` -/
  | parameters
  /-- it is quoted -/
  | datum
deriving DecidableEq, Repr

/-- The roles in which evaluation takes a list apart, `lambda` aside. -/
def Role.isOpened : Role → Bool
  | expression | bindings | binding | clause => true
  | target | assigned | parameters | datum => false

/-- The role of the item at `index` of a list that is read in a role, `form` being the form that
its first item names. -/
def Role.item : Role → Option Form → Nat → Role
  | .expression, some .quote, _ + 1 => .datum
  | .expression, some .define, 1 => .target
  | .expression, some .assign, 1 => .assigned
  | .expression, some .lambda, 1 => .parameters
  | .expression, some .bind, 1 => .bindings
  | .expression, some .clauses, _ + 1 => .clause
  | .bindings, _, _ => .binding
  | .binding, _, 0 => .target
  | .parameters, _, _ => .target
  | .datum, _, _ => .datum
  | _, _, _ => .expression

/-- The items of quoted data are quoted data. -/
@[simp] theorem Role.item_datum (form : Option Form) (index : Nat) :
    Role.datum.item form index = .datum := by
  cases form <;> rfl

/-- A fault that says nothing about a value or a name. -/
def Fault.isPlain : Fault → Bool
  | notASymbol _ _ | duplicateParameter _ | duplicateBinding _ | improperList => false
  | _ => true

/-- The first items are related by one relation and all others by another. -/
inductive Headed (first rest : Node → Node → Prop) : List Node → List Node → Prop
  | nil : Headed first rest [] []
  | cons {n n' : Node} {ns ns' : List Node} (head : first n n') (tail : List.Forall₂ rest ns ns') :
      Headed first rest (n :: ns) (n' :: ns')

/-- What it is for two evaluations to be alike, from a world on. -/
structure Likeness (W : Type) where
  machine : W → Machine → Machine → Prop
  span : W → Span → Span → Prop
  frame : W → FrameId → FrameId → Prop
  value : W → Node → Node → Prop
  code : W → Role → FrameId → FrameId → Node → Node → Prop
  /-- the operands of two `lambda` forms -/
  abstraction : W → FrameId → FrameId → List Node → List Node → Prop
  /-- what else is known of the operands of two `define` forms that are evaluated -/
  definition : W → FrameId → FrameId → List Node → List Node → Prop
  held : W → List Ref → List Ref → Prop
  error : W → EvalError → EvalError → Prop
  /-- an error of the left side after which nothing is asked of the right side -/
  fatal : EvalError → Prop
  /-- a world from which on nothing is asked of the right side -/
  lost : W → Prop

namespace Likeness

variable {W : Type} [Preorder W] (R : Likeness W) {α β γ δ : Type} {w w' : W}

/-- The right side ends with `r`, or it was lost on the way from `w` to `w'`. -/
def Ends (w w' : W) (r r' : EStateM.Result EvalError Machine β) : Prop :=
  r' = r ∨ ∃ v, w ≤ v ∧ v ≤ w' ∧ R.lost v

/-- Two outcomes are alike: two results that `Q` relates, or two errors. -/
def Alike (w : W) (Q : W → α → β → Prop) :
    EStateM.Result EvalError Machine α → EStateM.Result EvalError Machine β → Prop
  | .ok a m, r => ∃ b m' w', w ≤ w' ∧ R.machine w' m m' ∧ Q w' a b ∧ R.Ends w w' (.ok b m') r
  | .error e m, r =>
    R.fatal e ∨ ∃ e' m' w', w ≤ w' ∧ R.machine w' m m' ∧ R.error w' e e' ∧
      R.Ends w w' (.error e' m') r

/-- Two evaluators are alike: on related inputs they have outcomes that are alike. -/
def Evaluators (ev ev' : Evaluator) : Prop :=
  ∀ ⦃w h h' n n' f f' m m'⦄, R.machine w m m' → R.held w h h' → R.frame w f f' →
    R.code w .expression f f' n n' → R.Alike w R.value (ev h n f m) (ev' h' n' f' m')

/-- The operands of a special form, each in the role the form has for it. -/
def operands (w : W) (f f' : FrameId) : Form → List Node → List Node → Prop
  | .quote => List.Forall₂ (R.value w)
  | .define => Headed (R.code w .target f f') (R.code w .expression f f')
  | .assign => Headed (R.code w .assigned f f') (R.code w .expression f f')
  | .lambda => R.abstraction w f f'
  | .bind => Headed (R.code w .bindings f f') (R.code w .expression f f')
  | .clauses => List.Forall₂ (R.code w .clause f f')
  | .conditional | .sequence | .conjunction | .disjunction =>
    List.Forall₂ (R.code w .expression f f')

/-- The form that a list starting with `head` is, `none` for a call. -/
def formOf (head : Node) : Option Form := head.value.symbol?.bind Form.ofKeyword?

/-- The items of two lists that are evaluated. -/
def application (w : W) (f f' : FrameId) : List Node → List Node → Prop
  | head :: ns, head' :: ns' =>
    formOf head' = formOf head ∧
      match formOf head with
      | some form => R.operands w f f' form ns ns'
      | none => List.Forall₂ (R.code w .expression f f') (head :: ns) (head' :: ns')
  | _, _ => False

/-- The items of two lists in a role. -/
def parts (w : W) (f f' : FrameId) : Role → List Node → List Node → Prop
  | .expression => R.application w f f'
  | .bindings => List.Forall₂ (R.code w .binding f f')
  | .binding => Headed (R.code w .target f f') (R.code w .expression f f')
  | .clause => List.Forall₂ (R.code w .expression f f')
  | .target | .assigned | .parameters | .datum => fun _ _ => False

/-- The names and values of two binding lists that are evaluated in two frames. Each name is that of
some target. -/
def entry (w : W) (f f' : FrameId) (e e' : String × Node) : Prop :=
  e.1 = e'.1 ∧ R.value w e.2 e'.2 ∧ ∃ n n', R.code w .target f f' n n' ∧ n.value.symbol? = some e.1

/-- A node of code had these items when it was taken apart, now or earlier. -/
def Opened (split : Splitter) (w : W) (r : Role) (n : Node) (items : List Node) : Prop :=
  ∃ v f f' n' m m', v ≤ w ∧ R.machine v m m' ∧ R.code v r f f' n n' ∧
    split n m = .ok (some items) m

variable {R} {Q : W → α → β → Prop} {P : W → γ → δ → Prop} {a : α} {b : β} {e e' : EvalError}
  {m m' : Machine} {r : EStateM.Result EvalError Machine α}
  {r' r₁ : EStateM.Result EvalError Machine β}

theorem Opened.mono {split : Splitter} {r : Role} {n : Node} {items : List Node} (hw : w ≤ w')
    (h : R.Opened split w r n items) : R.Opened split w' r n items := by
  obtain ⟨v, f, f', n', m, m', hv, h⟩ := h
  exact ⟨v, f, f', n', m, m', hv.trans hw, h⟩

theorem Alike.ok (hw : w ≤ w') (hm : R.machine w' m m') (hq : Q w' a b) :
    R.Alike w Q (.ok a m) (.ok b m') :=
  ⟨b, m', w', hw, hm, hq, .inl rfl⟩

theorem Alike.error (hw : w ≤ w') (hm : R.machine w' m m') (he : R.error w' e e') :
    R.Alike w Q (.error e m) (.error e' m') :=
  .inr ⟨e', m', w', hw, hm, he, .inl rfl⟩

theorem Ends.mono {u : W} (h : R.Ends w' u r₁ r') (hw : w ≤ w') : R.Ends w u r₁ r' :=
  h.imp_right fun ⟨v, hv, hvu, hlost⟩ => ⟨v, hw.trans hv, hvu, hlost⟩

theorem Alike.mono (h : R.Alike w' Q r r') (hw : w ≤ w') : R.Alike w Q r r' := by
  cases r with
  | ok a m =>
    obtain ⟨b, m', u, hu, hm, hq, hr⟩ := h
    exact ⟨b, m', u, hw.trans hu, hm, hq, hr.mono hw⟩
  | error e m =>
    rcases h with hf | ⟨e', m', u, hu, hm, he, hr⟩
    · exact .inl hf
    · exact .inr ⟨e', m', u, hw.trans hu, hm, he, hr.mono hw⟩

/-- What the left side gives may be known to have more to it. -/
theorem Alike.and {K : α → Prop} (h : R.Alike w Q r r') (hk : ∀ a m, r = .ok a m → K a) :
    R.Alike w (fun u a b => Q u a b ∧ K a) r r' := by
  cases r with
  | ok a m =>
    obtain ⟨b, m', u, hu, hm, hq, hr⟩ := h
    exact ⟨b, m', u, hu, hm, ⟨hq, hk a m rfl⟩, hr⟩
  | error e m => exact h

/-- Once it is lost the right side may end in any way. -/
theorem Alike.of_lost {v : W} (h : R.Alike v Q r r₁) (hw : w ≤ v) (hv : R.lost v) :
    R.Alike w Q r r' := by
  cases r with
  | ok a m =>
    obtain ⟨b, m', u, hu, hm, hq, -⟩ := h
    exact ⟨b, m', u, hw.trans hu, hm, hq, .inr ⟨v, hw, hu, hv⟩⟩
  | error e m =>
    rcases h with hf | ⟨e', m', u, hu, hm, he, -⟩
    · exact .inl hf
    · exact .inr ⟨e', m', u, hw.trans hu, hm, he, .inr ⟨v, hw, hu, hv⟩⟩

section

variable (hlost : ∀ v, ¬R.lost v)

include hlost

theorem Ends.eq (h : R.Ends w w' r₁ r') : r' = r₁ :=
  h.resolve_right fun ⟨v, _, _, hv⟩ => hlost v hv

/-- What is like a result is one, if the right side is never lost. -/
theorem Alike.of_ok (h : R.Alike w Q (.ok a m) r') :
    ∃ b m' w', r' = .ok b m' ∧ w ≤ w' ∧ R.machine w' m m' ∧ Q w' a b := by
  obtain ⟨b, m', u, hu, hm, hq, hr⟩ := h
  exact ⟨b, m', u, hr.eq hlost, hu, hm, hq⟩

/-- What is like an error is one or the error is fatal, if the right side is never lost. -/
theorem Alike.of_error (h : R.Alike w Q (.error e m) r') :
    R.fatal e ∨
      ∃ e' m' w', r' = .error e' m' ∧ w ≤ w' ∧ R.machine w' m m' ∧ R.error w' e e' :=
  h.imp_right fun ⟨e', m', u, hu, hm, he, hr⟩ => ⟨e', m', u, hr.eq hlost, hu, hm, he⟩

end

theorem Alike.pure (hm : R.machine w m m') (hq : Q w a b) :
    R.Alike w Q ((Pure.pure a : EvalM α) m) ((Pure.pure b : EvalM β) m') :=
  .ok le_rfl hm hq

theorem Alike.throw (hm : R.machine w m m') (he : R.error w e e') :
    R.Alike w Q ((MonadExcept.throw e : EvalM α) m) ((MonadExcept.throw e' : EvalM β) m') :=
  .error le_rfl hm he

/-- **One after the other.** If the right side is lost in the first part then it is compared with
what the second part would have been. -/
theorem Alike.bind {x : EvalM α} {x' : EvalM β} {g : α → EvalM γ} {g' : β → EvalM δ}
    (hx : R.Alike w Q (x m) (x' m'))
    (hg : ∀ u a b m m', w ≤ u → R.machine u m m' → Q u a b → R.Alike u P (g a m) (g' b m')) :
    R.Alike w P ((x >>= g) m) ((x' >>= g') m') := by
  change R.Alike w P (EStateM.bind x g m) (EStateM.bind x' g' m')
  unfold EStateM.bind
  cases hr : x m with
  | ok a m₁ =>
    rw [hr] at hx
    obtain ⟨b, m₁', u, hu, hm, hq, hr' | ⟨v, hv, hvu, hlost⟩⟩ := hx
    · rw [hr']
      exact (hg u a b m₁ m₁' hu hm hq).mono hu
    · exact ((hg u a b m₁ m₁' hu hm hq).mono hvu).of_lost hv hlost
  | error e m₁ =>
    rw [hr] at hx
    rcases hx with hf | ⟨e', m₁', u, hu, hm, he, hr' | hlost⟩
    · exact .inl hf
    · rw [hr']
      exact .error hu hm he
    · exact .inr ⟨e', m₁', u, hu, hm, he, .inr hlost⟩

end Likeness

/-! ## The items of a list -/

/-- The form that a list of nodes names with its first item. -/
def headForm : List Node → Option Form
  | head :: _ => Likeness.formOf head
  | [] => none

namespace Likeness

variable {W : Type} {R : Likeness W} {w : W} {f f' : FrameId} {ns ns' : List Node}

/-- The items of two lists are related, each in the role that `roles` gives to its index. -/
structure Items (R : Likeness W) (w : W) (f f' : FrameId) (roles : Nat → Role)
    (ns ns' : List Node) : Prop where
  length : ns.length = ns'.length
  code : ∀ {i n n'}, ns[i]? = some n → ns'[i]? = some n' → R.code w (roles i) f f' n n'

namespace Items

variable {roles : Nat → Role}

theorem tail {n n' : Node} (h : R.Items w f f' roles (n :: ns) (n' :: ns')) :
    R.Items w f f' (fun i => roles (i + 1)) ns ns' :=
  ⟨Nat.succ.inj h.length, fun {i _ _} hn hn' => h.code (i := i + 1) hn hn'⟩

theorem eq (h : R.Items w f f' roles ns ns')
    (hcode : ∀ {r n n'}, R.code w r f f' n n' → n = n') : ns = ns' :=
  List.ext_getElem h.length fun _ hi hi' =>
    hcode (h.code (List.getElem?_eq_getElem hi) (List.getElem?_eq_getElem hi'))

theorem forall₂ {r : Role} (h : R.Items w f f' roles ns ns') (hr : ∀ i, roles i = r) :
    List.Forall₂ (R.code w r f f') ns ns' := by
  refine List.forall₂_iff_get.2 ⟨h.length, fun i hi hi' => ?_⟩
  rw [← hr i]
  exact h.code (List.getElem?_eq_getElem hi) (List.getElem?_eq_getElem hi')

theorem headed {first rest : Role} (h : R.Items w f f' roles ns ns') (hfirst : roles 0 = first)
    (hrest : ∀ i, roles (i + 1) = rest) :
    Headed (R.code w first f f') (R.code w rest f f') ns ns' := by
  match ns, ns', h with
  | [], [], _ => exact .nil
  | n :: ns, n' :: ns', h =>
    exact .cons (hfirst ▸ h.code (i := 0) rfl rfl) (h.tail.forall₂ hrest)
  | [], _ :: _, h => cases h.length
  | _ :: _, [], h => cases h.length

end Items

variable (hdatum : ∀ {n n' : Node}, R.code w .datum f f' n n' → R.value w n n')
  (hlambda : ∀ {ns ns' : List Node},
    R.Items w f f' (fun i => Role.expression.item (some .lambda) (i + 1)) ns ns' →
      R.abstraction w f f' ns ns')

include hdatum hlambda

/-- The operands of a form are related if each is in the role that the form has for it. -/
theorem operands_of_items {form : Form}
    (h : R.Items w f f' (fun i => Role.expression.item (some form) (i + 1)) ns ns') :
    R.operands w f f' form ns ns' := by
  cases form with
  | quote => exact (h.forall₂ fun _ => rfl).imp fun _ _ => hdatum
  | define => exact h.headed rfl fun _ => rfl
  | assign => exact h.headed rfl fun _ => rfl
  | lambda => exact hlambda h
  | bind => exact h.headed rfl fun _ => rfl
  | clauses => exact h.forall₂ fun _ => rfl
  | conditional => exact h.forall₂ fun _ => rfl
  | sequence => exact h.forall₂ fun _ => rfl
  | conjunction => exact h.forall₂ fun _ => rfl
  | disjunction => exact h.forall₂ fun _ => rfl

/-- **Lists are related in a role** if their items are, each in the role that the list has for
it. -/
theorem parts_of_items {r : Role} (ho : r.isOpened = true) (hne : r = .expression → ns ≠ [])
    (hform : headForm ns' = headForm ns)
    (h : R.Items w f f' (r.item (headForm ns)) ns ns') : R.parts w f f' r ns ns' := by
  cases r with
  | expression =>
    match ns, ns', h with
    | [], _, _ => exact absurd rfl (hne rfl)
    | _ :: _, [], h => cases h.length
    | head :: ns, head' :: ns', h =>
      refine ⟨hform, ?_⟩
      have hitems : R.Items w f f' (Role.expression.item (formOf head)) (head :: ns)
        (head' :: ns') := h
      revert hitems
      cases formOf head with
      | some form => exact fun hitems => operands_of_items hdatum hlambda hitems.tail
      | none => exact fun hitems => hitems.forall₂ fun _ => rfl
  | bindings => exact h.forall₂ fun _ => by cases headForm ns <;> rfl
  | binding => exact h.headed (by cases headForm ns <;> rfl) fun _ => by cases headForm ns <;> rfl
  | clause => exact h.forall₂ fun _ => by cases headForm ns <;> rfl
  | target | assigned | parameters | datum => cases ho

end Likeness

/-- The names that some `let` binds, in order. It is left open how the parts of a list are found,
be it in a store or in what evaluation has met. -/
def LetNames (opened : Role → Node → List Node → Prop) (names : List String) : Prop :=
  ∃ n head bindings body items, opened .expression n (head :: bindings :: body) ∧
    Likeness.formOf head = some .bind ∧ opened .bindings bindings items ∧
    List.Forall₂ (fun item name =>
      ∃ target e, opened .binding item [target, e] ∧ target.value.symbol? = some name) items names

theorem LetNames.imp {opened opened' : Role → Node → List Node → Prop}
    (h : ∀ {r n items}, r ≠ .datum → opened r n items → opened' r n items) {names : List String}
    (hn : LetNames opened names) : LetNames opened' names := by
  obtain ⟨n, head, bindings, body, items, hform, hhead, hbindings, hitems⟩ := hn
  refine ⟨n, head, bindings, body, items, h nofun hform, hhead, h nofun hbindings, ?_⟩
  exact hitems.imp fun _ _ ⟨target, e, hopened, hname⟩ => ⟨target, e, h nofun hopened, hname⟩

/-- A node that is no name and no list stands for itself. -/
theorem step_of_constant (split : Splitter) (ev : Evaluator) (h : List Ref) {n : Node}
    (f : FrameId) (hs : n.value.symbol? = none) (hp : ∀ c, n.value ≠ .pair c) :
    step split ev h n f = pure n := by
  obtain ⟨v, span⟩ := n
  match v with
  | .atom (.integer _) | .atom (.boolean _) | .nil | .procedure _ | .unspecified => rfl
  | .atom (.symbol _) => cases hs
  | .pair c => exact absurd rfl (hp c)

/-! ## What the operations have to keep -/

/-- Two values as operators of a call: the same primitive, two closures, or no procedures. -/
inductive SameKind : Value → Value → Prop
  | primitive (p : Primitive) : SameKind (.procedure (.primitive p)) (.procedure (.primitive p))
  | closure (k k' : ClosureId) : SameKind (.procedure (.closure k)) (.procedure (.closure k'))
  | other {v v' : Value} (h : ∀ p, v ≠ .procedure p) (h' : ∀ p, v' ≠ .procedure p) : SameKind v v'

/-- Two nodes as expressions: two names, two lists, or two values that stand for themselves. -/
inductive SameShape (named : String → String → Prop) (constant : Prop) : Value → Value → Prop
  | name {a a' : String} (h : named a a') :
      SameShape named constant (.atom (.symbol a)) (.atom (.symbol a'))
  | list (c c' : CellId) : SameShape named constant (.pair c) (.pair c')
  | constant {v v' : Value} (hs : v.symbol? = none) (hs' : v'.symbol? = none)
      (hp : ∀ c, v ≠ .pair c) (hp' : ∀ c, v' ≠ .pair c) (h : constant) :
      SameShape named constant v v'

/-- The relations that every operation of an evaluation keeps, the two sides taking lists apart
by `split` and `split'`. -/
structure Simulation {W : Type} [Preorder W] (R : Likeness W) (split split' : Splitter) :
    Prop where
  span_mono : ∀ {w u s s'}, w ≤ u → R.span w s s' → R.span u s s'
  frame_mono : ∀ {w u f f'}, w ≤ u → R.frame w f f' → R.frame u f f'
  value_mono : ∀ {w u v v'}, w ≤ u → R.value w v v' → R.value u v v'
  code_mono : ∀ {w u r f f' n n'}, w ≤ u → R.code w r f f' n n' → R.code u r f f' n n'
  definition_mono : ∀ {w u f f' ns ns'}, w ≤ u → R.frame w f f' → R.definition w f f' ns ns' →
    R.definition u f f' ns ns'
  held_mono : ∀ {w u h h'}, w ≤ u → R.held w h h' → R.held u h h'
  -- code
  code_span : ∀ {w r f f' n n'}, R.code w r f f' n n' → R.span w n.span n'.span
  expression : ∀ {w f f' n n'}, R.frame w f f' → R.code w .expression f f' n n' →
    SameShape
      (fun a a' => ∀ {m m'}, R.machine w m m' →
        R.Alike w R.value (evalName a f n.span m) (evalName a' f' n'.span m'))
      (R.value w n n') n.value n'.value
  else_iff : ∀ {w f f' n n'}, R.code w .expression f f' n n' →
    (n.value.symbol? = some elseKeyword ↔ n'.value.symbol? = some elseKeyword)
  target : ∀ {w f f' n n'}, R.code w .target f f' n n' → n'.value.symbol? = n.value.symbol?
  /-- a list is taken apart alike, and what is held may hold the items of both -/
  split_alike : ∀ {w r f f' n n' m m'}, R.machine w m m' → R.code w r f f' n n' →
    r.isOpened = true → (r = .expression → ∃ c, n.value = .pair c) →
    (split n m = .ok none m ∧ split' n' m' = .ok none m' ∧
        (r = .expression →
          R.error w (.malformed .improperList n.span) (.malformed .improperList n'.span))) ∨
      ∃ items items', split n m = .ok (some items) m ∧ split' n' m' = .ok (some items') m' ∧
        R.parts w f f' r items items' ∧
        ∀ {h h'}, R.held w h h' → R.held w (refsOf items ++ h) (refsOf items' ++ h')
  -- what is held
  held_value : ∀ {w v v' h h'}, R.value w v v' → R.held w h h' →
    R.held w (v.refs ++ h) (v'.refs ++ h')
  held_frame : ∀ {w f f' h h'}, R.frame w f f' → R.held w h h' →
    R.held w (.frame f :: h) (.frame f' :: h')
  -- values
  isTrue : ∀ {w v v'}, R.value w v v' → v'.value.isTrue = v.value.isTrue
  kind : ∀ {w v v'}, R.value w v v' → SameKind v.value v'.value
  unspecified : ∀ {w s s'}, R.span w s s' → R.value w (.unspecified s) (.unspecified s')
  boolean : ∀ {w s s'} b, R.span w s s' → R.value w (.boolean b s) (.boolean b s')
  symbol : ∀ {w f f' n n' name}, R.code w .target f f' n n' → n.value.symbol? = some name →
    R.value w (.symbol name n.span) (.symbol name n'.span)
  -- errors
  fault : ∀ {w s s'} {fault : Fault}, fault.isPlain = true → R.span w s s' →
    R.error w (.malformed fault s) (.malformed fault s')
  notASymbol : ∀ {w r f f' n n'} form, R.code w r f f' n n' →
    R.error w (.malformed (.notASymbol form n.value) n.span)
      (.malformed (.notASymbol form n'.value) n'.span)
  duplicateBinding : ∀ {w f f' n n' name}, R.code w .target f f' n n' →
    n.value.symbol? = some name →
    R.error w (.malformed (.duplicateBinding name) n.span)
      (.malformed (.duplicateBinding name) n'.span)
  notAProcedure : ∀ {w v v' s s'}, R.value w v v' → R.span w s s' →
    R.error w (.notAProcedure v.value s) (.notAProcedure v'.value s')
  -- operations on the store
  applyPrimitive : ∀ {w v v' p args args' s s' m m'}, R.machine w m m' → R.value w v v' →
    v.value = .procedure (.primitive p) → List.Forall₂ (R.value w) args args' → R.span w s s' →
    R.Alike w R.value (MiniScheme.applyPrimitive p args s m)
      (MiniScheme.applyPrimitive p args' s' m')
  enterClosure : ∀ {w h h' v v' k k' args args' s s' m m'}, R.machine w m m' → R.held w h h' →
    R.value w v v' → v.value = .procedure (.closure k) → v'.value = .procedure (.closure k') →
    List.Forall₂ (R.value w) args args' → R.span w s s' →
    R.Alike w (fun u x x' => R.frame u x.1 x'.1 ∧ R.code u .expression x.1 x'.1 x.2 x'.2)
      (MiniScheme.enterClosure h k args s m) (MiniScheme.enterClosure h' k' args' s' m')
  bindGlobal : ∀ {w f f' n n' e e' name h h' v v' m m'}, R.machine w m m' → R.held w h h' →
    R.frame w f f' → R.code w .target f f' n n' → R.definition w f f' [n, e] [n', e'] →
    n.value.symbol? = some name → R.value w v v' →
    R.Alike w (fun _ _ _ => True) (MiniScheme.bindGlobal h f name v m)
      (MiniScheme.bindGlobal h' f' name v' m')
  assigned : ∀ {w f f' n n'}, R.frame w f f' → R.code w .assigned f f' n n' →
    (n.value.symbol? = none ∧ n'.value.symbol? = none) ∨
      ∃ a a', n.value.symbol? = some a ∧ n'.value.symbol? = some a' ∧
        ∀ {v v' m m'}, R.machine w m m' → R.value w v v' →
          R.Alike w (fun _ _ _ => True) (assignName f a v n.span m)
            (assignName f' a' v' n'.span m')
  lambda : ∀ {w f f' ns ns' s s' m m'}, R.machine w m m' → R.frame w f f' →
    R.abstraction w f f' ns ns' → R.span w s s' →
    R.Alike w R.value (evalLambda split ns f s m) (evalLambda split' ns' f' s' m')
  enclose : ∀ {w h h' f f' es es' m m'}, R.machine w m m' → R.held w h h' → R.frame w f f' →
    List.Forall₂ (R.entry w f f') es es' → (es.map Prod.fst).Nodup →
    LetNames (R.Opened split w) (es.map Prod.fst) →
    R.Alike w
      (fun u g g' => R.frame u g g' ∧
        ∀ {r n n'}, R.code w r f f' n n' → R.code u r g g' n n')
      (EvalM.transform (fun s => s.enclose h f es) m)
      (EvalM.transform (fun s => s.enclose h' f' es') m')

/-! ## Calls -/

namespace Simulation

variable {W : Type} [Preorder W] {R : Likeness W} {split split' : Splitter}
  (sim : Simulation R split split') {ev ev' : Evaluator} {w : W} {f f' : FrameId}
  {h h' : List Ref} {m m' : Machine} {s s' : Span}

include sim

theorem codes_mono {r : Role} {ns ns' : List Node} {u : W} (hw : w ≤ u)
    (hc : List.Forall₂ (R.code w r f f') ns ns') : List.Forall₂ (R.code u r f f') ns ns' :=
  hc.imp fun _ _ => sim.code_mono hw

/-- Takes a list apart on both sides and goes on, knowing how it was taken apart. -/
theorem split_alike_run {γ δ : Type} {P : W → γ → δ → Prop} {r : Role} {n n' : Node}
    {g : Option (List Node) → EvalM γ} {g' : Option (List Node) → EvalM δ}
    (hm : R.machine w m m') (hc : R.code w r f f' n n') (ho : r.isOpened = true)
    (hp : r = .expression → ∃ c, n.value = .pair c)
    (hnone : (r = .expression →
        R.error w (.malformed .improperList n.span) (.malformed .improperList n'.span)) →
      R.Alike w P (g none m) (g' none m'))
    (hsome : ∀ items items', split n m = .ok (some items) m →
      split' n' m' = .ok (some items') m' → R.parts w f f' r items items' →
      (∀ {h h'}, R.held w h h' → R.held w (refsOf items ++ h) (refsOf items' ++ h')) →
      R.Alike w P (g (some items) m) (g' (some items') m')) :
    R.Alike w P ((split n >>= g) m) ((split' n' >>= g') m') := by
  change R.Alike w P (EStateM.bind (split n) g m) (EStateM.bind (split' n') g' m')
  unfold EStateM.bind
  rcases sim.split_alike hm hc ho hp with ⟨hs, hs', he⟩ | ⟨ns, ns', hs, hs', hns, hh⟩
  · rw [hs, hs']
    exact hnone he
  · have hgo := hsome ns ns' hs hs' hns hh
    rw [hs, hs']
    exact hgo

/-- Takes a list apart on both sides and goes on. -/
theorem split_alike_bind {γ δ : Type} {P : W → γ → δ → Prop} {r : Role} {n n' : Node}
    {g : Option (List Node) → EvalM γ} {g' : Option (List Node) → EvalM δ}
    (hm : R.machine w m m') (hc : R.code w r f f' n n') (ho : r.isOpened = true)
    (hp : r = .expression → ∃ c, n.value = .pair c)
    (hnone : (r = .expression →
        R.error w (.malformed .improperList n.span) (.malformed .improperList n'.span)) →
      R.Alike w P (g none m) (g' none m'))
    (hsome : ∀ items items', R.parts w f f' r items items' →
      (∀ {h h'}, R.held w h h' → R.held w (refsOf items ++ h) (refsOf items' ++ h')) →
      R.Alike w P (g (some items) m) (g' (some items') m')) :
    R.Alike w P ((split n >>= g) m) ((split' n' >>= g') m') :=
  sim.split_alike_run hm hc ho hp hnone fun items items' _ _ => hsome items items'

theorem expectSymbol_alike {r : Role} {n n' : Node} (form : Form) (hm : R.machine w m m')
    (hc : R.code w r f f' n n') (hs : n'.value.symbol? = n.value.symbol?) :
    R.Alike w (fun _ a a' => a = a' ∧ n.value.symbol? = some a) (expectSymbol form n m)
      (expectSymbol form n' m') := by
  unfold expectSymbol
  rw [hs]
  cases n.value.symbol? with
  | some name => exact .pure hm ⟨rfl, rfl⟩
  | none => exact .throw hm (sim.notASymbol form hc)

theorem evalOperands_alike (hev : R.Evaluators ev ev') {es es' : List Node}
    (hm : R.machine w m m') (hh : R.held w h h') (hf : R.frame w f f')
    (hc : List.Forall₂ (R.code w .expression f f') es es') :
    R.Alike w (fun u vs vs' => List.Forall₂ (R.value u) vs vs') (evalOperands ev f h es m)
      (evalOperands ev' f' h' es' m') := by
  induction es generalizing es' w m m' h h' with
  | nil =>
    cases hc
    exact .pure hm .nil
  | cons e es ih =>
    obtain _ | ⟨hc, hcs⟩ := hc
    refine .bind (hev hm hh hf hc) fun u v v' m m' hu hm hv => ?_
    refine .bind (ih hm (sim.held_value hv (sim.held_mono hu hh)) (sim.frame_mono hu hf)
      (sim.codes_mono hu hcs)) fun x vs vs' m m' hx hm hvs => ?_
    exact .pure hm (.cons (sim.value_mono hx hv) hvs)

theorem apply_alike (hev : R.Evaluators ev ev') {v v' : Node} {p p' : Procedure}
    {args args' : List Node} (hm : R.machine w m m') (hh : R.held w h h') (hv : R.value w v v')
    (hp : v.value = .procedure p) (hp' : v'.value = .procedure p')
    (ha : List.Forall₂ (R.value w) args args') (hs : R.span w s s') :
    R.Alike w R.value (apply ev h p args s m) (apply ev' h' p' args' s' m') := by
  have hk := sim.kind hv
  rw [hp, hp'] at hk
  cases hk with
  | primitive p => exact sim.applyPrimitive hm hv hp ha hs
  | closure k k' =>
    unfold apply
    refine .bind (sim.enterClosure hm hh hv hp hp' ha hs) fun u x x' m m' hu hm hx => ?_
    exact hev hm (sim.held_frame hx.1 (sim.held_mono hu hh)) hx.1 hx.2
  | other hn => exact absurd rfl (hn p)

theorem evalCall_alike (hev : R.Evaluators ev ev') {o o' : Node} {es es' : List Node}
    (hm : R.machine w m m') (hh : R.held w h h') (hf : R.frame w f f')
    (ho : R.code w .expression f f' o o') (hc : List.Forall₂ (R.code w .expression f f') es es')
    (hs : R.span w s s') :
    R.Alike w R.value (evalCall ev h o es f s m) (evalCall ev' h' o' es' f' s' m') := by
  refine .bind (hev hm hh hf ho) fun u v v' m m' hu hm hv => ?_
  have happly {p p' : Procedure} (hp : v.value = .procedure p) (hp' : v'.value = .procedure p') :
      R.Alike u R.value
        ((evalOperands ev f (p.refs ++ h) es >>= fun args => apply ev (p.refs ++ h) p args s) m)
        ((evalOperands ev' f' (p'.refs ++ h') es' >>= fun args =>
          apply ev' (p'.refs ++ h') p' args s') m') := by
    have hheld := sim.held_value hv (sim.held_mono hu hh)
    simp only [Node.refs, hp, hp', Value.refs] at hheld
    refine .bind (sim.evalOperands_alike hev hm hheld (sim.frame_mono hu hf)
      (sim.codes_mono hu hc)) fun x args args' m m' hx hm ha => ?_
    exact sim.apply_alike hev hm (sim.held_mono hx hheld) (sim.value_mono hx hv) hp hp' ha
      (sim.span_mono (hu.trans hx) hs)
  have herror := sim.notAProcedure hv (sim.span_mono hu (sim.code_span ho))
  have hk := sim.kind hv
  revert happly herror hk
  generalize v.value = x, v'.value = x'
  intro happly herror hk
  cases hk with
  | primitive p => exact happly rfl rfl
  | closure k k' => exact happly rfl rfl
  | other hn hn' =>
    cases x <;> cases x' <;> first
      | exact .throw hm herror
      | exact absurd rfl (hn _)
      | exact absurd rfl (hn' _)

/-! ## Definition and assignment -/

theorem evalDefine_alike (hev : R.Evaluators ev ev') {ns ns' : List Node}
    (hm : R.machine w m m') (hh : R.held w h h') (hf : R.frame w f f')
    (hc : R.operands w f f' .define ns ns') (hd : R.definition w f f' ns ns')
    (hs : R.span w s s') :
    R.Alike w R.value (evalDefine ev h ns f s m) (evalDefine ev' h' ns' f' s' m') := by
  obtain _ | ⟨ht, _ | ⟨he, _ | _⟩⟩ := hc
  · exact .throw hm (sim.fault rfl hs)
  · exact .throw hm (sim.fault rfl hs)
  · refine .bind (sim.expectSymbol_alike .define hm ht (sim.target ht))
      fun u name _ m m' hu hm hname => ?_
    obtain ⟨rfl, hname⟩ := hname
    have hhu := sim.held_mono hu hh
    have hfu := sim.frame_mono hu hf
    refine .bind (hev hm hhu hfu (sim.code_mono hu he)) fun x v v' m m' hx hm hv => ?_
    have htx := sim.code_mono (hu.trans hx) ht
    refine .bind (sim.bindGlobal hm (sim.held_mono hx hhu) (sim.frame_mono hx hfu) htx
      (sim.definition_mono (hu.trans hx) hf hd) hname hv) fun y _ _ m m' hy hm _ => ?_
    exact .pure hm (sim.symbol (sim.code_mono hy htx) hname)
  · exact .throw hm (sim.fault rfl hs)

theorem evalAssign_alike (hev : R.Evaluators ev ev') {ns ns' : List Node}
    (hm : R.machine w m m') (hh : R.held w h h') (hf : R.frame w f f')
    (hc : R.operands w f f' .assign ns ns') (hs : R.span w s s') :
    R.Alike w R.value (evalAssign ev h ns f s m) (evalAssign ev' h' ns' f' s' m') := by
  obtain _ | ⟨ht, _ | ⟨he, _ | _⟩⟩ := hc
  · exact .throw hm (sim.fault rfl hs)
  · exact .throw hm (sim.fault rfl hs)
  · unfold evalAssign expectSymbol
    rcases sim.assigned hf ht with ⟨hn, hn'⟩ | ⟨a, a', ha, ha', -⟩
    · simp only [hn, hn']
      exact .throw hm (sim.notASymbol .assign ht)
    · simp only [ha, ha']
      refine .bind (.pure (Q := fun _ x x' => x = a ∧ x' = a') hm ⟨rfl, rfl⟩)
        fun u _ _ m m' hu hm hx => ?_
      obtain ⟨rfl, rfl⟩ := hx
      refine .bind (hev hm (sim.held_mono hu hh) (sim.frame_mono hu hf) (sim.code_mono hu he))
        fun x v v' m m' hx hm hv => ?_
      have hux := hu.trans hx
      -- the names are the same as before the evaluation of the value
      rcases sim.assigned (sim.frame_mono hux hf) (sim.code_mono hux ht) with
        ⟨hn, -⟩ | ⟨b, b', hb, hb', hassign⟩
      · rw [ha] at hn
        cases hn
      · rw [ha] at hb
        rw [ha'] at hb'
        cases hb
        cases hb'
        refine .bind (hassign hm hv) fun y _ _ m m' hy hm _ => ?_
        exact .pure hm (sim.unspecified (sim.span_mono (hux.trans hy) hs))
  · exact .throw hm (sim.fault rfl hs)

/-! ## Sequences and bindings -/

theorem evalSequence_alike (hev : R.Evaluators ev ev') {last last' : List Ref} {e e' : Node}
    {es es' : List Node} (hm : R.machine w m m') (hh : R.held w h h') (hf : R.frame w f f')
    (hl : R.held w (last ++ h) (last' ++ h')) (he : R.code w .expression f f' e e')
    (hc : List.Forall₂ (R.code w .expression f f') es es') :
    R.Alike w R.value (evalSequence ev h f last e es m)
      (evalSequence ev' h' f' last' e' es' m') := by
  induction es generalizing e e' es' w m m' last last' with
  | nil =>
    cases hc
    exact hev hm hl hf he
  | cons d es ih =>
    obtain _ | ⟨hd, hcs⟩ := hc
    refine .bind (hev hm hl hf he) fun u v v' m m' hu hm hv => ?_
    have hhu := sim.held_mono hu hh
    exact ih hm hhu (sim.frame_mono hu hf) (sim.held_value hv hhu) (sim.code_mono hu hd)
      (sim.codes_mono hu hcs)

theorem evalBindings_alike (hev : R.Evaluators ev ev') {before : List String}
    {bs bs' : List Node} (hm : R.machine w m m') (hh : R.held w h h') (hf : R.frame w f f')
    (hc : List.Forall₂ (R.code w .binding f f') bs bs') :
    R.Alike w (fun u es es' => List.Forall₂ (R.entry u f f') es es' ∧
        ((es.map Prod.fst).Nodup ∧ ∀ name ∈ es.map Prod.fst, name ∉ before) ∧
        List.Forall₂ (fun item name => ∃ target e, R.Opened split u .binding item [target, e] ∧
          target.value.symbol? = some name) bs (es.map Prod.fst))
      (evalBindings split ev f h before bs m) (evalBindings split' ev' f' h' before bs' m') := by
  induction bs generalizing bs' w m m' h h' before with
  | nil =>
    cases hc
    exact .pure hm ⟨.nil, ⟨.nil, nofun⟩, .nil⟩
  | cons b bs ih =>
    obtain _ | ⟨hb, hbs⟩ := hc
    unfold evalBindings
    have hspan := sim.code_span hb
    refine sim.split_alike_run hm hb rfl nofun
      (fun _ => .throw hm (sim.fault rfl hspan)) fun items items' hsplit _ hi hheld => ?_
    have hopened : R.Opened split w .binding b items := ⟨w, f, f', _, m, m', le_rfl, hm, hb, hsplit⟩
    obtain _ | ⟨ht, _ | ⟨he, _ | _⟩⟩ := hi
    · exact .throw hm (sim.fault rfl hspan)
    · exact .throw hm (sim.fault rfl hspan)
    · refine .bind (sim.expectSymbol_alike .bind hm ht (sim.target ht))
        fun u name _ m m' hu hm hname => ?_
      obtain ⟨rfl, hname⟩ := hname
      have htu := sim.code_mono hu ht
      by_cases hb : before.contains name = true
      · rw [if_pos hb, if_pos hb]
        exact .throw hm (sim.duplicateBinding htu hname)
      · rw [if_neg hb, if_neg hb]
        refine .bind (hev hm (sim.held_mono hu (hheld hh)) (sim.frame_mono hu hf)
          (sim.code_mono hu he)) fun x v v' m m' hx hm hv => ?_
        have hux := hu.trans hx
        refine .bind (ih hm (sim.held_value hv (sim.held_mono hux hh)) (sim.frame_mono hux hf)
          (sim.codes_mono hux hbs)) fun y es es' m m' hy hm ⟨hes, ⟨hnodup, hfresh⟩, hnames⟩ => ?_
        have hnew : name ∉ es.map Prod.fst := fun hmem => hfresh name hmem List.mem_cons_self
        refine .pure hm ⟨.cons ⟨rfl, sim.value_mono hy hv, _, _, sim.code_mono (hx.trans hy) htu,
          hname⟩ hes, ⟨List.nodup_cons.2 ⟨hnew, hnodup⟩, ?_⟩,
          .cons ⟨_, _, hopened.mono (hux.trans hy), hname⟩ hnames⟩
        refine List.forall_mem_cons.2 ⟨by simpa using hb, fun other hmem hbefore => ?_⟩
        exact hfresh other hmem (List.mem_cons_of_mem name hbefore)
    · exact .throw hm (sim.fault rfl hspan)

theorem evalBind_alike (hev : R.Evaluators ev ev') {n head : Node} {ns ns' : List Node}
    (hm : R.machine w m m') (hh : R.held w h h') (hf : R.frame w f f')
    (hc : R.operands w f f' .bind ns ns') (ho : R.Opened split w .expression n (head :: ns))
    (hhead : Likeness.formOf head = some .bind) (hs : R.span w s s') :
    R.Alike w R.value (evalBind split ev h ns f s m) (evalBind split' ev' h' ns' f' s' m') := by
  obtain _ | ⟨hb, _ | ⟨he, hes⟩⟩ := hc
  · exact .throw hm (sim.fault rfl hs)
  · exact .throw hm (sim.fault rfl hs)
  · unfold evalBind
    refine sim.split_alike_run hm hb rfl nofun
      (fun _ => .throw hm (sim.fault rfl (sim.code_span hb)))
      fun items items' hsplit _ hi hheld => ?_
    have hopened : R.Opened split w .bindings _ items :=
      ⟨w, f, f', _, m, m', le_rfl, hm, hb, hsplit⟩
    refine .bind (sim.evalBindings_alike hev hm (hheld hh) hf hi)
      fun u es es' m m' hu hm ⟨hentries, ⟨hnodup, _⟩, hnames⟩ => ?_
    refine .bind (sim.enclose hm (sim.held_mono hu (hheld hh)) (sim.frame_mono hu hf) hentries
      hnodup ⟨n, head, _, _, items, ho.mono hu, hhead, hopened.mono hu, hnames⟩)
      fun x g g' m m' hx hm ⟨hg, hcode⟩ => ?_
    have hheldx := sim.held_frame hg (sim.held_mono (hu.trans hx) (hheld hh))
    exact sim.evalSequence_alike hev hm hheldx hg hheldx (hcode (sim.code_mono hu he))
      ((sim.codes_mono hu hes).imp fun _ _ => hcode)

/-! ## Choice -/

theorem evalConditional_alike (hev : R.Evaluators ev ev') {ns ns' : List Node}
    (hm : R.machine w m m') (hh : R.held w h h') (hf : R.frame w f f')
    (hc : R.operands w f f' .conditional ns ns') (hs : R.span w s s') :
    R.Alike w R.value (evalConditional ev h ns f s m) (evalConditional ev' h' ns' f' s' m') := by
  obtain _ | ⟨hc, _ | ⟨ht, _ | ⟨ha, _ | _⟩⟩⟩ := hc
  · exact .throw hm (sim.fault rfl hs)
  · exact .throw hm (sim.fault rfl hs)
  · refine .bind (hev hm hh hf hc) fun u v v' m m' hu hm hv => ?_
    rw [sim.isTrue hv]
    cases v.value.isTrue with
    | true => exact hev hm (sim.held_mono hu hh) (sim.frame_mono hu hf) (sim.code_mono hu ht)
    | false => exact .pure hm (sim.unspecified (sim.span_mono hu hs))
  · refine .bind (hev hm hh hf hc) fun u v v' m m' hu hm hv => ?_
    rw [sim.isTrue hv]
    cases v.value.isTrue with
    | true => exact hev hm (sim.held_mono hu hh) (sim.frame_mono hu hf) (sim.code_mono hu ht)
    | false => exact hev hm (sim.held_mono hu hh) (sim.frame_mono hu hf) (sim.code_mono hu ha)
  · exact .throw hm (sim.fault rfl hs)

theorem evalClauseBody_alike (hev : R.Evaluators ev ev') {v v' : Node} {ns ns' : List Node}
    (hm : R.machine w m m') (hh : R.held w h h') (hf : R.frame w f f') (hv : R.value w v v')
    (hc : List.Forall₂ (R.code w .expression f f') ns ns') :
    R.Alike w R.value (evalClauseBody ev h f v ns m) (evalClauseBody ev' h' f' v' ns' m') := by
  obtain _ | ⟨he, hes⟩ := hc
  · exact .pure hm hv
  · have hheld := sim.held_value hv hh
    exact sim.evalSequence_alike hev hm hheld hf hheld he hes

theorem evalClauses_alike (hev : R.Evaluators ev ev') {ns ns' : List Node}
    (hm : R.machine w m m') (hh : R.held w h h') (hf : R.frame w f f')
    (hc : List.Forall₂ (R.code w .clause f f') ns ns') (hs : R.span w s s') :
    R.Alike w R.value (evalClauses split ev h f s ns m)
      (evalClauses split' ev' h' f' s' ns' m') := by
  induction ns generalizing ns' w m m' with
  | nil =>
    cases hc
    exact .pure hm (sim.unspecified hs)
  | cons n ns ih =>
    obtain _ | ⟨hn, hns⟩ := hc
    unfold evalClauses
    have hspan := sim.code_span hn
    refine sim.split_alike_bind hm hn rfl nofun
      (fun _ => .throw hm (sim.fault rfl hspan)) fun items items' hi hheld => ?_
    obtain _ | ⟨ht, hbody⟩ := hi
    · exact .throw hm (sim.fault rfl hspan)
    · rename_i test test' body body'
      have hin := hheld hh
      by_cases helse : test.value.symbol? = some elseKeyword
      · simp only [if_pos helse, if_pos ((sim.else_iff ht).1 helse)]
        obtain _ | ⟨hn, hns⟩ := hns
        · obtain _ | ⟨he, hes⟩ := hbody
          · exact .throw hm (sim.fault rfl hspan)
          · exact sim.evalSequence_alike hev hm hin hf hin he hes
        · exact .throw hm (sim.fault rfl hspan)
      · have helse' : test'.value.symbol? ≠ some elseKeyword :=
          fun he => helse ((sim.else_iff ht).2 he)
        simp only [if_neg helse, if_neg helse']
        refine .bind (hev hm hin hf ht) fun u v v' m m' hu hm hv => ?_
        rw [sim.isTrue hv]
        have hfu := sim.frame_mono hu hf
        cases v.value.isTrue with
        | true =>
          exact sim.evalClauseBody_alike hev hm (sim.held_mono hu hin) hfu hv
            (sim.codes_mono hu hbody)
        | false =>
          exact ih hm (sim.held_mono hu hh) hfu (sim.codes_mono hu hns) (sim.span_mono hu hs)

theorem evalConjunction_alike (hev : R.Evaluators ev ev') {last last' : Node}
    {ns ns' : List Node} (hm : R.machine w m m') (hh : R.held w h h') (hf : R.frame w f f')
    (hl : R.value w last last') (hc : List.Forall₂ (R.code w .expression f f') ns ns') :
    R.Alike w R.value (evalConjunction ev h f last ns m)
      (evalConjunction ev' h' f' last' ns' m') := by
  induction ns generalizing ns' w m m' last last' with
  | nil =>
    cases hc
    exact .pure hm hl
  | cons n ns ih =>
    obtain _ | ⟨hn, hns⟩ := hc
    refine .bind (hev hm (sim.held_value hl hh) hf hn) fun u v v' m m' hu hm hv => ?_
    rw [sim.isTrue hv]
    cases v.value.isTrue with
    | true => exact ih hm (sim.held_mono hu hh) (sim.frame_mono hu hf) hv (sim.codes_mono hu hns)
    | false => exact .pure hm hv

theorem evalDisjunction_alike (hev : R.Evaluators ev ev') {ns ns' : List Node}
    (hm : R.machine w m m') (hh : R.held w h h') (hf : R.frame w f f')
    (hc : List.Forall₂ (R.code w .expression f f') ns ns') (hs : R.span w s s') :
    R.Alike w R.value (evalDisjunction ev h f s ns m)
      (evalDisjunction ev' h' f' s' ns' m') := by
  induction ns generalizing ns' w m m' with
  | nil =>
    cases hc
    exact .pure hm (sim.boolean false hs)
  | cons n ns ih =>
    obtain _ | ⟨hn, hns⟩ := hc
    refine .bind (hev hm hh hf hn) fun u v v' m m' hu hm hv => ?_
    rw [sim.isTrue hv]
    cases v.value.isTrue with
    | true => exact .pure hm hv
    | false =>
      exact ih hm (sim.held_mono hu hh) (sim.frame_mono hu hf) (sim.codes_mono hu hns)
        (sim.span_mono hu hs)

/-! ## One level -/

theorem evalForm_alike (hev : R.Evaluators ev ev') {form : Form} {n head : Node}
    {ns ns' : List Node} (hm : R.machine w m m') (hh : R.held w h h') (hf : R.frame w f f')
    (hc : R.operands w f f' form ns ns') (ho : R.Opened split w .expression n (head :: ns))
    (hhead : Likeness.formOf head = some form)
    (hd : form = .define → R.definition w f f' ns ns') (hs : R.span w s s') :
    R.Alike w R.value (evalForm split ev h form ns f s m)
      (evalForm split' ev' h' form ns' f' s' m') := by
  cases form with
  | quote =>
    obtain _ | ⟨hv, _ | _⟩ := hc
    · exact .throw hm (sim.fault rfl hs)
    · exact .pure hm hv
    · exact .throw hm (sim.fault rfl hs)
  | conditional => exact sim.evalConditional_alike hev hm hh hf hc hs
  | define => exact sim.evalDefine_alike hev hm hh hf hc (hd rfl) hs
  | assign => exact sim.evalAssign_alike hev hm hh hf hc hs
  | lambda => exact sim.lambda hm hf hc hs
  | bind => exact sim.evalBind_alike hev hm hh hf hc ho hhead hs
  | sequence =>
    obtain _ | ⟨he, hes⟩ := hc
    · exact .throw hm (sim.fault rfl hs)
    · exact sim.evalSequence_alike hev hm hh hf hh he hes
  | clauses =>
    obtain _ | ⟨hn, hns⟩ := hc
    · exact .throw hm (sim.fault rfl hs)
    · exact sim.evalClauses_alike hev hm hh hf (.cons hn hns) hs
  | conjunction => exact sim.evalConjunction_alike hev hm hh hf (sim.boolean true hs) hc
  | disjunction => exact sim.evalDisjunction_alike hev hm hh hf hc hs

/-- **One evaluation, one level more.** What is to be known of `define` forms has to be known of
this one. -/
theorem step_alike_at (hev : R.Evaluators ev ev') {n n' : Node} (hm : R.machine w m m')
    (hh : R.held w h h') (hf : R.frame w f f') (hc : R.code w .expression f f' n n')
    (hd : ∀ {head head' ns ns'}, split n m = .ok (some (head :: ns)) m →
      split' n' m' = .ok (some (head' :: ns')) m' → Likeness.formOf head = some .define →
      R.definition w f f' ns ns') :
    R.Alike w R.value (step split ev h n f m) (step split' ev' h' n' f' m') := by
  have hshape := sim.expression hf hc
  obtain ⟨v, s⟩ := n
  obtain ⟨v', s'⟩ := n'
  unfold step
  cases hshape with
  | name hname => exact hname hm
  | list c c' =>
    refine sim.split_alike_run hm hc rfl (fun _ => ⟨c, rfl⟩)
      (fun he => .throw hm (he rfl)) fun items items' hsplit hsplit' hi hheld => ?_
    match items, items', hi with
    | head :: ns, head' :: ns', hi =>
      have hdef := hd hsplit hsplit'
      have hopened : R.Opened split w .expression ⟨.pair c, s⟩ (head :: ns) :=
        ⟨w, f, f', _, m, m', le_rfl, hm, hc, hsplit⟩
      obtain ⟨hform, hi⟩ := hi
      have hin := hheld hh
      have hspan := sim.code_span hc
      simp only [Likeness.formOf] at hform hi hdef
      simp only [hform]
      revert hdef hi
      generalize hhead : head.value.symbol?.bind Form.ofKeyword? = form
      intro hdef hi
      cases form with
      | some form =>
        exact sim.evalForm_alike hev hm hin hf hi hopened hhead (fun he => hdef (he ▸ rfl)) hspan
      | none =>
        cases hi with
        | cons ho hes => exact sim.evalCall_alike hev hm hin hf ho hes hspan
  | constant hs hs' hp hp' hv =>
    have hl := step_of_constant split ev h (n := ⟨v, s⟩) f hs hp
    have hr := step_of_constant split' ev' h' (n := ⟨v', s'⟩) f' hs' hp'
    unfold step at hl hr
    rw [hl, hr]
    exact .pure hm hv

/-- **One level of evaluation.** If two evaluators are alike then so are the evaluators of one
level more. -/
theorem step_alike (hd : ∀ {w f f' ns ns'}, R.definition w f f' ns ns')
    (hev : R.Evaluators ev ev') : R.Evaluators (step split ev) (step split' ev') :=
  fun _ _ _ _ _ _ _ _ _ hm hh hf hc => sim.step_alike_at hev hm hh hf hc fun _ _ _ => hd

end Simulation

end MiniScheme
