import Mathlib.Logic.Relation
import MiniScheme.Proofs.Operations

/-!
# Evaluation step by step

`eval` calls itself, so what an evaluation has computed and still needs is not to be seen from
outside. Here the same evaluation is a sequence of steps on a state with a stack. For each form that
waits for the value of one of its parts there is a level on the stack, with what is to be done with
the value and with everything that the form holds on to meanwhile. So at every moment of a run the
stack has all pending results.

* `Wait` is what is done with a value, `Wait.items` what is held until it is there.
* `State.next?` is one step.

## Results

* `steps_eval`: `eval` does what the steps do, and what it is told to be held is what the levels of
  the stack hold.
-/

namespace MiniScheme

/-! ## States -/

/-- Something that a waiting form holds on to. -/
inductive Item where
  /-- a value that it has computed -/
  | value (v : Value)
  /-- a part of its code -/
  | code (n : Node)
  /-- a frame that it evaluates in -/
  | scope (f : FrameId)
deriving DecidableEq

/-- The objects that an item holds on to. -/
def Item.refs : Item → List Ref
  | value v => v.refs
  | code n => n.refs
  | scope f => [.frame f]

/-- What a form does with the value that it waits for. -/
inductive Wait where
  /-- it is the value of the form -/
  | pass (items : List Item)
  /-- it is the procedure to call -/
  | operator (place : Span) (operands : List Node)
  /-- it is the next argument; those before it are in `args`, the newest first -/
  | operand (p : Procedure) (args rest : List Node)
  /-- it is bound to a name in the global frame -/
  | define (target : Node) (name : String)
  /-- it replaces the value of a name -/
  | assign (target : Node) (name : String)
  /-- it decides what is evaluated -/
  | condition (consequent : Node) (alternate : Option Node)
  /-- it is held while the next expression is evaluated, as `last` is now -/
  | sequence (frame : FrameId) (base : List Item) (last : Option Node) (next : Node)
      (rest : List Node)
  /-- it is the value of the next name of a `let`; `entries` are those before it, the newest
  first -/
  | binding (nodes : List Node) (target e : Node) (entries : List (String × Node)) (name : String)
      (rest : List Node) (first : Node) (more : List Node)
  /-- it decides whether a clause is taken -/
  | test (test : Node) (body rest : List Node)
  /-- it is the value of an `and` if it is false or the last one -/
  | conjunct (last : Node) (rest : List Node)
  /-- it is the value of an `or` if it is true -/
  | disjunct (rest : List Node)

/-- The value before, if there is one. -/
def lastItems (last : Option Node) : List Item := last.toList.map fun n => .value n.value

/-- What is held on to, besides the form itself, until the value is there. -/
def Wait.items : Wait → List Item
  | pass items => items
  | operand p args _ => args.map (fun n => .value n.value) ++ [.value (.procedure p)]
  | sequence _ base last _ _ => lastItems last ++ base
  | binding nodes target e entries _ _ _ _ =>
    .code target :: .code e :: (entries.map (fun entry => .value entry.2.value) ++ nodes.map .code)
  | test t body _ => (t :: body).map .code
  | conjunct last _ => [.value last.value]
  | operator _ _ | define _ _ | assign _ _ | condition _ _ | disjunct _ => []

/-- A form that is being evaluated: its parts, the range and the frame it stands in, and the levels
of nesting that are left for its parts. -/
structure Site where
  form : List Node
  span : Span
  frame : FrameId
  room : Nat

/-- A form that waits for a value. -/
structure Level where
  site : Site
  wait : Wait

/-- Everything that a waiting form holds on to. -/
def Level.items (l : Level) : List Item := l.wait.items ++ l.site.form.map .code

/-- The objects that a waiting form holds on to. -/
def Level.held (l : Level) : List Ref := l.items.flatMap Item.refs

/-- The objects that several waiting forms hold on to. -/
def heldBy (stack : List Level) : List Ref := stack.flatMap Level.held

/-- The objects that are held at a form that does not wait, `outside` being held besides what the
levels of the stack hold. -/
def Site.held (outside : List Ref) (c : Site) (stack : List Level) : List Ref :=
  refsOf c.form ++ (heldBy stack ++ outside)

/-- What is to be done next. -/
inductive Control where
  | evaluate (room : Nat) (node : Node) (frame : FrameId)
  | yield (v : Node)
  | fail (e : EvalError)

/-- An evaluation at some moment. -/
structure State where
  control : Control
  stack : List Level
  machine : Machine

namespace State

/-- The evaluation has failed; nothing waits any more. -/
def failed (e : EvalError) (m : Machine) : State := ⟨.fail e, [], m⟩

/-- The end of a computation: its value goes to the innermost waiting form. -/
def finish (stack : List Level) : EStateM.Result EvalError Machine Node → State
  | .ok v m => ⟨.yield v, stack, m⟩
  | .error e m => failed e m

end State

/-! ## Steps -/

namespace Site

variable (c : Site) (outside : List Ref) (stack : List Level) (m : Machine)

/-- Has a part evaluated and waits for its value. -/
def await (wait : Wait) (e : Node) (frame : FrameId) : State :=
  ⟨.evaluate c.room e frame, ⟨c, wait⟩ :: stack, m⟩

/-- Goes on with a call: the next operand, or the procedure. The arguments so far are in `args`, the
newest first. -/
def call (p : Procedure) (args : List Node) : List Node → State
  | e :: es => c.await stack m (.operand p args es) e c.frame
  | [] =>
    match p with
    | .primitive q => State.finish stack (applyPrimitive q args.reverse c.span m)
    | .closure k =>
      match enterClosure ((Procedure.closure k).refs ++ c.held outside stack) k args.reverse c.span
        m with
      | .ok (inner, body) m =>
        c.await stack m (.pass [.scope inner, .value (.procedure (.closure k))]) body inner
      | .error e m => State.failed e m

/-- Goes on with a sequence, `base` being held all along. -/
def sequence (frame : FrameId) (base : List Item) (last : Option Node) (e : Node) :
    List Node → State
  | [] => c.await stack m (.pass (lastItems last ++ base)) e frame
  | next :: rest => c.await stack m (.sequence frame base last next rest) e frame

/-- Goes on with the bindings of a `let`, the newest entry first, and then with its body. -/
def bindings (nodes : List Node) (entries : List (String × Node)) (first : Node)
    (more : List Node) : List Node → State
  | [] =>
    let (inner, s) := m.store.enclose (refsOf nodes ++ c.held outside stack) c.frame entries.reverse
    c.sequence stack { m with store := s } inner (.scope inner :: nodes.map .code) none first more
  | b :: rest =>
    match m.store.elements? b.value with
    | some [target, e] =>
      match target.value.symbol? with
      | some name =>
        if (entries.map Prod.fst).contains name then
          State.failed (.malformed (.duplicateBinding name) target.span) m
        else c.await stack m (.binding nodes target e entries name rest first more) e c.frame
      | none => State.failed (.malformed (.notASymbol .bind target.value) target.span) m
    | _ => State.failed (.malformed .bindingShape b.span) m

/-- Goes on with the clauses of a `cond`. -/
def clauses : List Node → State
  | [] => ⟨.yield (.unspecified c.span), stack, m⟩
  | clause :: rest =>
    match m.store.elements? clause.value with
    | some (test :: body) =>
      if test.value.symbol? = some elseKeyword then
        match rest, body with
        | [], e :: es => c.sequence stack m c.frame ((test :: body).map .code) none e es
        | _, _ => State.failed (.malformed .misplacedElse clause.span) m
      else c.await stack m (.test test body rest) test c.frame
    | _ => State.failed (.malformed .clauseShape clause.span) m

/-- Goes on with an `and`. -/
def conjunction (last : Node) : List Node → State
  | [] => ⟨.yield last, stack, m⟩
  | e :: es => c.await stack m (.conjunct last es) e c.frame

/-- Goes on with an `or`. -/
def disjunction : List Node → State
  | [] => ⟨.yield (.boolean false c.span), stack, m⟩
  | e :: es => c.await stack m (.disjunct es) e c.frame

/-- Starts on a special form that is for a name and a value. -/
def named (form : Form) (wait : Node → String → Wait) : List Node → State
  | [target, e] =>
    match target.value.symbol? with
    | some name => c.await stack m (wait target name) e c.frame
    | none => State.failed (.malformed (.notASymbol form target.value) target.span) m
  | _ => State.failed (.malformed (.nameAndValue form) c.span) m

/-- Starts on a special form. -/
def start (form : Form) (operands : List Node) : State :=
  match form with
  | .quote =>
    match operands with
    | [node] => ⟨.yield node, stack, m⟩
    | _ => State.failed (.malformed .quoteOperands c.span) m
  | .conditional =>
    match operands with
    | [condition, consequent] =>
      c.await stack m (.condition consequent none) condition c.frame
    | [condition, consequent, alternate] =>
      c.await stack m (.condition consequent (some alternate)) condition c.frame
    | _ => State.failed (.malformed .conditionalOperands c.span) m
  | .define => c.named stack m .define .define operands
  | .assign => c.named stack m .assign .assign operands
  | .lambda => State.finish stack (evalLambda elements? operands c.frame c.span m)
  | .bind =>
    match operands with
    | [] => State.failed (.malformed .bindOperands c.span) m
    | [_] => State.failed (.malformed .bindBody c.span) m
    | bindings :: first :: more =>
      match m.store.elements? bindings.value with
      | some nodes => c.bindings outside stack m nodes [] first more nodes
      | none => State.failed (.malformed .bindingList bindings.span) m
  | .sequence =>
    match operands with
    | [] => State.failed (.malformed .sequenceEmpty c.span) m
    | e :: es => c.sequence stack m c.frame [] none e es
  | .clauses =>
    if operands.isEmpty then State.failed (.malformed .clausesEmpty c.span) m
    else c.clauses stack m operands
  | .conjunction => c.conjunction stack m (.boolean true c.span) operands
  | .disjunction => c.disjunction stack m operands

end Site

/-- Goes on with a form once the value is there that it has waited for. Besides the levels of the
stack, `outside` is held. -/
def Level.resume (outside : List Ref) (l : Level) (stack : List Level) (m : Machine) (v : Node) :
    State :=
  match l.wait with
  | .pass _ => ⟨.yield v, stack, m⟩
  | .operator place operands =>
    match v.value with
    | .procedure p => l.site.call outside stack m p [] operands
    | found => State.failed (.notAProcedure found place) m
  | .operand p args rest => l.site.call outside stack m p (v :: args) rest
  | .define target name =>
    State.finish stack ((do
      bindGlobal (l.site.held outside stack) l.site.frame name v
      return .symbol name target.span : EvalM Node) m)
  | .assign target name =>
    State.finish stack ((do
      assignName l.site.frame name v target.span
      return .unspecified l.site.span : EvalM Node) m)
  | .condition consequent alternate =>
    if v.value.isTrue then l.site.await stack m (.pass []) consequent l.site.frame
    else
      match alternate with
      | some alternate => l.site.await stack m (.pass []) alternate l.site.frame
      | none => ⟨.yield (.unspecified l.site.span), stack, m⟩
  | .sequence frame base _ next rest => l.site.sequence stack m frame base (some v) next rest
  | .binding nodes _ _ entries name rest first more =>
    l.site.bindings outside stack m nodes ((name, v) :: entries) first more rest
  | .test test body rest =>
    if v.value.isTrue then
      match body with
      | [] => ⟨.yield v, stack, m⟩
      | e :: es =>
        l.site.sequence stack m l.site.frame (.value v.value :: (test :: body).map .code) none e es
    else l.site.clauses stack m rest
  | .conjunct _ rest =>
    if v.value.isTrue then l.site.conjunction stack m v rest else ⟨.yield v, stack, m⟩
  | .disjunct rest =>
    if v.value.isTrue then ⟨.yield v, stack, m⟩ else l.site.disjunction stack m rest

/-- Starts on the evaluation of a node with `room` levels of nesting left for its parts. -/
def State.begin (outside : List Ref) (room : Nat) (node : Node) (frame : FrameId)
    (stack : List Level) (m : Machine) : State :=
  match node.value with
  | .atom (.symbol name) => finish stack (evalName name frame node.span m)
  | .pair _ =>
    match m.store.elements? node.value with
    | some (head :: operands) =>
      let c : Site := ⟨head :: operands, node.span, frame, room⟩
      match head.value.symbol?.bind Form.ofKeyword? with
      | some form => c.start outside stack m form operands
      | none => c.await stack m (.operator head.span operands) head frame
    | _ => failed (.malformed .improperList node.span) m
  | _ => ⟨.yield node, stack, m⟩

/-- One step, while `outside` is held besides what the levels of the stack hold. There is none after
a failure, nor when the value is there and nothing waits for it. -/
def State.next? (limit : Nat) (outside : List Ref) (σ : State) : Option State :=
  match σ.control with
  | .evaluate 0 node frame =>
    some (finish σ.stack (stop limit (heldBy σ.stack ++ outside) node frame σ.machine))
  | .evaluate (room + 1) node frame => some (begin outside room node frame σ.stack σ.machine)
  | .yield v =>
    match σ.stack with
    | [] => none
    | l :: stack => some (l.resume outside stack σ.machine v)
  | .fail _ => none

/-- Any number of steps. -/
def State.Steps (limit : Nat) (outside : List Ref) : State → State → Prop :=
  Relation.ReflTransGen fun σ τ => σ.next? limit outside = some τ

/-! ## What the steps compute -/

open State

theorem refs_codes (nodes : List Node) :
    (nodes.map Item.code).flatMap Item.refs = refsOf nodes := by
  rw [List.flatMap_map]
  rfl

theorem refs_values (nodes : List Node) :
    (nodes.map fun n => Item.value n.value).flatMap Item.refs = refsOf nodes := by
  rw [List.flatMap_map]
  rfl

/-- A computation is finished when what comes after its first part is. -/
theorem State.finish_bind {α : Type} (stack : List Level) (x : EvalM α) (g : α → EvalM Node)
    (m : Machine) :
    finish stack ((x >>= g) m) =
      match x m with
      | .ok a m' => finish stack (g a m')
      | .error e m' => failed e m' := by
  change finish stack (EStateM.bind x g m) = _
  unfold EStateM.bind
  cases x m with
  | ok a m' => rfl
  | error e m' => rfl

section

variable {limit : Nat} {outside : List Ref} {c : Site} {stack : List Level} {m : Machine}

/-- What is held while a form waits. -/
theorem heldBy_cons (wait : Wait) : heldBy (⟨c, wait⟩ :: stack) ++ outside =
    wait.items.flatMap Item.refs ++ c.held outside stack := by
  simp only [heldBy, List.flatMap_cons, Level.held, Level.items, List.flatMap_append, refs_codes,
    List.append_assoc, Site.held]

/-- The evaluator of the level below does what the steps do. -/
def Follows (limit : Nat) (outside : List Ref) (room : Nat) (ev : Evaluator) : Prop :=
  ∀ stack node frame m, Steps limit outside ⟨.evaluate room node frame, stack, m⟩
    (finish stack (ev (heldBy stack ++ outside) node frame m))

variable {ev : Evaluator} (hev : Follows limit outside c.room ev)

include hev

/-- **Waiting for a value and going on with it.** -/
theorem steps_await {wait : Wait} {e : Node} {frame : FrameId} {held : List Ref}
    {g : Node → EvalM Node} (hheld : wait.items.flatMap Item.refs ++ c.held outside stack = held)
    (hg : ∀ v m', Steps limit outside (Level.resume outside ⟨c, wait⟩ stack m' v)
      (finish stack (g v m'))) :
    Steps limit outside (c.await stack m wait e frame)
      (finish stack ((ev held e frame >>= g) m)) := by
  have hrun := hev (⟨c, wait⟩ :: stack) e frame m
  rw [heldBy_cons, hheld] at hrun
  rw [finish_bind]
  cases hr : ev held e frame m with
  | ok v m' =>
    rw [hr] at hrun
    exact hrun.trans (.head rfl (hg v m'))
  | error e m' =>
    rw [hr] at hrun
    exact hrun

/-- The value of the part is the value of the form. -/
theorem steps_pass {items : List Item} {e : Node} {frame : FrameId} {held : List Ref}
    (hheld : items.flatMap Item.refs ++ c.held outside stack = held) :
    Steps limit outside (c.await stack m (.pass items) e frame)
      (finish stack (ev held e frame m)) := by
  have hbind : Steps limit outside (c.await stack m (.pass items) e frame)
      (finish stack ((ev held e frame >>= pure) m)) := steps_await hev hheld fun v m' => .refl
  rwa [bind_pure] at hbind

theorem steps_call (p : Procedure) (args rest : List Node) :
    Steps limit outside (c.call outside stack m p args rest) (finish stack
      ((evalOperands ev c.frame (refsOf args ++ (p.refs ++ c.held outside stack)) rest >>= fun vs =>
        apply ev (p.refs ++ c.held outside stack) p (args.reverse ++ vs) c.span) m)) := by
  induction rest generalizing args m with
  | nil =>
    simp only [evalOperands, pure_bind, List.append_nil]
    cases p with
    | primitive q => exact .refl
    | closure k =>
      simp only [Site.call, apply, finish_bind]
      cases enterClosure _ k args.reverse c.span m with
      | error e m' => exact .refl
      | ok x m' => exact steps_pass hev rfl
  | cons e es ih =>
    simp only [evalOperands, bind_assoc, pure_bind]
    refine steps_await hev ?_ fun v m' => ?_
    · simp [Wait.items, refs_values, Item.refs, Value.refs]
    · have hrest := ih (m := m') (v :: args)
      simp only [List.reverse_cons, List.append_assoc, List.singleton_append, refsOf_cons] at hrest
      exact hrest

theorem steps_sequence (frame : FrameId) (base : List Item) (last : Option Node) (e : Node)
    (es : List Node) :
    Steps limit outside (c.sequence stack m frame base last e es) (finish stack
      (evalSequence ev (base.flatMap Item.refs ++ c.held outside stack) frame
        (refsOf last.toList) e es m)) := by
  have hitems (last : Option Node) :
      (lastItems last ++ base).flatMap Item.refs ++ c.held outside stack =
      refsOf last.toList ++ (base.flatMap Item.refs ++ c.held outside stack) := by
    rw [List.flatMap_append, lastItems, refs_values, List.append_assoc]
  induction es generalizing last e m with
  | nil => exact steps_pass hev (hitems last)
  | cons next rest ih =>
    refine steps_await hev (hitems last) fun v m' => ?_
    have hrest := ih (m := m') (some v) next
    rw [show refsOf (some v).toList = v.refs from List.append_nil _] at hrest
    exact hrest

theorem steps_bindings {nodes : List Node} {first : Node} {more : List Node}
    {g : List (String × Node) → EvalM Node}
    (hg : ∀ entries m, Steps limit outside (c.bindings outside stack m nodes entries first more [])
      (finish stack (g entries.reverse m)))
    (entries : List (String × Node)) (rest : List Node) :
    Steps limit outside (c.bindings outside stack m nodes entries first more rest) (finish stack
      ((evalBindings elements? ev c.frame (refsOf (entries.map Prod.snd) ++
          (refsOf nodes ++ c.held outside stack)) (entries.map Prod.fst) rest >>= fun es =>
        g (entries.reverse ++ es)) m)) := by
  induction rest generalizing entries m with
  | nil =>
    simp only [evalBindings, pure_bind, List.append_nil]
    exact hg entries m
  | cons b rest ih =>
    rw [evalBindings, bind_assoc, finish_bind, elements?_run]
    simp only [Site.bindings]
    rcases m.store.elements? b.value with _ | _ | ⟨target, _ | ⟨e, _ | _⟩⟩
    · exact .refl
    · exact .refl
    · exact .refl
    · simp only [expectSymbol]
      cases target.value.symbol? with
      | none => exact .refl
      | some name =>
        simp only [pure_bind]
        split
        · exact .refl
        · simp only [bind_assoc, pure_bind]
          refine steps_await hev ?_ fun v m' => ?_
          · simp only [Wait.items, List.flatMap_cons, List.flatMap_append, refs_codes, Item.refs,
              refsOf_cons, List.append_assoc]
            have hvalues := refs_values (entries.map Prod.snd)
            rw [List.map_map] at hvalues
            rw [← hvalues]
            rfl
          · have hrest := ih (m := m') ((name, v) :: entries)
            simp only [List.reverse_cons, List.append_assoc, List.singleton_append, List.map_cons,
              refsOf_cons] at hrest
            exact hrest
    · exact .refl

theorem steps_clauses (rest : List Node) :
    Steps limit outside (c.clauses stack m rest) (finish stack
      (evalClauses elements? ev (c.held outside stack) c.frame c.span rest m)) := by
  induction rest generalizing m with
  | nil => exact .refl
  | cons clause rest ih =>
    rw [evalClauses, finish_bind, elements?_run]
    simp only [Site.clauses]
    rcases m.store.elements? clause.value with _ | _ | ⟨test, body⟩
    · exact .refl
    · exact .refl
    · have hbase : (((test :: body).map Item.code).flatMap Item.refs ++ c.held outside stack) =
          refsOf (test :: body) ++ c.held outside stack := by rw [refs_codes]
      dsimp only
      split
      · rcases rest with _ | _
        · rcases body with _ | ⟨e, es⟩
          · exact .refl
          · rw [← hbase]
            exact steps_sequence hev c.frame _ none e es
        · exact .refl
      · refine steps_await hev hbase fun v m' => ?_
        unfold Level.resume
        by_cases hv : v.value.isTrue = true
        · simp only [hv, if_true]
          cases body with
          | nil => exact .refl
          | cons e es =>
            have hseq : Steps limit outside (c.sequence stack m' c.frame
                (.value v.value :: (test :: e :: es).map .code) none e es) _ :=
              steps_sequence hev c.frame _ none e es
            rw [List.flatMap_cons, List.append_assoc, hbase] at hseq
            exact hseq
        · simp only [hv]
          exact ih

theorem steps_conjunction (last : Node) (rest : List Node) :
    Steps limit outside (c.conjunction stack m last rest) (finish stack
      (evalConjunction ev (c.held outside stack) c.frame last rest m)) := by
  induction rest generalizing last m with
  | nil => exact .refl
  | cons e es ih =>
    refine steps_await hev (by simp [Wait.items, Item.refs]; rfl) fun v m' => ?_
    unfold Level.resume
    by_cases hv : v.value.isTrue = true
    · simp only [hv, if_true]
      exact ih v
    · simp only [hv]
      exact .refl

theorem steps_disjunction (rest : List Node) :
    Steps limit outside (c.disjunction stack m rest) (finish stack
      (evalDisjunction ev (c.held outside stack) c.frame c.span rest m)) := by
  induction rest generalizing m with
  | nil => exact .refl
  | cons e es ih =>
    refine steps_await hev rfl fun v m' => ?_
    unfold Level.resume
    by_cases hv : v.value.isTrue = true
    · simp only [hv, if_true]
      exact .refl
    · simp only [hv]
      exact ih

/-- Forms for a name and a value. -/
theorem steps_named (form : Form) (wait : Node → String → Wait)
    {g : Node → String → Node → EvalM Node}
    (hitems : ∀ target name, (wait target name).items = [])
    (hg : ∀ target name v m', Steps limit outside
      (Level.resume outside ⟨c, wait target name⟩ stack m' v)
      (finish stack (g target name v m')))
    (operands : List Node) :
    Steps limit outside (c.named stack m form wait operands) (finish stack
      ((match operands with
        | [target, e] => do
          let name ← expectSymbol form target
          let v ← ev (c.held outside stack) e c.frame
          g target name v
        | _ => throw (.malformed (.nameAndValue form) c.span) : EvalM Node) m)) := by
  match operands with
  | [] | [_] | _ :: _ :: _ :: _ => exact .refl
  | [target, e] =>
    simp only [Site.named, expectSymbol]
    cases target.value.symbol? with
    | none => exact .refl
    | some name =>
      simp only [pure_bind]
      refine steps_await hev ?_ (hg target name)
      rw [hitems]
      rfl

theorem steps_conditional (operands : List Node) :
    Steps limit outside (c.start outside stack m .conditional operands) (finish stack
      (evalConditional ev (c.held outside stack) operands c.frame c.span m)) := by
  match operands with
  | [] | [_] | _ :: _ :: _ :: _ :: _ => exact .refl
  | [condition, consequent] =>
    refine steps_await hev rfl fun v m' => ?_
    unfold Level.resume
    by_cases hv : v.value.isTrue = true
    · simp only [hv, if_true]
      exact steps_pass hev rfl
    · simp only [hv]
      exact .refl
  | [condition, consequent, alternate] =>
    refine steps_await hev rfl fun v m' => ?_
    unfold Level.resume
    by_cases hv : v.value.isTrue = true
    · simp only [hv, if_true]
      exact steps_pass hev rfl
    · simp only [hv]
      exact steps_pass hev rfl

theorem steps_bind (operands : List Node) :
    Steps limit outside (c.start outside stack m .bind operands) (finish stack
      (evalBind elements? ev (c.held outside stack) operands c.frame c.span m)) := by
  match operands with
  | [] | [_] => exact .refl
  | bindings :: first :: more =>
    rw [evalBind, finish_bind, elements?_run]
    simp only [Site.start]
    cases m.store.elements? bindings.value with
    | none => exact .refl
    | some nodes =>
      dsimp only
      refine steps_bindings hev (g := fun entries => do
        let inner ← EvalM.transform fun s =>
          s.enclose (refsOf nodes ++ c.held outside stack) c.frame entries
        evalSequence ev (.frame inner :: (refsOf nodes ++ c.held outside stack)) inner [] first
          more) (fun entries m' => ?_) [] nodes
      rw [finish_bind, enclose_run]
      have hseq : Steps limit outside (c.bindings outside stack m' nodes entries first more []) _ :=
        steps_sequence hev _ _ none first more
      rw [List.flatMap_cons, refs_codes] at hseq
      exact hseq

theorem steps_start (form : Form) (operands : List Node) :
    Steps limit outside (c.start outside stack m form operands) (finish stack
      (evalForm elements? ev (c.held outside stack) form operands c.frame c.span m)) := by
  cases form with
  | quote =>
    match operands with
    | [] | [_] | _ :: _ :: _ => exact .refl
  | conditional => exact steps_conditional hev operands
  | define =>
    change Steps limit outside (c.named stack m .define .define operands) _
    exact steps_named hev .define .define (g := fun target name v => do
      bindGlobal (c.held outside stack) c.frame name v
      return .symbol name target.span) (fun _ _ => rfl) (fun _ _ _ _ => .refl) operands
  | assign =>
    change Steps limit outside (c.named stack m .assign .assign operands) _
    exact steps_named hev .assign .assign (g := fun target name v => do
      assignName c.frame name v target.span
      return .unspecified c.span) (fun _ _ => rfl) (fun _ _ _ _ => .refl) operands
  | lambda => exact .refl
  | bind => exact steps_bind hev operands
  | sequence =>
    match operands with
    | [] => exact .refl
    | e :: es => exact steps_sequence hev c.frame [] none e es
  | clauses =>
    simp only [Site.start, evalForm]
    split
    · exact .refl
    · exact steps_clauses hev operands
  | conjunction => exact steps_conjunction hev _ operands
  | disjunction => exact steps_disjunction hev operands

end

/-- One level of nesting. -/
theorem steps_begin {limit : Nat} {outside : List Ref} {room : Nat} {ev : Evaluator}
    (hev : Follows limit outside room ev) (node : Node) (frame : FrameId) (stack : List Level)
    (m : Machine) :
    Steps limit outside (State.begin outside room node frame stack m)
      (finish stack (step elements? ev (heldBy stack ++ outside) node frame m)) := by
  obtain ⟨v, span⟩ := node
  unfold State.begin step
  match v with
  | .atom (.symbol name) => exact .refl
  | .atom (.boolean _) | .atom (.integer _) => exact .refl
  | .nil | .unspecified | .procedure _ => exact .refl
  | .pair p =>
    dsimp only
    rw [finish_bind, elements?_run]
    match m.store.elements? (Value.pair p) with
    | none | some [] => exact .refl
    | some (head :: operands) =>
      dsimp only
      let c : Site := ⟨head :: operands, span, frame, room⟩
      cases head.value.symbol?.bind Form.ofKeyword? with
      | some form => exact steps_start (c := c) hev form operands
      | none =>
        refine steps_await (c := c) hev rfl fun v m' => ?_
        unfold Level.resume
        cases v.value with
        | procedure p => exact steps_call (c := c) hev p [] operands
        | atom a => exact .refl
        | pair p => exact .refl
        | nil => exact .refl
        | unspecified => exact .refl

/-- **`eval` does what the steps do.** -/
theorem steps_eval (limit : Nat) (outside : List Ref) (room : Nat) :
    Follows limit outside room (eval limit room) := by
  induction room with
  | zero => exact fun stack node frame m => .single rfl
  | succ room ih => exact fun stack node frame m => .head rfl (steps_begin ih node frame stack m)

/-! ## The end of a run -/

namespace State

variable {limit : Nat} {outside : List Ref} {σ τ : State}

theorem next?_finish (r : EStateM.Result EvalError Machine Node) :
    (finish [] r).next? limit outside = none := by
  cases r <;> rfl

theorem Steps.eq_of_next?_none (h : Steps limit outside σ τ) (hσ : σ.next? limit outside = none) :
    τ = σ := by
  rcases Relation.ReflTransGen.cases_head h with rfl | ⟨ρ, hρ, -⟩
  · rfl
  · rw [hσ] at hρ
    cases hρ

/-- Of two states that an evaluation comes to, one is before the other. -/
theorem Steps.total {ρ : State} (hτ : Steps limit outside σ τ) (hρ : Steps limit outside σ ρ) :
    Steps limit outside τ ρ ∨ Steps limit outside ρ τ :=
  Relation.ReflTransGen.total_of_right_unique
    (fun _ _ _ h h' => Option.some.inj (h.symm.trans h')) hτ hρ

/-- A run that cannot go on has come to what `eval` computes. -/
theorem Steps.eq_finish {room : Nat} {node : Node} {frame : FrameId} {m : Machine}
    (h : Steps limit outside ⟨.evaluate room node frame, [], m⟩ τ)
    (hτ : τ.next? limit outside = none) : finish [] (eval limit room outside node frame m) = τ := by
  have hend := steps_eval limit outside room [] node frame m
  rcases h.total hend with h | h
  · exact h.eq_of_next?_none hτ
  · exact (h.eq_of_next?_none (next?_finish _)).symm

end State

end MiniScheme
