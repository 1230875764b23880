import MiniScheme.Eval.Primitive
import MiniScheme.Store.Registration

/-!
# Evaluation

`eval limit room` evaluates a node with `room` levels of nesting left; with none left it stops.
One level is `step`, which is given the evaluator for the level below: every special form and
every call is an ordinary function of that evaluator, and the only recursion is on `room`.

Next to the node and the frame an evaluator is told what is *held*: the objects that pending
evaluations still refer to. It matters in two places. A `define` whose value is a closure without
a name gives it the name, provided that nothing else refers to the closure, be it in the store or
held. And a new frame is registered, for which the frames that nobody holds may have to go.

Code is made of the same pairs as data, so a form finds its parts in the store. The functions that
take a list apart are given the way to do so, a `Splitter`; evaluation proper uses `elements?`.

* `evalWith` is `evaluate` with its check of the depth, `step` is `evaluate_inner`; the depth that
  is reached is the limit less the room that is left.
* `apply` calls a procedure with evaluated arguments.
* `evalForm` is one equation per special form.

Out of scope: the error `empty body` of `evaluate_sequence`. `evalSequence` is given a first
expression; `evaluate_begin`, `evaluate_let` and `evaluate_cond` all make sure that there is one.
-/

namespace MiniScheme

/-- Evaluates a node in a frame, given the objects that are held meanwhile. -/
abbrev Evaluator := List Ref → Node → FrameId → EvalM Node

/-- The objects that several nodes hold on to. -/
def refsOf (nodes : List Node) : List Ref := nodes.flatMap Node.refs

/-- Takes a list apart (`list_elements`); what is no proper list has no elements. -/
abbrev Splitter := Node → EvalM (Option (List Node))

/-- The elements of a proper list. -/
def elements? : Splitter := fun node => EvalM.view fun s => s.elements? node.value

/-- The name that `form` binds, or a complaint about the node in its place (`expect_symbol`). -/
def expectSymbol (form : Form) (node : Node) : EvalM String :=
  match node.value.symbol? with
  | some name => pure name
  | none => throw (.malformed (.notASymbol form node.value) node.span)

/-! ## Procedures -/

/-- The frame of a call, beneath `outer`, with each parameter bound to its argument
(`Environment::extend`). -/
def enterFrame (held : List Ref) (outer : FrameId) (procedure : String) (params : List String)
    (args : List Node) (span : Span) : EvalM FrameId :=
  if params.length = args.length then
    EvalM.transform fun s => s.enclose held outer (params.zip args)
  else throw (.arity procedure (.parameters params.length) args.length span)

/-- Enters a closure, the second case of `apply`: the frame of the call and the body to evaluate in
it. -/
def enterClosure (held : List Ref) (k : ClosureId) (args : List Node) (span : Span) :
    EvalM (FrameId × Node) := do
  let c ← EvalM.view fun s => s.closure k
  EvalM.note fun _ => .applying c.displayName args.length
  let frame ← enterFrame held c.frame c.displayName c.params args span
  return (frame, c.body)

/-- Applies a procedure to evaluated arguments in the call at `span`. -/
def apply (ev : Evaluator) (held : List Ref) (p : Procedure) (args : List Node) (span : Span) :
    EvalM Node :=
  match p with
  | .primitive p => applyPrimitive p args span
  | .closure k => do
    let (frame, body) ← enterClosure held k args span
    ev (.frame frame :: held) body frame

/-- Evaluates operands from left to right; each value is held while the others are evaluated. -/
def evalOperands (ev : Evaluator) (frame : FrameId) : List Ref → List Node → EvalM (List Node)
  | _, [] => pure []
  | held, e :: es => do
    let v ← ev held e frame
    let vs ← evalOperands ev frame (v.refs ++ held) es
    return v :: vs

/-- A procedure call (`evaluate_procedure`): the operator first, then the operands. -/
def evalCall (ev : Evaluator) (held : List Ref) (operator : Node) (operands : List Node)
    (frame : FrameId) (span : Span) : EvalM Node := do
  let f ← ev held operator frame
  match f.value with
  | .procedure p =>
    let args ← evalOperands ev frame (p.refs ++ held) operands
    apply ev (p.refs ++ held) p args span
  | found => throw (.notAProcedure found operator.span)

/-! ## Definition and assignment -/

/-- Gives the name to a closure that has none and to which only this value refers
(`name_fresh_lambda`). -/
def nameFresh (held : List Ref) (v : Value) (name : String) (s : Store) : Store :=
  match v with
  | .procedure (.closure k) =>
    if (s.closure k).name.isNone && s.isOnlyHeldHere held k then s.nameClosure k name
    else s
  | _ => s

/-- Binds a name in the global frame of `frame`. -/
def bindGlobal (held : List Ref) (frame : FrameId) (name : String) (v : Node) : EvalM Unit := do
  EvalM.update (nameFresh held v.value name)
  EvalM.note fun s => .defining name (s.text v.value)
  EvalM.update fun s => s.defineGlobal frame name v

/-- Replaces the value of a name as seen from `frame`, or complains at `span`. -/
def assignName (frame : FrameId) (name : String) (v : Node) (span : Span) : EvalM Unit := do
  if ← EvalM.transform fun s => s.assign frame name v then return ()
  else throw (.unbound name span)

/-- Binds a name in the global frame, whatever frame the form stands in, and yields the name
(`evaluate_define`). -/
def evalDefine (ev : Evaluator) (held : List Ref) (operands : List Node) (frame : FrameId)
    (span : Span) : EvalM Node :=
  match operands with
  | [target, e] => do
    let name ← expectSymbol .define target
    let v ← ev held e frame
    bindGlobal held frame name v
    return .symbol name target.span
  | _ => throw (.malformed (.nameAndValue .define) span)

/-- Replaces the value of a name that is bound already (`evaluate_set`). -/
def evalAssign (ev : Evaluator) (held : List Ref) (operands : List Node) (frame : FrameId)
    (span : Span) : EvalM Node :=
  match operands with
  | [target, e] => do
    let name ← expectSymbol .assign target
    let v ← ev held e frame
    assignName frame name v target.span
    return .unspecified span
  | _ => throw (.malformed (.nameAndValue .assign) span)

/-! ## Sequences -/

/-- Evaluates expressions in order and yields the last value (`evaluate_sequence`). The value before
is held while an expression is evaluated. -/
def evalSequence (ev : Evaluator) (held : List Ref) (frame : FrameId) :
    List Ref → Node → List Node → EvalM Node
  | last, e, [] => ev (last ++ held) e frame
  | last, e, e' :: es => do
    let v ← ev (last ++ held) e frame
    evalSequence ev held frame v.refs e' es

/-! ## Abstraction -/

/-- The parameter names of a `lambda`, none of them twice. -/
def parameterNames : List String → List Node → EvalM (List String)
  | _, [] => pure []
  | before, p :: ps => do
    let name ← expectSymbol .lambda p
    if before.contains name then throw (.malformed (.duplicateParameter name) p.span)
    else
      let names ← parameterNames (name :: before) ps
      return name :: names

/-- Makes a closure of the frame the form stands in (`evaluate_lambda`). -/
def evalLambda (split : Splitter) (operands : List Node) (frame : FrameId) (span : Span) :
    EvalM Node :=
  match operands with
  | [params, body] => do
    match ← split params with
    | some nodes =>
      let names ← parameterNames [] nodes
      let k ← EvalM.transform fun s => s.newClosure ⟨none, names, body, frame⟩
      return ⟨.procedure (.closure k), span⟩
    | none => throw (.malformed .parameterList params.span)
  | _ => throw (.malformed .lambdaOperands span)

/-- The loop of `evaluate_let`: the names and values of a binding list, in order; no name may occur
twice. -/
def evalBindings (split : Splitter) (ev : Evaluator) (frame : FrameId) :
    List Ref → List String → List Node → EvalM (List (String × Node))
  | _, _, [] => pure []
  | held, before, b :: bs => do
    match ← split b with
    | some [target, e] =>
      let name ← expectSymbol .bind target
      if before.contains name then throw (.malformed (.duplicateBinding name) target.span)
      else
        let v ← ev (refsOf [target, e] ++ held) e frame
        let entries ← evalBindings split ev frame (v.refs ++ held) (name :: before) bs
        return (name, v) :: entries
    | _ => throw (.malformed .bindingShape b.span)

/-- Evaluates the values in the frame the form stands in, and the body beneath it
(`evaluate_let`). -/
def evalBind (split : Splitter) (ev : Evaluator) (held : List Ref) (operands : List Node)
    (frame : FrameId) (span : Span) : EvalM Node :=
  match operands with
  | [] => throw (.malformed .bindOperands span)
  | [_] => throw (.malformed .bindBody span)
  | bindings :: e :: es => do
    match ← split bindings with
    | some nodes =>
      let held := refsOf nodes ++ held
      let entries ← evalBindings split ev frame held [] nodes
      let inner ← EvalM.transform fun s => s.enclose held frame entries
      evalSequence ev (.frame inner :: held) inner [] e es
    | none => throw (.malformed .bindingList bindings.span)

/-! ## Choice -/

/-- Chooses by the condition (`evaluate_if`); without an alternate the other case is unspecified. -/
def evalConditional (ev : Evaluator) (held : List Ref) (operands : List Node) (frame : FrameId)
    (span : Span) : EvalM Node :=
  match operands with
  | [condition, consequent] => do
    let v ← ev held condition frame
    if v.value.isTrue then ev held consequent frame else return .unspecified span
  | [condition, consequent, alternate] => do
    let v ← ev held condition frame
    if v.value.isTrue then ev held consequent frame else ev held alternate frame
  | _ => throw (.malformed .conditionalOperands span)

/-- The body of a clause; a clause without a body yields the value of its test. -/
def evalClauseBody (ev : Evaluator) (held : List Ref) (frame : FrameId) (test : Node) :
    List Node → EvalM Node
  | [] => pure test
  | e :: es => evalSequence ev (test.refs ++ held) frame [] e es

/-- Takes the first clause whose test is true (`evaluate_cond`); an `else` clause is the last and
has a body. -/
def evalClauses (split : Splitter) (ev : Evaluator) (held : List Ref) (frame : FrameId)
    (span : Span) : List Node → EvalM Node
  | [] => pure (.unspecified span)
  | clause :: rest => do
    match ← split clause with
    | some (test :: body) =>
      let inner := refsOf (test :: body) ++ held
      if test.value.symbol? = some elseKeyword then
        match rest, body with
        | [], e :: es => evalSequence ev inner frame [] e es
        | _, _ => throw (.malformed .misplacedElse clause.span)
      else
        let v ← ev inner test frame
        if v.value.isTrue then evalClauseBody ev inner frame v body
        else evalClauses split ev held frame span rest
    | _ => throw (.malformed .clauseShape clause.span)

/-- Stops at the first false value, else yields the last one (`evaluate_and`). -/
def evalConjunction (ev : Evaluator) (held : List Ref) (frame : FrameId) :
    Node → List Node → EvalM Node
  | last, [] => pure last
  | last, e :: es => do
    let v ← ev (last.refs ++ held) e frame
    if v.value.isTrue then evalConjunction ev held frame v es else return v

/-- Yields the first true value, else false (`evaluate_or`). -/
def evalDisjunction (ev : Evaluator) (held : List Ref) (frame : FrameId) (span : Span) :
    List Node → EvalM Node
  | [] => pure (.boolean false span)
  | e :: es => do
    let v ← ev held e frame
    if v.value.isTrue then return v else evalDisjunction ev held frame span es

/-! ## One level -/

/-- Evaluates a special form. -/
def evalForm (split : Splitter) (ev : Evaluator) (held : List Ref) (form : Form)
    (operands : List Node) (frame : FrameId) (span : Span) : EvalM Node :=
  match form with
  | .quote =>
    match operands with
    | [node] => pure node
    | _ => throw (.malformed .quoteOperands span)
  | .conditional => evalConditional ev held operands frame span
  | .define => evalDefine ev held operands frame span
  | .assign => evalAssign ev held operands frame span
  | .lambda => evalLambda split operands frame span
  | .bind => evalBind split ev held operands frame span
  | .sequence =>
    match operands with
    | [] => throw (.malformed .sequenceEmpty span)
    | e :: es => evalSequence ev held frame [] e es
  | .clauses =>
    if operands.isEmpty then throw (.malformed .clausesEmpty span)
    else evalClauses split ev held frame span operands
  | .conjunction => evalConjunction ev held frame (.boolean true span) operands
  | .disjunction => evalDisjunction ev held frame span operands

/-- The value of a name as seen from a frame. -/
def evalName (name : String) (frame : FrameId) (span : Span) : EvalM Node := do
  match (← get).store.lookup? frame name with
  | some node => return node
  | none => throw (.unbound name span)

/-- Evaluates a node (`evaluate_inner`), `ev` being the evaluator for what is inside it. -/
def step (split : Splitter) (ev : Evaluator) : Evaluator := fun held node frame =>
  match node.value with
  | .atom (.symbol name) => evalName name frame node.span
  | .pair _ => do
    match ← split node with
    | some (head :: operands) =>
      let held := refsOf (head :: operands) ++ held
      match head.value.symbol?.bind Form.ofKeyword? with
      | some form => evalForm split ev held form operands frame node.span
      | none => evalCall ev held head operands frame node.span
    | _ => throw (.malformed .improperList node.span)
  | _ => pure node

/-- Stops, because the limit of nesting is reached. -/
def stop (limit : Nat) : Evaluator := fun _ node _ => do
  EvalM.note fun s => .limitReached limit (s.text node.value)
  throw (.depthExceeded limit node.span)

/-- Evaluates a node with `room` of the `limit` levels of nesting left, taking lists apart by
`split`. -/
def evalWith (split : Splitter) (limit : Nat) : Nat → Evaluator
  | 0 => stop limit
  | room + 1 => step split (evalWith split limit room)

/-- Evaluates a node with `room` of the `limit` levels of nesting left. -/
def eval (limit room : Nat) : Evaluator := evalWith elements? limit room

end MiniScheme
