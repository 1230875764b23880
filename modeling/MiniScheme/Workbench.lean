import MiniScheme.Eval
import MiniScheme.Report
import MiniScheme.Spec
import MiniScheme.Store.Equality

/-!
# The workbench

A host that works on values and frames directly, without sessions. It gives names to them, and
what has a name is held: a workbench is a machine, a limit of nesting and two tables of names.

* `Action` is what a host does, `Reply` what it sees, and `Workbench.act` connects them. An action
  that mentions an unknown name, or a value of the wrong type, has no reply.
-/

namespace MiniScheme

/-- A machine with named values and frames. -/
structure Workbench where
  machine : Machine
  limit : Nat
  names : Names

/-- What a host does at a workbench. Values are mentioned by name or described. -/
inductive Action where
  /-- names a described value -/
  | make (name : String) (spec : Spec)
  | inspect (name : String)
  | outline (name : String)
  | debug (name : String)
  | elements (name : String)
  | symbol (name : String)
  | equal (a b : String)
  /-- replaces a half of a pair -/
  | setHalf (h : Half) (name : String) (spec : Spec)
  /-- evaluates a described expression in a frame, with a limit of its own or the workbench's,
  and may name the value -/
  | eval (limit : Option Nat) (spec : Spec) (scope : String) (target : Option String)
  /-- applies a described procedure, and may name the value -/
  | apply (procedure : Spec) (args : List Spec) (span : Span) (target : Option String)
  /-- names a new global frame -/
  | newScope (target : String)
  /-- names a new frame beneath another one -/
  | enclose (scope target : String)
  /-- names a new frame with parameters bound to arguments -/
  | extend (scope target procedure : String) (params : List String) (args : List Spec)
      (span : Span)
  | define (scope name : String) (spec : Spec)
  | clear (scope : String)
  | release (scope : String)
  | get (scope name : String) (span : Span) (target : Option String)
  | assign (scope name : String) (spec : Spec) (span : Span)
  | contains (scope name : String)
  | debugScope (scope : String)
  /-- the names of the global frame of a frame -/
  | rootNames (scope : String)

/-- What a host sees of an action. -/
inductive Reply where
  | outcome (o : Outcome)
  | text (s : String)
  | symbol (name : Option String)
  | elements (items : Option (List Shown))
  | outline (lines : List String)
  | names (names : List String)
  | equality (nodes values : Bool)
  | flag (b : Bool)
  /-- a half of a pair was replaced -/
  | replaced
  | done
deriving Repr

namespace Workbench

/-- A workbench with one frame, named `global`, that binds the primitives. -/
def new (limit : Nat) : Workbench :=
  let (f, s) := Store.empty.newPopulated
  ⟨⟨s, false, []⟩, limit, ⟨.empty, Table.empty.insert "global" f⟩⟩

/-- The store of the machine. -/
def store (b : Workbench) : Store := b.machine.store

/-- The workbench with another store. -/
def withStore (b : Workbench) (s : Store) : Workbench :=
  { b with machine := { b.machine with store := s } }

/-- The named objects. -/
def roots (b : Workbench) : List Ref :=
  refsOf b.names.values.values ++ b.names.scopes.values.map Ref.frame

/-- Gives a value a name. -/
def nameValue (b : Workbench) (name : String) (node : Node) : Workbench :=
  { b with names := { b.names with values := b.names.values.insert name node } }

/-- Gives a frame a name. -/
def nameScope (b : Workbench) (name : String) (f : FrameId) : Workbench :=
  { b with names := { b.names with scopes := b.names.scopes.insert name f } }

/-- Makes a described value. -/
def build (b : Workbench) (spec : Spec) : Option (Node × Workbench) := do
  let (node, s) ← spec.build b.names b.store
  return (node, b.withStore s)

/-- Makes several described values. -/
def buildAll (b : Workbench) (specs : List Spec) : Option (List Node × Workbench) := do
  let (nodes, s) ← Spec.buildAll b.names specs b.store
  return (nodes, b.withStore s)

/-- The pair of a name. -/
def pair? (b : Workbench) (name : String) : Option CellId := do
  match (← b.names.values.get? name).value with
  | .pair c => some c
  | _ => none

/-- Runs a computation and names its value when it is asked to. -/
def compute (b : Workbench) (x : EvalM Node) (target : Option String) : Reply × Workbench :=
  match x b.machine with
  | .ok v m =>
    let b := { b with machine := m }
    let named := match target with
      | some name => b.nameValue name v
      | none => b
    (.outcome (.ok (m.store.shown v)), named)
  | .error e m =>
    (.outcome (.error ((Error.eval e).report m.store)), { b with machine := m })

/-- What a host sees of an action, and the workbench after it. -/
def act (b : Workbench) (a : Action) : Option (Reply × Workbench) := do
  match a with
  | .make name spec =>
    let (node, b) ← b.build spec
    return (.outcome (.ok (b.store.shown node)), b.nameValue name node)
  | .inspect name =>
    let node ← b.names.values.get? name
    return (.outcome (.ok (b.store.shown node)), b)
  | .outline name =>
    let node ← b.names.values.get? name
    return (.outline (b.store.outline node), b)
  | .debug name =>
    let node ← b.names.values.get? name
    return (.text (b.store.debugText node.value), b)
  | .elements name =>
    let node ← b.names.values.get? name
    return (.elements ((b.store.elements? node.value).map fun ns => ns.map b.store.shown), b)
  | .symbol name =>
    let node ← b.names.values.get? name
    return (.symbol node.value.symbol?, b)
  | .equal left right =>
    let x ← b.names.values.get? left
    let y ← b.names.values.get? right
    return (.equality (b.store.nodesEqual x y) (b.store.valuesEqual x.value y.value), b)
  | .setHalf h name spec =>
    let c ← b.pair? name
    let (node, b) ← b.build spec
    return (.replaced, b.withStore (b.store.setHalf c h node))
  | .eval limit spec scope target =>
    let f ← b.names.scopes.get? scope
    let (node, b) ← b.build spec
    let limit := limit.getD b.limit
    return b.compute (MiniScheme.eval limit limit (node.refs ++ b.roots) node f) target
  | .apply procedure args span target =>
    let (node, b) ← b.build procedure
    let (nodes, b) ← b.buildAll args
    match node.value with
    | .procedure p =>
      let held := p.refs ++ b.roots
      return b.compute (MiniScheme.apply (MiniScheme.eval b.limit b.limit) held p nodes span) target
    | _ => none
  | .newScope target =>
    let (f, s) := b.store.newGlobal
    return (.done, (b.withStore s).nameScope target f)
  | .enclose scope target =>
    let f ← b.names.scopes.get? scope
    let (g, s) := b.store.enclose b.roots f []
    return (.done, (b.withStore s).nameScope target g)
  | .extend scope target procedure params args span =>
    let f ← b.names.scopes.get? scope
    let (nodes, b) ← b.buildAll args
    match enterFrame b.roots f procedure params nodes span b.machine with
    | .ok g m => return (.done, { b with machine := m }.nameScope target g)
    | .error e m =>
      return (.outcome (.error ((Error.eval e).report m.store)), { b with machine := m })
  | .define scope name spec =>
    let f ← b.names.scopes.get? scope
    let (node, b) ← b.build spec
    return (.done, b.withStore (b.store.bind f name node))
  | .clear scope =>
    let f ← b.names.scopes.get? scope
    return (.done, b.withStore (b.store.clear f))
  | .release scope =>
    let f ← b.names.scopes.get? scope
    return (.done, b.withStore (b.store.release b.roots f))
  | .get scope name span target =>
    let f ← b.names.scopes.get? scope
    return b.compute (evalName name f span) target
  | .assign scope name spec span =>
    let f ← b.names.scopes.get? scope
    let (node, b) ← b.build spec
    let (found, s) := b.store.assign f name node
    if found then return (.done, b.withStore s)
    else return (.outcome (.error ((Error.eval (.unbound name span)).report s)), b)
  | .contains scope name =>
    let f ← b.names.scopes.get? scope
    return (.flag ((b.store.frame f).bindings.contains name), b)
  | .debugScope scope =>
    let f ← b.names.scopes.get? scope
    return (.text (b.store.frameText f), b)
  | .rootNames scope =>
    let f ← b.names.scopes.get? scope
    let root := b.store.root f
    let known := b.names.scopes.entries.filter fun e => e.2 == root
    return (.names (sortedNames (known.map Prod.fst)), b)

end Workbench

end MiniScheme
