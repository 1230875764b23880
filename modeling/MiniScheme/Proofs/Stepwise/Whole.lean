import MiniScheme.Proofs.Primitives
import MiniScheme.Proofs.Stepwise.Evaluation
import MiniScheme.Proofs.Whole

/-!
# Steps between whole stores

What a state of an evaluation refers to exists, at every moment: the parts of the forms on its stack
with their frames, and the values there. A step of an evaluation leads from such a state to another
one. It leaves the names of closures alone, with one exception, `State.Naming`: at a `define` the
value is a closure without a name, and nothing else holds it.

## Results

* `State.Fits.next_from`: what a step keeps and what it can do to names.
* `State.Naming.fits`: what the exception keeps.
-/

namespace MiniScheme

/-! ## States that fit their stores -/

/-- Everything that the item holds on to exists. -/
def Item.Refers (s : Store) (i : Item) : Prop := ∀ r ∈ i.refs, s.Has r

section

variable {s t : Store}

theorem Item.refers_value {n : Node} : (Item.value n.value).Refers s ↔ n.Refers s := Iff.rfl

theorem Item.refers_scope {f : FrameId} : (Item.scope f).Refers s ↔ s.Has (.frame f) :=
  List.forall_mem_singleton

theorem Item.forall_code {nodes : List Node} :
    (∀ i ∈ nodes.map Item.code, i.Refers s) ↔ ∀ n ∈ nodes, n.Refers s := List.forall_mem_map

theorem Item.forall_value {nodes : List Node} :
    (∀ i ∈ nodes.map (fun n => Item.value n.value), i.Refers s) ↔ ∀ n ∈ nodes, n.Refers s :=
  List.forall_mem_map

theorem Item.forall_entry {entries : List (String × Node)} :
    (∀ i ∈ entries.map (fun entry => Item.value entry.2.value), i.Refers s) ↔
      ∀ entry ∈ entries, entry.2.Refers s := List.forall_mem_map

theorem Item.Refers.mono {i : Item} (h : i.Refers s) (ht : s.Extends t) : i.Refers t :=
  fun r hr => ht.has (h r hr)

end

/-- What a waiting form goes on with, besides what it holds on to. -/
def Wait.parts : Wait → List Item
  | pass _ | define _ _ | assign _ _ => []
  | operator _ rest | operand _ _ rest | test _ _ rest | conjunct _ rest | disjunct rest =>
    rest.map .code
  | condition consequent alternate => (consequent :: alternate.toList).map .code
  | sequence frame _ _ next rest => .scope frame :: (next :: rest).map .code
  | binding _ _ _ _ _ rest first more => (rest ++ first :: more).map .code

/-- Everything that the form waits with exists. -/
structure Wait.Fits (s : Store) (w : Wait) : Prop where
  items : ∀ i ∈ w.items, i.Refers s
  parts : ∀ i ∈ w.parts, i.Refers s

/-- The frame of the form and everything in the form exist. -/
structure Site.Fits (s : Store) (c : Site) : Prop where
  frame : s.Has (.frame c.frame)
  form : ∀ n ∈ c.form, n.Refers s

/-- The form is a `define`, and its target is the symbol `name`. -/
def Site.Defines (c : Site) (target : Node) (name : String) : Prop :=
  ∃ head e, c.form = [head, target, e] ∧ head.value.symbol? = some Form.define.keyword ∧
    target.value.symbol? = some name

/-- Only a `define` waits for a value in order to bind it in the global frame. -/
def Level.Formed (l : Level) : Prop :=
  match l.wait with
  | .define target name => l.site.Defines target name
  | _ => True

/-- Everything that the level refers to exists, and the form is what it should be. -/
structure Level.Fits (s : Store) (l : Level) : Prop where
  site : l.site.Fits s
  wait : l.wait.Fits s
  form : l.Formed

/-- What is to be done next refers to objects that exist. -/
def Control.Fits (s : Store) : Control → Prop
  | evaluate _ node frame => node.Refers s ∧ s.Has (.frame frame)
  | yield v => v.Refers s
  | fail _ => True

/-- The store is whole, and everything that the state refers to exists. -/
structure State.Fits (σ : State) : Prop where
  whole : σ.machine.store.Whole
  control : σ.control.Fits σ.machine.store
  stack : ∀ l ∈ σ.stack, l.Fits σ.machine.store

section

variable {s t : Store}

theorem Site.Fits.mono {c : Site} (h : c.Fits s) (ht : s.Extends t) : c.Fits t where
  frame := ht.has h.frame
  form n hn := ht.refers (h.form n hn)

theorem Level.Fits.mono {l : Level} (h : l.Fits s) (ht : s.Extends t) : l.Fits t where
  site := h.site.mono ht
  wait := ⟨fun i hi => (h.wait.items i hi).mono ht, fun i hi => (h.wait.parts i hi).mono ht⟩
  form := h.form

end

/-- The state fits, and its store comes from another one by operations that leave the names of
closures alone. -/
structure State.From (s : Store) (σ : State) : Prop extends σ.Fits where
  leads : s.LeadsTo σ.machine.store

/-- The end of a computation that leaves the names of closures alone. -/
def Store.Ends (s : Store) : EStateM.Result EvalError Machine Node → Prop
  | .ok v m => s.LeadsTo m.store ∧ v.Refers m.store
  | .error _ m => s.LeadsTo m.store

/-! ## Forms -/

/-- A form that is being evaluated while others wait for it. -/
structure Site.Ready (c : Site) (stack : List Level) (m : Machine) : Prop where
  whole : m.store.Whole
  site : c.Fits m.store
  stack : ∀ l ∈ stack, l.Fits m.store

namespace State

variable {s : Store} {m m' : Machine} {stack : List Level}

theorem from_failed (h : s.LeadsTo m.store) (e : EvalError) : From s (failed e m) :=
  ⟨⟨h.whole, trivial, fun _ hl => absurd hl List.not_mem_nil⟩, h⟩

theorem from_yield (h : s.LeadsTo m.store) {v : Node} (hv : v.Refers m.store)
    (hstack : ∀ l ∈ stack, l.Fits s) : From s ⟨.yield v, stack, m⟩ :=
  ⟨⟨h.whole, hv, fun l hl => (hstack l hl).mono h.toExtends⟩, h⟩

theorem from_finish {r : EStateM.Result EvalError Machine Node} (h : s.Ends r)
    (hstack : ∀ l ∈ stack, l.Fits s) : From s (finish stack r) := by
  cases r with
  | ok v m' => exact from_yield h.1 h.2 hstack
  | error e m' => exact from_failed h e

end State

namespace Site.Ready

open State

variable {c : Site} {stack : List Level} {m m' : Machine}

theorem mono (h : c.Ready stack m) (hm : m.store.LeadsTo m'.store) : c.Ready stack m' where
  whole := hm.whole
  site := h.site.mono hm.toExtends
  stack l hl := (h.stack l hl).mono hm.toExtends

theorem await (h : c.Ready stack m) (wait : Wait) (hform : Level.Formed ⟨c, wait⟩)
    (hwait : wait.Fits m.store) {e : Node} (he : e.Refers m.store) {frame : FrameId}
    (hf : m.store.Has (.frame frame)) : From m.store (c.await stack m wait e frame) :=
  ⟨⟨h.whole, ⟨he, hf⟩, List.forall_mem_cons.2 ⟨⟨h.site, hwait, hform⟩, h.stack⟩⟩, h.whole.refl⟩

theorem failed (h : c.Ready stack m) (e : EvalError) : From m.store (failed e m) :=
  from_failed h.whole.refl e

theorem yield (h : c.Ready stack m) {v : Node} (hv : v.Refers m.store) :
    From m.store ⟨.yield v, stack, m⟩ := from_yield h.whole.refl hv h.stack

end Site.Ready

/-- A state that comes from a store comes from an earlier one as well. -/
theorem State.From.after {s t : Store} {σ : State} (h : From t σ) (hs : s.LeadsTo t) : From s σ :=
  ⟨h.toFits, hs.trans h.leads⟩

/-! ## Computations -/

section

variable {m : Machine}

theorem Store.Whole.leadsTo_primitive {s : Store} (h : s.Whole) {p : Primitive} {span : Span}
    {c : Store → Node × Store} (hc : p.Change (Node.Refers s) span c) :
    s.LeadsTo (c s).2 ∧ (c s).1.Refers (c s).2 := by
  cases hc with
  | integer n => exact ⟨h.refl, Store.refers_leaf rfl⟩
  | boolean b => exact ⟨h.refl, Store.refers_leaf rfl⟩
  | list hargs _ => exact h.leadsTo_newTail span.stop hargs
  | cons ha hb => exact h.leadsTo_newCell ha hb span
  | half half ha hc => exact ⟨h.refl, h.half _ half⟩
  | setHalf half ha hb hc => exact ⟨h.leadsTo_setHalf _ half hb, Store.refers_leaf rfl⟩

theorem applyPrimitive_leads (h : m.store.Whole) {args : List Node}
    (hargs : ∀ a ∈ args, a.Refers m.store) (p : Primitive) (span : Span) :
    m.store.Ends (applyPrimitive p args span m) := by
  rw [applyPrimitive_run]
  rcases Primitive.call_change (E := fun _ => True) (fun _ _ _ _ => trivial)
    (fun _ _ => trivial) (fun _ _ => trivial) hargs with ⟨change, hcall, hc⟩ | ⟨e, hcall, -⟩
  · rw [hcall]
    exact h.leadsTo_primitive hc
  · rw [hcall]
    exact h.refl

theorem evalName_leads (h : m.store.Whole) (name : String) (f : FrameId) (span : Span) :
    m.store.Ends (evalName name f span m) := by
  rw [evalName_run]
  cases hv : m.store.lookup? f name with
  | some v => exact ⟨h.refl, h.lookup hv⟩
  | none => exact h.refl

theorem stop_leads (h : m.store.Whole) (limit : Nat) (held : List Ref) (n : Node) (f : FrameId) :
    m.store.Ends (stop limit held n f m) := by
  change m.store.LeadsTo (m.note _).store
  rw [Machine.store_note]
  exact h.refl

theorem assignName_leads (h : m.store.Whole) (f : FrameId) (name : String) {v : Node}
    (hv : v.Refers m.store) (place span : Span) :
    m.store.Ends ((do assignName f name v place; return .unspecified span : EvalM Node) m) := by
  change m.store.Ends (EStateM.bind _ _ m)
  unfold EStateM.bind
  rw [assignName_run]
  cases ho : m.store.owner? f name with
  | none => exact h.refl
  | some g => exact ⟨h.leadsTo_bind g name hv, Store.refers_leaf rfl⟩

theorem evalLambda_leads (h : m.store.Whole) {operands : List Node}
    (hops : ∀ n ∈ operands, n.Refers m.store) {f : FrameId} (hf : m.store.Has (.frame f))
    (span : Span) : m.store.Ends (evalLambda elements? operands f span m) := by
  match operands with
  | [] | [_] | _ :: _ :: _ :: _ => exact h.refl
  | [params, body] =>
    cases hp : m.store.elements? params.value with
    | none =>
      rw [evalLambda_none ((elements?_run params m).trans (by rw [hp]))]
      exact h.refl
    | some nodes =>
      rw [evalLambda_some ((elements?_run params m).trans (by rw [hp]))]
      change m.store.Ends (EStateM.bind _ _ m)
      unfold EStateM.bind
      rcases parameterNames_run (V := Eq) (E := fun _ _ => True) (fun h => by rw [h])
        (fun _ => trivial) (fun _ _ _ => trivial) (List.forall₂_refl nodes) [] with
        ⟨names, hrun⟩ | ⟨e, _, -, hrun⟩
      · rw [(hrun m).1]
        have hbody : body.Refers m.store := hops body (by simp)
        exact h.leadsTo_newClosure (k := ⟨none, names, body, f⟩) hf hbody span
      · rw [(hrun m).1]
        exact h.refl

/-- Entering a closure: there is a new frame, and the body is evaluated in it. -/
theorem enterClosure_leads (h : m.store.Whole) (held : List Ref) {k : ClosureId}
    (hk : m.store.Has (.closure k)) {args : List Node} (hargs : ∀ a ∈ args, a.Refers m.store)
    (span : Span) :
    match enterClosure held k args span m with
    | .ok (inner, body) m' =>
      m.store.LeadsTo m'.store ∧ m'.store.Has (.frame inner) ∧ body.Refers m'.store
    | .error _ m' => m.store.LeadsTo m'.store := by
  obtain ⟨log, hrun⟩ := enterClosure_run held k args span m
  rw [hrun]
  obtain ⟨hframe, hbody⟩ := h.closure hk
  by_cases hlength : (m.store.closure k).params.length = args.length
  · rw [if_pos hlength]
    obtain ⟨hleads, hinner⟩ :=
      h.leadsTo_enclose held hframe fun e he => hargs e.2 (List.of_mem_zip he).2
    exact ⟨hleads, hinner, hleads.refers hbody⟩
  · rw [if_neg hlength]
    exact h.refl

end

/-! ## Going on with a form -/

namespace Site.Ready

open State

variable {outside : List Ref} {c : Site} {stack : List Level} {m : Machine}

theorem call (h : c.Ready stack m) {p : Procedure} (hp : ∀ r ∈ p.refs, m.store.Has r)
    {args rest : List Node} (hargs : ∀ n ∈ args, n.Refers m.store)
    (hrest : ∀ n ∈ rest, n.Refers m.store) : From m.store (c.call outside stack m p args rest) := by
  have hp' : (Item.value (.procedure p)).Refers m.store := hp
  cases rest with
  | cons e es =>
    obtain ⟨he, hes⟩ := List.forall_mem_cons.1 hrest
    refine h.await (.operand p args es) trivial ⟨?_, Item.forall_code.2 hes⟩ he h.site.frame
    exact List.forall_mem_append.2
      ⟨Item.forall_value.2 hargs, List.forall_mem_singleton.2 hp'⟩
  | nil =>
    have hargs' : ∀ n ∈ args.reverse, n.Refers m.store :=
      fun n hn => hargs n (List.mem_reverse.1 hn)
    cases p with
    | primitive q => exact from_finish (applyPrimitive_leads h.whole hargs' q c.span) h.stack
    | closure k =>
      have henter := enterClosure_leads h.whole ((Procedure.closure k).refs ++ c.held outside stack)
        (hp _ List.mem_cons_self) hargs' c.span
      simp only [Site.call]
      cases hr : enterClosure _ k args.reverse c.span m with
      | error e m' =>
        rw [hr] at henter
        exact from_failed henter e
      | ok x m' =>
        rw [hr] at henter
        obtain ⟨hleads, hinner, hbody⟩ := henter
        refine ((h.mono hleads).await (.pass _) trivial ⟨?_, List.forall_mem_nil _⟩ hbody
          hinner).after hleads
        exact List.forall_mem_cons.2 ⟨Item.refers_scope.2 hinner,
          List.forall_mem_singleton.2 (hp'.mono hleads.toExtends)⟩

theorem sequence (h : c.Ready stack m) {frame : FrameId} (hf : m.store.Has (.frame frame))
    {base : List Item} (hbase : ∀ i ∈ base, i.Refers m.store) {last : Option Node}
    (hlast : ∀ n ∈ last.toList, n.Refers m.store) {e : Node} {es : List Node}
    (hes : ∀ n ∈ e :: es, n.Refers m.store) :
    From m.store (c.sequence stack m frame base last e es) := by
  obtain ⟨he, hes⟩ := List.forall_mem_cons.1 hes
  have hitems : ∀ i ∈ lastItems last ++ base, i.Refers m.store :=
    List.forall_mem_append.2 ⟨Item.forall_value.2 hlast, hbase⟩
  cases es with
  | nil => exact h.await (.pass _) trivial ⟨hitems, List.forall_mem_nil _⟩ he hf
  | cons next rest =>
    refine h.await (.sequence frame base last next rest) trivial ⟨hitems, ?_⟩ he hf
    exact List.forall_mem_cons.2 ⟨Item.refers_scope.2 hf, Item.forall_code.2 hes⟩

theorem bindings (h : c.Ready stack m) {nodes : List Node} (hnodes : ∀ n ∈ nodes, n.Refers m.store)
    {entries : List (String × Node)} (hentries : ∀ e ∈ entries, e.2.Refers m.store) {first : Node}
    {more : List Node} (hbody : ∀ n ∈ first :: more, n.Refers m.store) {rest : List Node}
    (hrest : ∀ n ∈ rest, n.Refers m.store) :
    From m.store (c.bindings outside stack m nodes entries first more rest) := by
  cases rest with
  | nil =>
    let held := refsOf nodes ++ c.held outside stack
    obtain ⟨hleads, hinner⟩ := h.whole.leadsTo_enclose held h.site.frame
      fun e he => hentries e (List.mem_reverse.1 he)
    let m' : Machine := { m with store := (m.store.enclose held c.frame entries.reverse).2 }
    have hready : c.Ready stack m' := h.mono hleads
    refine State.From.after ?_ hleads
    refine hready.sequence hinner ?_ (List.forall_mem_nil _) fun n hn => hleads.refers (hbody n hn)
    refine List.forall_mem_cons.2 ⟨Item.refers_scope.2 hinner, ?_⟩
    exact Item.forall_code.2 fun n hn => hleads.refers (hnodes n hn)
  | cons b rest =>
    obtain ⟨-, hrest⟩ := List.forall_mem_cons.1 hrest
    simp only [Site.bindings]
    cases hb : m.store.elements? b.value with
    | none => exact h.failed _
    | some items =>
      have hitems := h.whole.elements hb
      rcases items with _ | ⟨target, _ | ⟨e, _ | _⟩⟩
      · exact h.failed _
      · exact h.failed _
      · obtain ⟨htarget, he⟩ : target.Refers m.store ∧ e.Refers m.store := by simpa using hitems
        dsimp only
        cases target.value.symbol? with
        | none => exact h.failed _
        | some name =>
          dsimp only
          split
          · exact h.failed _
          · refine h.await (.binding ..) trivial ⟨?_, ?_⟩ he h.site.frame
            · refine List.forall_mem_cons.2 ⟨htarget, List.forall_mem_cons.2 ⟨he, ?_⟩⟩
              exact List.forall_mem_append.2
                ⟨Item.forall_entry.2 hentries, Item.forall_code.2 hnodes⟩
            · exact Item.forall_code.2 (List.forall_mem_append.2 ⟨hrest, hbody⟩)
      · exact h.failed _

theorem clauses (h : c.Ready stack m) {rest : List Node} (hrest : ∀ n ∈ rest, n.Refers m.store) :
    From m.store (c.clauses stack m rest) := by
  cases rest with
  | nil => exact h.yield (Store.refers_leaf rfl)
  | cons clause rest =>
    obtain ⟨-, hrest⟩ := List.forall_mem_cons.1 hrest
    simp only [Site.clauses]
    cases hc : m.store.elements? clause.value with
    | none => exact h.failed _
    | some items =>
      have hitems := h.whole.elements hc
      cases items with
      | nil => exact h.failed _
      | cons test body =>
        obtain ⟨htest, hbody⟩ := List.forall_mem_cons.1 hitems
        dsimp only
        split
        · rcases rest with _ | _
          · rcases body with _ | _
            · exact h.failed _
            · exact h.sequence h.site.frame (Item.forall_code.2 hitems) (List.forall_mem_nil _)
                hbody
          · exact h.failed _
        · exact h.await (.test test body rest) trivial
            ⟨Item.forall_code.2 hitems, Item.forall_code.2 hrest⟩ htest h.site.frame

theorem conjunction (h : c.Ready stack m) {last : Node} (hlast : last.Refers m.store)
    {rest : List Node} (hrest : ∀ n ∈ rest, n.Refers m.store) :
    From m.store (c.conjunction stack m last rest) := by
  cases rest with
  | nil => exact h.yield hlast
  | cons e es =>
    obtain ⟨he, hes⟩ := List.forall_mem_cons.1 hrest
    exact h.await (.conjunct last es) trivial
      ⟨List.forall_mem_singleton.2 hlast, Item.forall_code.2 hes⟩ he h.site.frame

theorem disjunction (h : c.Ready stack m) {rest : List Node}
    (hrest : ∀ n ∈ rest, n.Refers m.store) : From m.store (c.disjunction stack m rest) := by
  cases rest with
  | nil => exact h.yield (Store.refers_leaf rfl)
  | cons e es =>
    obtain ⟨he, hes⟩ := List.forall_mem_cons.1 hrest
    exact h.await (.disjunct es) trivial ⟨List.forall_mem_nil _, Item.forall_code.2 hes⟩ he
      h.site.frame

theorem named (h : c.Ready stack m) (form : Form) {wait : Node → String → Wait}
    {operands : List Node} (hwait : ∀ target name, (wait target name).Fits m.store)
    (hform : ∀ target e name, operands = [target, e] → target.value.symbol? = some name →
      Level.Formed ⟨c, wait target name⟩)
    (hops : ∀ n ∈ operands, n.Refers m.store) :
    From m.store (c.named stack m form wait operands) := by
  match operands with
  | [] | [_] | _ :: _ :: _ :: _ => exact h.failed _
  | [target, e] =>
    simp only [Site.named]
    cases hname : target.value.symbol? with
    | none => exact h.failed _
    | some name =>
      exact h.await _ (hform target e name rfl hname) (hwait target name) (hops e (by simp))
        h.site.frame

theorem start (h : c.Ready stack m) {head : Node} {operands : List Node}
    (hc : c.form = head :: operands) {form : Form}
    (hhead : head.value.symbol?.bind Form.ofKeyword? = some form)
    (hops : ∀ n ∈ operands, n.Refers m.store) :
    From m.store (c.start outside stack m form operands) := by
  cases form with
  | quote =>
    rcases operands with _ | ⟨node, _ | _⟩
    · exact h.failed _
    · exact h.yield (hops node List.mem_cons_self)
    · exact h.failed _
  | conditional =>
    rcases operands with _ | ⟨condition, _ | ⟨consequent, _ | ⟨alternate, _ | _⟩⟩⟩
    · exact h.failed _
    · exact h.failed _
    · obtain ⟨hcondition, hrest⟩ := List.forall_mem_cons.1 hops
      exact h.await (.condition consequent none) trivial
        ⟨List.forall_mem_nil _, Item.forall_code.2 hrest⟩ hcondition h.site.frame
    · obtain ⟨hcondition, hrest⟩ := List.forall_mem_cons.1 hops
      exact h.await (.condition consequent (some alternate)) trivial
        ⟨List.forall_mem_nil _, Item.forall_code.2 hrest⟩ hcondition h.site.frame
    · exact h.failed _
  | define =>
    refine h.named .define (fun _ _ => ⟨List.forall_mem_nil _, List.forall_mem_nil _⟩)
      (fun target e name htarget hname => ?_) hops
    obtain ⟨word, hword, hform⟩ := Option.bind_eq_some_iff.1 hhead
    have hkeyword := List.find?_some hform
    rw [beq_iff_eq] at hkeyword
    exact ⟨head, e, by rw [hc, htarget], by rw [hword, hkeyword], hname⟩
  | assign =>
    exact h.named .assign (fun _ _ => ⟨List.forall_mem_nil _, List.forall_mem_nil _⟩)
      (fun _ _ _ _ _ => trivial) hops
  | lambda => exact from_finish (evalLambda_leads h.whole hops h.site.frame c.span) h.stack
  | bind =>
    rcases operands with _ | ⟨bindings, _ | ⟨first, more⟩⟩
    · exact h.failed _
    · exact h.failed _
    · simp only [Site.start]
      cases hb : m.store.elements? bindings.value with
      | none => exact h.failed _
      | some nodes =>
        have hnodes := h.whole.elements hb
        exact h.bindings hnodes (List.forall_mem_nil _) (List.forall_mem_cons.1 hops).2 hnodes
  | sequence =>
    cases operands with
    | nil => exact h.failed _
    | cons e es =>
      exact h.sequence h.site.frame (List.forall_mem_nil _) (List.forall_mem_nil _) hops
  | clauses =>
    simp only [Site.start]
    split
    · exact h.failed _
    · exact h.clauses hops
  | conjunction => exact h.conjunction (Store.refers_leaf rfl) hops
  | disjunction => exact h.disjunction hops

end Site.Ready

/-! ## Steps -/

/-- A `define` gives its name to a closure that has none and that nothing else holds. -/
inductive State.Naming (outside : List Ref) (k : ClosureId) (name : String) : State → State → Prop
  | intro {m : Machine} {c : Site} {target : Node} {span : Span} {stack : List Level}
      {log : List Event} (unnamed : (m.store.closure k).name = none)
      (only : m.store.isOnlyHeldHere (c.held outside stack) k = true) :
      Naming outside k name
        ⟨.yield ⟨.procedure (.closure k), span⟩, ⟨c, .define target name⟩ :: stack, m⟩
        ⟨.yield (.symbol name target.span), stack,
          ⟨(m.store.nameClosure k name).defineGlobal c.frame name ⟨.procedure (.closure k), span⟩,
            m.recording, log⟩⟩

namespace Level

open State

variable {outside : List Ref} {c : Site} {stack : List Level} {m : Machine} {v : Node}

theorem resume_define (outside : List Ref) (c : Site) (stack : List Level) (m : Machine)
    (v target : Node) (name : String) :
    ∃ log, resume outside ⟨c, .define target name⟩ stack m v =
      ⟨.yield (.symbol name target.span), stack,
        ⟨(nameFresh (c.held outside stack) v.value name m.store).defineGlobal c.frame name v,
          m.recording, log⟩⟩ := by
  obtain ⟨log, hrun⟩ := bindGlobal_run (c.held outside stack) c.frame name v m
  refine ⟨log, ?_⟩
  change finish stack ((bindGlobal (c.held outside stack) c.frame name v >>= fun _ =>
    pure (Node.symbol name target.span)) m) = _
  rw [finish_bind, hrun]
  rfl

/-- A closure without a name that nothing else holds is named. -/
theorem resume_naming {k : ClosureId} (hk : v.value = .procedure (.closure k))
    (hnone : (m.store.closure k).name = none)
    (honly : m.store.isOnlyHeldHere (c.held outside stack) k = true) (target : Node)
    (name : String) :
    Naming outside k name ⟨.yield v, ⟨c, .define target name⟩ :: stack, m⟩
      (resume outside ⟨c, .define target name⟩ stack m v) := by
  obtain ⟨log, hresume⟩ := resume_define outside c stack m v target name
  have hfresh : nameFresh (c.held outside stack) (.procedure (.closure k)) name m.store =
      m.store.nameClosure k name := by
    simp [nameFresh, hnone, honly]
  obtain ⟨value, span⟩ := v
  cases hk
  rw [hresume, hfresh]
  exact .intro hnone honly

/-- In all other cases names stay. -/
theorem resume_define_from (h : c.Ready stack m) (hv : v.Refers m.store)
    (hother : ∀ k, v.value = .procedure (.closure k) → (m.store.closure k).name = none →
      m.store.isOnlyHeldHere (c.held outside stack) k ≠ true) (target : Node) (name : String) :
    From m.store (resume outside ⟨c, .define target name⟩ stack m v) := by
  obtain ⟨log, hresume⟩ := resume_define outside c stack m v target name
  have hfresh : nameFresh (c.held outside stack) v.value name m.store = m.store := by
    unfold nameFresh
    split
    · rename_i k hk
      rw [if_neg]
      intro hcond
      simp only [Bool.and_eq_true, Option.isNone_iff_eq_none] at hcond
      exact hother k hk hcond.1 hcond.2
    · rfl
  rw [hresume, hfresh]
  have hbind := h.whole.leadsTo_defineGlobal c.frame name hv
  exact from_yield hbind (Store.refers_leaf rfl) h.stack

/-- **Going on with a value.** -/
theorem resume_from {l : Level} (h : l.site.Ready stack m) (hl : l.wait.Fits m.store)
    (hv : v.Refers m.store) :
    From m.store (l.resume outside stack m v) ∨
      ∃ k name, Naming outside k name ⟨.yield v, l :: stack, m⟩ (l.resume outside stack m v) := by
  obtain ⟨c, wait⟩ := l
  cases wait with
  | define target name =>
    by_cases hname : ∃ k, v.value = .procedure (.closure k) ∧ (m.store.closure k).name = none ∧
        m.store.isOnlyHeldHere (c.held outside stack) k = true
    · obtain ⟨k, hk, hnone, honly⟩ := hname
      exact .inr ⟨k, name, resume_naming hk hnone honly target name⟩
    · exact .inl (resume_define_from h hv (fun k hk hnone honly => hname ⟨k, hk, hnone, honly⟩)
        target name)
  | pass items => exact .inl (h.yield hv)
  | operator place operands =>
    refine .inl ?_
    unfold resume
    cases hp : v.value with
    | procedure p =>
      refine h.call (fun r hr => hv r ?_) (List.forall_mem_nil _) (Item.forall_code.1 hl.parts)
      rw [Node.refs, hp]
      exact hr
    | atom a => exact h.failed _
    | pair p => exact h.failed _
    | nil => exact h.failed _
    | unspecified => exact h.failed _
  | operand p args rest =>
    obtain ⟨hargs, hp⟩ := List.forall_mem_append.1 hl.items
    exact .inl (h.call (List.forall_mem_singleton.1 hp)
      (List.forall_mem_cons.2 ⟨hv, Item.forall_value.1 hargs⟩) (Item.forall_code.1 hl.parts))
  | assign target name =>
    exact .inl (from_finish (assignName_leads h.whole c.frame name hv target.span c.span) h.stack)
  | condition consequent alternate =>
    have hparts := Item.forall_code.1 hl.parts
    refine .inl ?_
    simp only [resume]
    split
    · exact h.await (.pass []) trivial ⟨List.forall_mem_nil _, List.forall_mem_nil _⟩
        (hparts _ List.mem_cons_self) h.site.frame
    · cases alternate with
      | none => exact h.yield (Store.refers_leaf rfl)
      | some alternate =>
        exact h.await (.pass []) trivial ⟨List.forall_mem_nil _, List.forall_mem_nil _⟩
          (hparts alternate (by simp)) h.site.frame
  | sequence frame base last next rest =>
    obtain ⟨hframe, hes⟩ := List.forall_mem_cons.1 hl.parts
    obtain ⟨-, hbase⟩ := List.forall_mem_append.1 hl.items
    have hlast : ∀ n ∈ (some v).toList, n.Refers m.store := List.forall_mem_singleton.2 hv
    exact .inl (h.sequence (Item.refers_scope.1 hframe) hbase hlast (Item.forall_code.1 hes))
  | binding nodes target e entries name rest first more =>
    obtain ⟨-, hitems⟩ := List.forall_mem_cons.1 hl.items
    obtain ⟨-, hitems⟩ := List.forall_mem_cons.1 hitems
    obtain ⟨hentries, hnodes⟩ := List.forall_mem_append.1 hitems
    obtain ⟨hrest, hbody⟩ := List.forall_mem_append.1 (Item.forall_code.1 hl.parts)
    exact .inl (h.bindings (Item.forall_code.1 hnodes)
      (List.forall_mem_cons.2 ⟨hv, Item.forall_entry.1 hentries⟩) hbody hrest)
  | test test body rest =>
    refine .inl ?_
    have hitems := Item.forall_code.1 hl.items
    simp only [resume]
    split
    · cases body with
      | nil => exact h.yield hv
      | cons e es =>
        exact h.sequence h.site.frame (List.forall_mem_cons.2 ⟨Item.refers_value.2 hv, hl.items⟩)
          (List.forall_mem_nil _) (List.forall_mem_cons.1 hitems).2
    · exact h.clauses (Item.forall_code.1 hl.parts)
  | conjunct last rest =>
    refine .inl ?_
    simp only [resume]
    split
    · exact h.conjunction hv (Item.forall_code.1 hl.parts)
    · exact h.yield hv
  | disjunct rest =>
    refine .inl ?_
    simp only [resume]
    split
    · exact h.yield hv
    · exact h.disjunction (Item.forall_code.1 hl.parts)

end Level

namespace State

variable {limit : Nat} {outside : List Ref} {σ τ : State}

theorem begin_from {room : Nat} {node : Node} {frame : FrameId} {stack : List Level} {m : Machine}
    (hm : m.store.Whole) (hf : m.store.Has (.frame frame)) (hnode : node.Refers m.store)
    (hstack : ∀ l ∈ stack, l.Fits m.store) :
    From m.store (State.begin outside room node frame stack m) := by
  obtain ⟨v, span⟩ := node
  unfold State.begin
  match v with
  | .atom (.symbol name) => exact from_finish (evalName_leads hm name frame span) hstack
  | .atom (.boolean _) | .atom (.integer _) | .nil | .unspecified | .procedure _ =>
    exact from_yield hm.refl hnode hstack
  | .pair p =>
    dsimp only
    cases hp : m.store.elements? (.pair p) with
    | none => exact from_failed hm.refl _
    | some items =>
      have hitems := hm.elements hp
      match items with
      | [] => exact from_failed hm.refl _
      | head :: operands =>
        have hready : Site.Ready ⟨head :: operands, span, frame, room⟩ stack m :=
          ⟨hm, ⟨hf, hitems⟩, hstack⟩
        obtain ⟨hhead, hops⟩ := List.forall_mem_cons.1 hitems
        dsimp only
        cases hform : head.value.symbol?.bind Form.ofKeyword? with
        | some form => exact hready.start rfl hform hops
        | none =>
          exact hready.await (.operator head.span operands) trivial
            ⟨List.forall_mem_nil _, Item.forall_code.2 hops⟩ hhead hf

/-- **One step.** The state after it fits, and closures have the names they had, unless a `define`
has named one. -/
theorem Fits.next_from (h : σ.Fits) (hn : σ.next? limit outside = some τ) :
    From σ.machine.store τ ∨ ∃ k name, Naming outside k name σ τ := by
  obtain ⟨control, stack, m⟩ := σ
  match control with
  | .evaluate 0 node frame =>
    cases hn
    exact .inl (from_finish (stop_leads h.whole limit _ node frame) h.stack)
  | .evaluate (room + 1) node frame =>
    cases hn
    exact .inl (begin_from h.whole h.control.2 h.control.1 h.stack)
  | .yield v =>
    cases stack with
    | nil => cases hn
    | cons l stack =>
      obtain ⟨hl, hstack⟩ := List.forall_mem_cons.1 h.stack
      cases hn
      exact Level.resume_from ⟨h.whole, hl.site, hstack⟩ hl.wait h.control
  | .fail e => cases hn

/-- A `define` that names a closure changes the name of no other one. -/
theorem Naming.fits {k : ClosureId} {name : String} (hn : Naming outside k name σ τ) (h : σ.Fits) :
    τ.Fits ∧ σ.machine.store.Extends τ.machine.store ∧
      ∀ l, (τ.machine.store.closure l).name =
        if l = k then some name else (σ.machine.store.closure l).name := by
  cases hn with
  | @intro m c target span stack log unnamed only =>
    obtain ⟨hwhole, hextends⟩ := h.whole.whole_nameClosure k name
    have hv : Node.Refers (m.store.nameClosure k name) ⟨.procedure (.closure k), span⟩ :=
      hextends.refers h.control
    have hbind := hwhole.leadsTo_defineGlobal c.frame name hv
    have hall := hextends.trans hbind.toExtends
    refine ⟨⟨hbind.whole, Store.refers_leaf rfl, fun l hl => ?_⟩, hall, fun l => ?_⟩
    · exact (h.stack l (List.mem_cons_of_mem _ hl)).mono hall
    · have hk : k.index < m.store.closures.size := h.control (.closure k) List.mem_cons_self
      change ((m.store.nameClosure k name).closure l).name = _
      rw [Store.closure_nameClosure]
      by_cases heq : k = l
      · rw [if_pos ⟨heq, hk⟩, if_pos heq.symm]
      · rw [if_neg fun h => heq h.1, if_neg fun h => heq h.symm]

/-- **One step** of an evaluation keeps what there is. -/
theorem Fits.next (h : σ.Fits) (hn : σ.next? limit outside = some τ) :
    τ.Fits ∧ σ.machine.store.Extends τ.machine.store := by
  rcases h.next_from hn with hfrom | ⟨k, name, hnaming⟩
  · exact ⟨hfrom.toFits, hfrom.leads.toExtends⟩
  · obtain ⟨hfits, hextends, -⟩ := hnaming.fits h
    exact ⟨hfits, hextends⟩

/-- The start of an evaluation. -/
theorem fits_evaluate {m : Machine} (hm : m.store.Whole) {node : Node} (hnode : node.Refers m.store)
    {frame : FrameId} (hf : m.store.Has (.frame frame)) (room : Nat) :
    Fits ⟨.evaluate room node frame, [], m⟩ :=
  ⟨hm, ⟨hnode, hf⟩, List.forall_mem_nil _⟩

end State

end MiniScheme
