import MiniScheme.Proofs.Operations
import MiniScheme.Proofs.Registration.Tracked

/-!
# Live frames stay registered during an evaluation

Evaluation is told what is held, and this is what registration asks about. `Leaves` says of a
computation that it leaves a store on which live frames are registered, where what its result refers
to is held besides; if it fails then only what was held before. A computation that goes on with a
result may so rely on the result being held.

An evaluator that is `Tracking` does this for every node that is held and every frame that is held.
Each function of the evaluator does it with parts that do.

## Results

* `Leaves.bind`, `Leaves.next`: one computation after the other.
* `tracking_eval`: whole evaluations.
-/

namespace MiniScheme

variable {ended : FrameId → Prop} {α β : Type} {roots roots' : List Ref} {refs : α → List Ref}
  {refs' : β → List Ref} {m : Machine}

/-- Live frames are registered at the end. The roots are held then, and what the result refers to
if there is one. -/
def Leaves (ended : FrameId → Prop) (roots : List Ref) (refs : α → List Ref) :
    EStateM.Result EvalError Machine α → Prop
  | .ok a m => m.store.Tracked ended (refs a ++ roots)
  | .error _ m => m.store.Tracked ended roots

namespace Leaves

/-- Fewer roots are held at the end. -/
theorem mono {r : EStateM.Result EvalError Machine α} (h : Leaves ended roots refs r)
    (hroots : roots' ⊆ roots) : Leaves ended roots' refs r := by
  cases r with
  | ok a m =>
    refine Store.Tracked.mono h (List.append_subset.2 ⟨List.subset_append_left _ _, ?_⟩)
    exact List.subset_append_of_subset_right _ hroots
  | error e m => exact Store.Tracked.mono h hroots

/-- **One computation after the other.** What the first one holds besides the roots that are left at
the end may be used by the second one. -/
theorem bind {x : EvalM α} {g : α → EvalM β} (hx : Leaves ended roots refs (x m))
    (hroots : roots' ⊆ roots)
    (hg : ∀ a m', m'.store.Tracked ended (refs a ++ roots) → Leaves ended roots' refs' (g a m')) :
    Leaves ended roots' refs' ((x >>= g) m) := by
  change Leaves ended roots' refs' (EStateM.bind x g m)
  unfold EStateM.bind
  cases hr : x m with
  | ok a m' =>
    rw [hr] at hx
    exact hg a m' hx
  | error e m' =>
    rw [hr] at hx
    exact Store.Tracked.mono hx hroots

/-- One computation after the other, while the same is held. -/
theorem next {x : EvalM α} {g : α → EvalM β} (hx : Leaves ended roots refs (x m))
    (hg : ∀ a m', m'.store.Tracked ended (refs a ++ roots) → Leaves ended roots refs' (g a m')) :
    Leaves ended roots refs' ((x >>= g) m) :=
  hx.bind (List.Subset.refl _) hg

end Leaves

/-! ## Computations that need no evaluator -/

section

variable (h : m.store.Tracked ended roots)

include h

theorem leaves_expectSymbol (form : Form) (n : Node) :
    Leaves ended roots (fun _ => []) (expectSymbol form n m) := by
  unfold expectSymbol
  cases n.value.symbol? <;> exact h

/-- The elements of a list that is held. -/
theorem leaves_elements {n : Node} (hn : n.refs ⊆ roots) :
    Leaves ended roots (fun items => refsOf (items.getD [])) (elements? n m) := by
  rw [elements?_run]
  cases hi : m.store.elements? n.value with
  | none => exact h
  | some items =>
    exact h.hold (Store.alive_elements h.whole hi fun r hr => h.alive (hn hr))

theorem leaves_note (event : Store → Event) :
    Leaves ended roots (fun _ => []) (EvalM.note event m) := by
  change (m.note event).store.Tracked ended roots
  rw [Machine.store_note]
  exact h

theorem leaves_parameterNames (before : List String) (ps : List Node) :
    Leaves ended roots (fun _ => []) (parameterNames before ps m) := by
  induction ps generalizing before m with
  | nil => exact h
  | cons p ps ih =>
    rw [parameterNames]
    refine (leaves_expectSymbol h .lambda p).next fun name m h => ?_
    split
    · exact h
    · exact (ih h (name :: before)).next fun names m h => h

theorem leaves_evalName {f : FrameId} (hf : .frame f ∈ roots) (name : String) (span : Span) :
    Leaves ended roots Node.refs (evalName name f span m) := by
  rw [evalName_run]
  cases hv : m.store.lookup? f name with
  | none => exact h
  | some v => exact h.hold (Store.alive_lookup h.whole hv (h.alive hf))

theorem leaves_evalLambda {operands : List Node} (hoperands : refsOf operands ⊆ roots) {f : FrameId}
    (hf : .frame f ∈ roots) (span : Span) :
    Leaves ended roots Node.refs (evalLambda elements? operands f span m) := by
  match operands with
  | [] | [_] | _ :: _ :: _ :: _ => exact h
  | [params, body] =>
    have hparams : params.refs ⊆ roots := fun r hr => hoperands (by simp [refsOf, hr])
    have hbody : body.refs ⊆ roots := fun r hr => hoperands (by simp [refsOf, hr])
    rw [evalLambda]
    refine (leaves_elements h hparams).next fun items m h => ?_
    cases items with
    | none => exact h
    | some nodes =>
      have h := h.mono (List.subset_append_right _ _)
      refine (leaves_parameterNames h [] nodes).next fun names m h => ?_
      exact h.newClosure (k := ⟨none, names, body, f⟩) hbody hf

theorem leaves_applyPrimitive (p : Primitive) {args : List Node} (hargs : refsOf args ⊆ roots)
    (span : Span) : Leaves ended roots Node.refs (applyPrimitive p args span m) := by
  rw [applyPrimitive_run]
  have hargs : ∀ a ∈ args, a.refs ⊆ roots := fun a ha r hr => hargs (List.mem_flatMap.2 ⟨a, ha, hr⟩)
  rcases Primitive.call_change (E := fun _ => True) (fun _ _ _ _ => trivial)
    (fun _ _ => trivial) (fun _ _ => trivial) hargs with ⟨change, hcall, hc⟩ | ⟨e, hcall, -⟩
  · rw [hcall]
    exact h.primitive hc
  · rw [hcall]
    exact h

/-- Entering a closure that is held: the frame of the call is held, and so is the body. -/
theorem leaves_enterClosure {held : List Ref} (hheld : held ⊆ roots) {k : ClosureId}
    (hk : .closure k ∈ held) {args : List Node} (hargs : refsOf args ⊆ roots) (span : Span) :
    Leaves ended held (fun x => .frame x.1 :: x.2.refs) (enterClosure held k args span m) := by
  obtain ⟨log, hrun⟩ := enterClosure_run held k args span m
  rw [hrun]
  split
  · have hframe : m.store.Alive roots (.frame (m.store.closure k).frame) :=
      (h.alive (hheld hk)).reference h.whole (List.mem_append_right _ List.mem_cons_self)
    have hentries : ∀ e ∈ (m.store.closure k).params.zip args, e.2.refs ⊆ roots := fun e he r hr =>
      hargs (List.mem_flatMap.2 ⟨e.2, (List.of_mem_zip he).2, hr⟩)
    have henclose := h.enclose hheld hframe hentries
    -- the closure is held and still has this body
    have hbody : ∀ r ∈ (m.store.closure k).body.refs, Store.Alive _ _ r := fun r hr =>
      (henclose.alive (List.mem_cons_of_mem _ hk)).reference henclose.whole
        (List.mem_append_left _ hr)
    exact (henclose.hold hbody).mono fun r hr => by grind
  · exact h.mono hheld

end

/-! ## Evaluators -/

/-- The evaluator keeps live frames registered, if the node and the frame that it is given are
held. -/
def Tracking (ended : FrameId → Prop) (ev : Evaluator) : Prop :=
  ∀ {held : List Ref} {n : Node} {f : FrameId} {m : Machine}, .frame f ∈ held →
    m.store.Tracked ended (n.refs ++ held) → Leaves ended held Node.refs (ev held n f m)

section

variable {ev : Evaluator} (hev : Tracking ended ev) {held : List Ref} {f : FrameId} {span : Span}

include hev

/-- A part of a form that is held. -/
theorem Tracking.part (h : m.store.Tracked ended roots) (hheld : held ⊆ roots) {n : Node}
    (hn : n.refs ⊆ roots) (hf : .frame f ∈ held) : Leaves ended held Node.refs (ev held n f m) :=
  hev hf (h.mono (List.append_subset.2 ⟨hn, hheld⟩))

/-! ### Calls -/

theorem leaves_evalOperands (h : m.store.Tracked ended held) (hf : .frame f ∈ held)
    {operands : List Node} (hoperands : refsOf operands ⊆ held) :
    Leaves ended held refsOf (evalOperands ev f held operands m) := by
  induction operands generalizing held m with
  | nil => exact h
  | cons e es ih =>
    rw [refsOf_cons, List.append_subset] at hoperands
    rw [evalOperands]
    refine (hev.part h (List.Subset.refl _) hoperands.1 hf).next fun v m h => ?_
    have hmore := List.subset_append_right v.refs held
    refine (ih h (hmore hf) (List.Subset.trans hoperands.2 hmore)).bind hmore fun vs m h => ?_
    exact h.mono fun r hr => by rw [refsOf_cons] at hr; grind

theorem leaves_apply (h : m.store.Tracked ended roots) (hheld : held ⊆ roots) {p : Procedure}
    (hp : p.refs ⊆ held) {args : List Node} (hargs : refsOf args ⊆ roots) (span : Span) :
    Leaves ended held Node.refs (apply ev held p args span m) := by
  cases p with
  | primitive p => exact (leaves_applyPrimitive h p hargs span).mono hheld
  | closure k =>
    refine (leaves_enterClosure h hheld (hp List.mem_cons_self) hargs span).next
      fun ⟨inner, body⟩ m h => ?_
    refine (hev.part h ?_ ?_ List.mem_cons_self).mono (List.subset_cons_self _ _)
    · exact fun r hr => by grind
    · exact fun r hr => by grind

theorem leaves_evalCall (h : m.store.Tracked ended held) (hf : .frame f ∈ held) {operator : Node}
    {operands : List Node} (hform : refsOf (operator :: operands) ⊆ held) (span : Span) :
    Leaves ended held Node.refs (evalCall ev held operator operands f span m) := by
  rw [refsOf_cons, List.append_subset] at hform
  rw [evalCall]
  refine (hev.part h (List.Subset.refl _) hform.1 hf).next fun v m h => ?_
  rw [Node.refs] at h
  cases hv : v.value with
  | procedure p =>
    have hmore := List.subset_append_right p.refs held
    rw [hv] at h
    refine (leaves_evalOperands hev h (hmore hf) (List.Subset.trans hform.2 hmore)).bind hmore
      fun args m h => ?_
    exact (leaves_apply hev h (List.subset_append_right _ _) (List.subset_append_left _ _)
      (List.subset_append_left _ _) span).mono hmore
  | atom | nil | pair | unspecified => exact h.mono (List.subset_append_right _ _)

/-! ### Definition and assignment -/

theorem leaves_evalDefine (h : m.store.Tracked ended held) (hf : .frame f ∈ held)
    {operands : List Node} (hoperands : refsOf operands ⊆ held) (span : Span) :
    Leaves ended held Node.refs (evalDefine ev held operands f span m) := by
  match operands with
  | [] | [_] | _ :: _ :: _ :: _ => exact h
  | [target, e] =>
    have he : e.refs ⊆ held := fun r hr => hoperands (by simp [refsOf, hr])
    rw [evalDefine]
    refine (leaves_expectSymbol h .define target).next fun name m h => ?_
    refine (hev.part h (List.Subset.refl _) he hf).next fun v m h => ?_
    obtain ⟨log, hrun⟩ := bindGlobal_run held f name v m
    have hbind : Leaves ended held (fun _ => []) (bindGlobal held f name v m) := by
      rw [hrun]
      exact ((h.nameFresh held v.value name).defineGlobal f (List.subset_append_left _ _)).mono
        (List.subset_append_right _ _)
    exact hbind.next fun _ m h => h

theorem leaves_evalAssign (h : m.store.Tracked ended held) (hf : .frame f ∈ held)
    {operands : List Node} (hoperands : refsOf operands ⊆ held) (span : Span) :
    Leaves ended held Node.refs (evalAssign ev held operands f span m) := by
  match operands with
  | [] | [_] | _ :: _ :: _ :: _ => exact h
  | [target, e] =>
    have he : e.refs ⊆ held := fun r hr => hoperands (by simp [refsOf, hr])
    rw [evalAssign]
    refine (leaves_expectSymbol h .assign target).next fun name m h => ?_
    refine (hev.part h (List.Subset.refl _) he hf).next fun v m h => ?_
    have hassign : Leaves ended held (fun _ => []) (assignName f name v target.span m) := by
      rw [assignName_run]
      cases hg : m.store.owner? f name with
      | none => exact h.mono (List.subset_append_right _ _)
      | some g =>
        exact (h.bind_owner (List.subset_append_left _ _) hg).mono (List.subset_append_right _ _)
    exact hassign.next fun _ m h => h

/-! ### Sequences and bindings -/

theorem leaves_evalSequence (last : List Ref) (hf : .frame f ∈ held)
    (h : m.store.Tracked ended (last ++ held)) {e : Node} {es : List Node}
    (hes : refsOf (e :: es) ⊆ held) :
    Leaves ended held Node.refs (evalSequence ev held f last e es m) := by
  induction es generalizing last e m with
  | nil =>
    rw [refsOf_cons, List.append_subset] at hes
    have hmore := List.subset_append_right last held
    exact (hev.part h (List.Subset.refl _) (List.Subset.trans hes.1 hmore) (hmore hf)).mono hmore
  | cons e' es ih =>
    rw [refsOf_cons, List.append_subset] at hes
    have hmore := List.subset_append_right last held
    rw [evalSequence]
    refine (hev.part h (List.Subset.refl _) (List.Subset.trans hes.1 hmore) (hmore hf)).bind hmore
      fun v m h => ih v.refs h.drop hes.2

theorem leaves_evalBindings (h : m.store.Tracked ended held) (hf : .frame f ∈ held)
    {bs : List Node} (hbs : refsOf bs ⊆ held) (before : List String) :
    Leaves ended held (fun entries => refsOf (entries.map Prod.snd))
      (evalBindings elements? ev f held before bs m) := by
  induction bs generalizing held before m with
  | nil => exact h
  | cons b bs ih =>
    rw [refsOf_cons, List.append_subset] at hbs
    rw [evalBindings]
    refine (leaves_elements h hbs.1).next fun items m h => ?_
    split
    · rename_i target e
      refine (leaves_expectSymbol h .bind target).bind (List.subset_append_right _ _)
        fun name m h => ?_
      split
      · exact h.mono (List.subset_append_right _ _)
      · have h : m.store.Tracked ended (refsOf [target, e] ++ held) := h
        have he : e.refs ⊆ refsOf [target, e] ++ held := fun r hr => by simp [refsOf, hr]
        have hmore := List.subset_append_right (refsOf [target, e]) held
        refine (hev.part h (List.Subset.refl _) he (hmore hf)).bind hmore fun v m h => ?_
        have hmore := List.subset_append_right v.refs held
        refine (ih h.drop (hmore hf) (List.Subset.trans hbs.2 hmore) _).bind hmore fun es m h => ?_
        change Store.Tracked _ ended ((v.refs ++ refsOf (es.map Prod.snd)) ++ held)
        exact h.mono fun r hr => by grind
    · exact h.mono (List.subset_append_right _ _)

theorem leaves_evalBind (h : m.store.Tracked ended held) (hf : .frame f ∈ held)
    {operands : List Node} (hoperands : refsOf operands ⊆ held) (span : Span) :
    Leaves ended held Node.refs (evalBind elements? ev held operands f span m) := by
  match operands with
  | [] | [_] => exact h
  | bindings :: e :: es =>
    rw [refsOf_cons, List.append_subset] at hoperands
    rw [evalBind]
    refine (leaves_elements h hoperands.1).next fun items m h => ?_
    cases items with
    | none => exact h
    | some nodes =>
      have hmore := List.subset_append_right (refsOf nodes) held
      refine (leaves_evalBindings hev h (hmore hf) (List.subset_append_left _ _) []).bind hmore
        fun entries m h => ?_
      have hentries : ∀ entry ∈ entries, entry.2.refs ⊆
          refsOf (entries.map Prod.snd) ++ (refsOf nodes ++ held) := fun entry he r hr =>
        List.mem_append_left _ (List.mem_flatMap.2 ⟨_, List.mem_map_of_mem he, hr⟩)
      have henclose := h.enclose (List.subset_append_right _ _)
        (h.alive (List.mem_append_right _ (hmore hf))) hentries
      have hinner : Leaves ended (refsOf nodes ++ held) (fun g => [.frame g]) (EvalM.transform
          (fun s => s.enclose (refsOf nodes ++ held) f entries) m) := henclose
      refine hinner.bind hmore fun inner m h => ?_
      have hmore : held ⊆ .frame inner :: (refsOf nodes ++ held) :=
        List.Subset.trans hmore (List.subset_cons_self _ _)
      exact (leaves_evalSequence hev [] List.mem_cons_self h
        (List.Subset.trans hoperands.2 hmore)).mono hmore

/-! ### Choice -/

theorem leaves_evalConditional (h : m.store.Tracked ended held) (hf : .frame f ∈ held)
    {operands : List Node} (hoperands : refsOf operands ⊆ held) (span : Span) :
    Leaves ended held Node.refs (evalConditional ev held operands f span m) := by
  have hpart {n : Node} (hn : n ∈ operands) : n.refs ⊆ held := fun r hr =>
    hoperands (List.mem_flatMap.2 ⟨n, hn, hr⟩)
  have hstart {n : Node} (hn : n ∈ operands) := hev.part h (List.Subset.refl _) (hpart hn) hf
  match operands with
  | [] | [_] | _ :: _ :: _ :: _ :: _ => exact h
  | [condition, consequent] =>
    rw [evalConditional]
    refine (hstart (by simp)).next fun v m h => ?_
    have h := h.mono (List.subset_append_right _ _)
    split
    · exact hev.part h (List.Subset.refl _) (hpart (by simp)) hf
    · exact h
  | [condition, consequent, alternate] =>
    rw [evalConditional]
    refine (hstart (by simp)).next fun v m h => ?_
    have h := h.mono (List.subset_append_right _ _)
    split
    · exact hev.part h (List.Subset.refl _) (hpart (by simp)) hf
    · exact hev.part h (List.Subset.refl _) (hpart (by simp)) hf

theorem leaves_evalClauseBody (hf : .frame f ∈ held) {test : Node}
    (h : m.store.Tracked ended (test.refs ++ held)) {body : List Node}
    (hbody : refsOf body ⊆ held) :
    Leaves ended held Node.refs (evalClauseBody ev held f test body m) := by
  match body with
  | [] => exact h
  | e :: es =>
    have hmore := List.subset_append_right test.refs held
    exact (leaves_evalSequence hev [] (hmore hf) h (List.Subset.trans hbody hmore)).mono
      hmore

theorem leaves_evalClauses (h : m.store.Tracked ended held) (hf : .frame f ∈ held)
    {clauses : List Node} (hclauses : refsOf clauses ⊆ held) (span : Span) :
    Leaves ended held Node.refs (evalClauses elements? ev held f span clauses m) := by
  induction clauses generalizing m with
  | nil => exact h
  | cons clause rest ih =>
    rw [refsOf_cons, List.append_subset] at hclauses
    rw [evalClauses]
    refine (leaves_elements h hclauses.1).next fun items m h => ?_
    split
    · rename_i test body
      have hmore := List.subset_append_right (refsOf (test :: body)) held
      have hparts : refsOf (test :: body) ⊆ refsOf (test :: body) ++ held :=
        List.subset_append_left _ _
      split
      · split
        · rename_i e es
          have hbody : refsOf (e :: es) ⊆ refsOf (test :: e :: es) ++ held := fun r hr => by
            rw [refsOf_cons test]
            simp [hr]
          exact (leaves_evalSequence hev [] (hmore hf) h hbody).mono hmore
        · exact h.mono hmore
      · have htest : test.refs ⊆ refsOf (test :: body) ++ held := fun r hr => by
          rw [refsOf_cons]
          simp [hr]
        have hbody : refsOf body ⊆ refsOf (test :: body) ++ held := fun r hr => by
          rw [refsOf_cons]
          simp [hr]
        refine (hev.part h (List.Subset.refl _) htest (hmore hf)).bind hmore fun v m h => ?_
        split
        · exact (leaves_evalClauseBody hev (hmore hf) h hbody).mono hmore
        · exact ih (h.mono (List.subset_append_of_subset_right _ hmore)) hclauses.2
    · exact h.mono (List.subset_append_right _ _)

theorem leaves_evalConjunction (hf : .frame f ∈ held) {last : Node}
    (h : m.store.Tracked ended (last.refs ++ held)) {es : List Node} (hes : refsOf es ⊆ held) :
    Leaves ended held Node.refs (evalConjunction ev held f last es m) := by
  induction es generalizing last m with
  | nil => exact h
  | cons e es ih =>
    rw [refsOf_cons, List.append_subset] at hes
    have hmore := List.subset_append_right last.refs held
    rw [evalConjunction]
    refine (hev.part h (List.Subset.refl _) (List.Subset.trans hes.1 hmore) (hmore hf)).bind hmore
      fun v m h => ?_
    split
    · exact ih h.drop hes.2
    · exact h.drop

theorem leaves_evalDisjunction (h : m.store.Tracked ended held) (hf : .frame f ∈ held)
    {es : List Node} (hes : refsOf es ⊆ held) (span : Span) :
    Leaves ended held Node.refs (evalDisjunction ev held f span es m) := by
  induction es generalizing m with
  | nil => exact h
  | cons e es ih =>
    rw [refsOf_cons, List.append_subset] at hes
    rw [evalDisjunction]
    refine (hev.part h (List.Subset.refl _) hes.1 hf).next fun v m h => ?_
    split
    · exact h
    · exact ih (h.mono (List.subset_append_right _ _)) hes.2

/-! ### One level -/

theorem leaves_evalForm (h : m.store.Tracked ended held) (hf : .frame f ∈ held) (form : Form)
    {operands : List Node} (hoperands : refsOf operands ⊆ held) (span : Span) :
    Leaves ended held Node.refs (evalForm elements? ev held form operands f span m) := by
  cases form with
  | quote =>
    match operands with
    | [] | _ :: _ :: _ => exact h
    | [node] =>
      exact h.mono (List.append_subset.2 ⟨fun r hr => hoperands (by simp [refsOf, hr]),
        List.Subset.refl _⟩)
  | conditional => exact leaves_evalConditional hev h hf hoperands span
  | define => exact leaves_evalDefine hev h hf hoperands span
  | assign => exact leaves_evalAssign hev h hf hoperands span
  | lambda => exact leaves_evalLambda h hoperands hf span
  | bind => exact leaves_evalBind hev h hf hoperands span
  | sequence =>
    match operands with
    | [] => exact h
    | e :: es => exact leaves_evalSequence hev [] hf h hoperands
  | clauses =>
    rw [evalForm]
    split
    · exact h
    · exact leaves_evalClauses hev h hf hoperands span
  | conjunction =>
    exact leaves_evalConjunction hev hf h hoperands
  | disjunction => exact leaves_evalDisjunction hev h hf hoperands span

/-- **One level** of nesting. -/
theorem tracking_step : Tracking ended (step elements? ev) := by
  intro held n f m hf h
  have hdone : Leaves ended held Node.refs (.ok n m) := h
  have hn := List.subset_append_left n.refs held
  have hmore := List.subset_append_right n.refs held
  unfold step
  obtain ⟨v, place⟩ := n
  match v with
  | .atom (.symbol name) => exact leaves_evalName (h.mono hmore) hf name place
  | .atom (.integer _) | .atom (.boolean _) | .nil | .procedure _ | .unspecified => exact hdone
  | .pair c =>
    refine (leaves_elements h hn).bind hmore fun items m h => ?_
    split
    · rename_i head operands
      have h : m.store.Tracked ended (refsOf (head :: operands) ++ held) := h.drop
      have hmore := List.subset_append_right (refsOf (head :: operands)) held
      dsimp only
      cases head.value.symbol?.bind Form.ofKeyword? with
      | some form =>
        refine (leaves_evalForm hev h (hmore hf) form ?_ place).mono hmore
        exact fun r hr => List.mem_append_left _ (List.mem_append_right head.refs hr)
      | none =>
        exact (leaves_evalCall hev h (hmore hf) (List.subset_append_left _ _) place).mono hmore
    · exact h.mono (List.Subset.trans hmore (List.subset_append_right _ _))

end

theorem tracking_stop (limit : Nat) : Tracking ended (stop limit) := by
  intro held n f m hf h
  exact (leaves_note (h.mono (List.subset_append_right _ _)) _).next fun _ m h => h

/-- **Whole evaluations** keep live frames registered. -/
theorem tracking_eval (ended : FrameId → Prop) (limit room : Nat) :
    Tracking ended (eval limit room) := by
  induction room with
  | zero => exact tracking_stop limit
  | succ room ih => exact tracking_step ih

end MiniScheme
