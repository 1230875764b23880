import MiniScheme.Proofs.Binding.Forms
import MiniScheme.Proofs.Isolation.Agreement

/-!
# A `let` is a call of a `lambda`

The two forms take different ways through the evaluator: a `let` takes its bindings apart one after
the other, while a call first makes a closure, evaluates its operands, and then enters the closure.
Both come to `evalBeneath`: the expressions in order, then a frame with the names, then the body.
That run needs no form at all, so it can be made in the store without either. Each form is evaluated
as `evalBeneath` is, in the surroundings that are the form: its pairs and, for a call, the closure.
The surroundings hold the expressions on to the end, and so does `evalBeneath`.

## Results

* `IsLet.alike`, `IsCall.alike`: the two forms are evaluated like `evalBeneath`.
* `let_agrees_with_call`: the same answer, at every limit.
-/

namespace MiniScheme

/-- Evaluates the expressions in order, in the frame, and the body beneath it with the names bound
to the values. -/
def evalBeneath (ev : Evaluator) (held : List Ref) (bs : List Binding) (body : Node)
    (f : FrameId) : EvalM Node := do
  let vs ← evalOperands ev f held (bs.map Binding.value)
  let inner ← EvalM.transform fun s => s.enclose held f ((bs.map Binding.name).zip vs)
  ev (.frame inner :: held) body inner

theorem evalOperands_length {ev : Evaluator} {f : FrameId} {es vs : List Node} {held : List Ref}
    {m m' : Machine} (h : evalOperands ev f held es m = .ok vs m') : vs.length = es.length := by
  induction es generalizing held vs m with
  | nil =>
    cases h
    rfl
  | cons e es ih =>
    obtain ⟨v, m₁, -, h⟩ := EvalM.bind_eq_ok h
    obtain ⟨rest, m₂, hrest, h⟩ := EvalM.bind_eq_ok h
    cases h
    rw [List.length_cons, List.length_cons, ih hrest]

/-! ## What a form comes to -/

section

variable {ev : Evaluator} {held : List Ref} {f : FrameId} {m : Machine} {span : Span}

/-- A list that starts with no keyword is a call, any other is a form. -/
theorem step_of_elements {n head : Node} {operands : List Node} {c : CellId}
    (hpair : n.value = .pair c) (hitems : m.store.elements? n.value = some (head :: operands)) :
    step elements? ev held n f m =
      (match Likeness.formOf head with
        | some form =>
          evalForm elements? ev (refsOf (head :: operands) ++ held) form operands f n.span
        | none => evalCall ev (refsOf (head :: operands) ++ held) head operands f n.span) m := by
  obtain ⟨v, span⟩ := n
  obtain rfl : v = .pair c := hpair
  unfold step
  simp only [bind, EStateM.bind, elements?_run, hitems]
  rfl

/-- A `let` with one body. -/
theorem evalBind_of_elements {bindings body : Node} {nodes : List Node}
    (hnodes : m.store.elements? bindings.value = some nodes) :
    evalBind elements? ev held [bindings, body] f span m =
      (evalBindings elements? ev f (refsOf nodes ++ held) [] nodes >>= fun entries =>
        EvalM.transform (fun s => s.enclose (refsOf nodes ++ held) f entries) >>= fun inner =>
          ev (.frame inner :: (refsOf nodes ++ held)) body inner) m := by
  unfold evalBind
  simp only [bind, EStateM.bind, elements?_run, hnodes]
  rfl

/-- The first of several bindings, with a name that is new. -/
theorem evalBindings_of_elements {b e : Node} {nodes : List Node} {before : List String}
    {name : String} {place : Span}
    (hb : m.store.elements? b.value = some [.symbol name place, e]) (hnew : name ∉ before) :
    evalBindings elements? ev f held before (b :: nodes) m =
      (ev (refsOf [.symbol name place, e] ++ held) e f >>= fun v =>
        evalBindings elements? ev f (v.refs ++ held) (name :: before) nodes >>= fun entries =>
          pure ((name, v) :: entries)) m := by
  have hcontains : ¬before.contains name = true := by simpa using hnew
  have hsymbol : expectSymbol .bind (.symbol name place) = pure name := rfl
  rw [evalBindings]
  simp only [bind, EStateM.bind, elements?_run, hb, hsymbol, pure, EStateM.pure, if_neg hcontains]

/-- A call whose operator is evaluated to a closure. -/
theorem evalCall_of_closure {operator : Node} {operands : List Node} {k : ClosureId} {s : Span}
    {m₁ : Machine} (hk : ev held operator f m = .ok ⟨.procedure (.closure k), s⟩ m₁) :
    evalCall ev held operator operands f span m =
      (evalOperands ev f (.closure k :: held) operands >>= fun args =>
        enterClosure (.closure k :: held) k args span >>= fun x =>
          ev (.frame x.1 :: .closure k :: held) x.2 x.1) m₁ := by
  unfold evalCall
  simp only [bind, EStateM.bind, hk]
  rfl

/-- A `lambda` whose parameters are distinct names. -/
theorem evalLambda_of_elements {params body : Node} {nodes : List Node} {names : List String}
    (hnodes : m.store.elements? params.value = some nodes)
    (hnames : nodes.map (·.value.symbol?) = names.map some) (hnodup : names.Nodup) :
    evalLambda elements? [params, body] f span m =
      .ok ⟨.procedure (.closure (m.store.newClosure ⟨none, names, body, f⟩).1), span⟩
        { m with store := (m.store.newClosure ⟨none, names, body, f⟩).2 } := by
  have hsplit : elements? params m = .ok (some nodes) m := by rw [elements?_run, hnodes]
  have hparams : parameterNames [] nodes m = .ok names m :=
    parameterNames_of_symbols hnames hnodup (fun _ _ => List.not_mem_nil) m
  rw [evalLambda_some hsplit]
  simp only [bind, EStateM.bind, hparams]
  rfl

end

/-! ## A form in its store -/

open MiniScheme.Embedding

/-- The expression is inside, its own partner, and held. -/
structure Ready (e : Embedding) (held : List Ref) (n : Node) : Prop where
  same : e.same.Nodes n n
  held : ∀ r ∈ n.refs, r ∈ held

theorem Ready.mono {e e' : Embedding} {held rs : List Ref} {n : Node} (h : Ready e held n)
    (hle : e ≤ e') : Ready e' (rs ++ held) n where
  same := h.same.mono hle.1
  held r hr := List.mem_append_right _ (h.held r hr)

/-- The left side holds the partners of what an expression refers to. -/
theorem Ready.partner {e : Embedding} {held : List Ref} {n : Node} (h : Ready e held n) {r : Ref}
    (hr : r ∈ n.refs) : ∃ q ∈ held, e.same q r :=
  ⟨r, h.held r hr, List.forall₂_same.1 h.same.value.refs r hr⟩

/-- A run in a store and a run of a form in its surroundings are about to begin. -/
structure Staged (e : Embedding) (m m' : Machine) (h h' : List Ref) (f : FrameId)
    (bs : List Binding) (body : Node) : Prop where
  embeds : Embeds e m.store m'.store
  old : ∀ r, m.store.Has r → e.same r r
  holding : Embeds.Held e h h'
  frame : e.same (.frame f) (.frame f)
  bodyReady : Ready e h body
  valuesReady : ∀ b ∈ bs, Ready e h b.value
  frameAnchored : e.anchored (.frame f)
  bodyAnchored : ∀ r ∈ body.refs, e.anchored r

/-- What a form around the expressions refers to, with the frame that it is evaluated in. -/
def anchors (bs : List Binding) (body : Node) (f : FrameId) : List Ref :=
  .frame f :: refsOf (body :: bs.map Binding.value)

/-- A whole store with a frame and expressions in it. The frame is held. -/
structure Grounded (s : Store) (held : List Ref) (f : FrameId) (bs : List Binding) (body : Node) :
    Prop where
  whole : s.Whole
  has : ∀ r ∈ held, s.Has r
  frame : .frame f ∈ held
  bodyRefers : body.Refers s
  valuesRefer : ∀ b ∈ bs, b.value.Refers s

theorem mem_anchors_body {bs : List Binding} {body : Node} {f : FrameId} {r : Ref}
    (hr : r ∈ body.refs) : r ∈ anchors bs body f :=
  List.mem_cons_of_mem _ (List.mem_flatMap.2 ⟨body, List.mem_cons_self, hr⟩)

theorem mem_anchors_value {bs : List Binding} {body : Node} {f : FrameId} {b : Binding}
    (hb : b ∈ bs) {r : Ref} (hr : r ∈ b.value.refs) : r ∈ anchors bs body f :=
  List.mem_cons_of_mem _
    (List.mem_flatMap.2 ⟨b.value, List.mem_cons_of_mem _ (List.mem_map_of_mem hb), hr⟩)

namespace Grounded

variable {m m' : Machine} {held : List Ref} {f : FrameId} {bs : List Binding} {body form : Node}
  {e : Embedding} (hg : Grounded m.store held f bs body)

include hg

theorem has_anchors : ∀ r ∈ anchors bs body f, m.store.Has r := by
  refine List.forall_mem_cons.2 ⟨hg.has _ hg.frame, fun r hr => ?_⟩
  obtain ⟨n, hn, hmem⟩ := List.mem_flatMap.1 hr
  rcases List.mem_cons.1 hn with rfl | hn
  · exact hg.bodyRefers r hmem
  · obtain ⟨b, hb, rfl⟩ := List.mem_map.1 hn
    exact hg.valuesRefer b hb r hmem

theorem embeds : Embeds (.within m.store (· ∈ anchors bs body f)) m.store m.store :=
  .within hg.whole hg.has_anchors

/-- **The stage is set** by any form that is built around the expressions and leads to them. -/
theorem staged (hw : (Embedding.within m.store (· ∈ anchors bs body f)).Widens e)
    (hm : Embeds e m.store m'.store) (hform : ∀ r ∈ form.refs, e.foreign r)
    (hreached : (∀ r ∈ form.refs, Embeds.Reached e (form.refs ++ held) r) →
      ∀ r ∈ refsOf (body :: bs.map Binding.value), Embeds.Reached e (form.refs ++ held) r) :
    Staged e m m' (anchors bs body f ++ held) (form.refs ++ held) f bs body := by
  have hsame : e.same = m.store.self := hw.same
  have hanchored {r : Ref} (hr : r ∈ anchors bs body f) : e.anchored r := by
    rw [hw.anchored]
    exact hr
  have hnode {n : Node} (hn : n.Refers m.store) : e.same.Nodes n n := by
    rw [hsame]
    exact Store.nodes_self hn
  refine ⟨hm, fun r hr => ?_, ?_, ?_, ⟨hnode hg.bodyRefers, fun r hr => ?_⟩,
    fun b hb => ⟨hnode (hg.valuesRefer b hb), fun r hr => ?_⟩, hanchored List.mem_cons_self,
    fun r hr => hanchored (mem_anchors_body hr)⟩
  · rw [hsame]
    exact ⟨rfl, hr⟩
  · refine Embeds.held_within hw hg.has_anchors hg.has hform ?_
    exact List.forall_mem_cons.2 ⟨.held (List.mem_append_right _ hg.frame),
      hreached fun r hr => .held (List.mem_append_left _ hr)⟩
  · rw [hsame]
    exact ⟨rfl, hg.has _ hg.frame⟩
  · exact List.mem_append_left _ (mem_anchors_body hr)
  · exact List.mem_append_left _ (mem_anchors_value hb hr)

end Grounded

/-! ## The forms as runs -/

section

variable {ev : Evaluator} {e : Embedding} {h h' : List Ref} {f : FrameId} {m m' : Machine}
  {bs : List Binding} {body form : Node}

theorem enclose_alike (held held' : List Ref) (hm : Embeds e m.store m'.store)
    (hf : e.same (.frame f) (.frame f))
    {es es' : List (String × Node)} (hes : List.Forall₂ e.same.Entries es es') :
    ownRun.Alike e ownRun.frame (EvalM.transform (fun s => s.enclose held f es) m)
      (EvalM.transform (fun s => s.enclose held' f es') m') := by
  obtain ⟨e', hle, hm', hg⟩ := hm.enclose hf hes held held'
  rw [enclose_run, enclose_run]
  exact ownRun.alike_ok hle hm' hg

/-- **The bindings of a `let` are evaluated as operands are**, by induction on the bindings: those
that are still to come are foreign, so they are what they were. -/
theorem evalBindings_alike (hev : ownRun.Evaluators ev ev) {nodes : List Node}
    {before : List String} (hm : Embeds e m.store m'.store) (hh : Embeds.Held e h h')
    (hf : e.same (.frame f) (.frame f)) (hvalues : ∀ b ∈ bs, Ready e h b.value)
    (hnodes : List.Forall₂ e.IsBinding bs nodes) (hnodup : (bs.map Binding.name).Nodup)
    (hfresh : ∀ b ∈ bs, b.name ∉ before) :
    ownRun.Alike e
      (fun u vs es => List.Forall₂ u.same.Entries ((bs.map Binding.name).zip vs) es)
      (evalOperands ev f h (bs.map Binding.value) m)
      (evalBindings elements? ev f h' before nodes m') := by
  induction bs generalizing e m m' h h' before nodes with
  | nil =>
    cases hnodes
    exact .pure hm .nil
  | cons b bs ih =>
    obtain _ | ⟨hb, hnodes⟩ := hnodes
    obtain ⟨hvalue, hvalues⟩ := List.forall_mem_cons.1 hvalues
    obtain ⟨hnew, hfresh⟩ := List.forall_mem_cons.1 hfresh
    obtain ⟨hname, hnodup⟩ := List.nodup_cons.1 hnodup
    rw [evalBindings_of_elements (hm.elements?_spine hb) hnew]
    have hheld : Embeds.Held e h (refsOf [.symbol b.name b.place, b.value] ++ h') := by
      refine hh.append_right fun r hr => .inl (hvalue.partner ?_)
      simpa [refsOf] using hr
    refine .bind (hev hm hheld hf hvalue.same) fun u v v' m m' hu hm hv => ?_
    have hothers : ∀ c ∈ bs, c.name ∉ b.name :: before := by
      intro c hc hmem
      rcases List.mem_cons.1 hmem with heq | hmem
      · exact hname (heq ▸ List.mem_map_of_mem hc)
      · exact hfresh c hc hmem
    refine .bind (ih hm ((hh.mono hu).append hv.value.refs) (hu.1 _ _ hf)
      (fun c hc => (hvalues c hc).mono hu) (hnodes.imp fun _ _ hc => Spine.le hc hu) hnodup
      hothers) fun x vs es m m' hx hm hes => ?_
    exact .pure hm (.cons ⟨rfl, hv.mono hx.1⟩ hes)

/-- **A `let` is evaluated like `evalBeneath`.** -/
theorem Embedding.IsLet.alike (hev : ownRun.Evaluators ev ev) (hlet : e.IsLet bs body form)
    (hs : Staged e m m' h h' f bs body) (hnodup : (bs.map Binding.name).Nodup) :
    ownRun.Alike e ownRun.value (evalBeneath ev h bs body f m)
      (step elements? ev h' form f m') := by
  obtain ⟨hm, -, hh, hf, hbody, hvalues, -⟩ := hs
  obtain ⟨keyword, bindings, nodes, hform, hlist, hnodes⟩ := hlet
  obtain ⟨c, hc⟩ := hform.exists_pair
  rw [step_of_elements hc (hm.elements?_spine hform)]
  change ownRun.Alike e ownRun.value _ (evalBind elements? ev _ [bindings, body] f form.span m')
  rw [evalBind_of_elements (hm.elements?_spine hlist)]
  have hparts : Embeds.Held e h
      (refsOf [.symbol Form.bind.keyword keyword, bindings, body] ++ h') := by
    refine hh.append_right fun r hr => ?_
    have hr : r ∈ bindings.refs ∨ r ∈ body.refs := by simpa [refsOf] using hr
    exact hr.symm.imp hbody.partner (hlist.foreign r)
  have hforeign : ∀ r ∈ refsOf nodes, e.foreign r := by
    intro r hr
    obtain ⟨n, hn, hr⟩ := List.mem_flatMap.1 hr
    obtain ⟨b, -, hb⟩ := (Embeds.forall_of_rel hnodes).2 n hn
    exact Spine.foreign hb r hr
  have hheld := hparts.append_right fun r hr => .inr (hforeign r hr)
  refine .bind (evalBindings_alike hev hm hheld hf hvalues hnodes hnodup
    fun _ _ => List.not_mem_nil) fun u vs es m m' hu hm hes => ?_
  refine .bind (enclose_alike _ _ hm (hu.1 _ _ hf) hes) fun x g g' m m' hx hm hg => ?_
  exact hev hm ((hheld.mono (hu.trans hx)).append (.cons hg .nil)) hg
    (hbody.same.mono (hu.trans hx).1)

/-- The operator of a call is evaluated to a closure. -/
theorem eval_operator {limit room : Nat} {procedure params : Node} {keyword : Span} {s : Store}
    (hm : Embeds e s m.store)
    (hprocedure : e.Spine procedure.value [.symbol Form.lambda.keyword keyword, params, body])
    (hparams : e.Spine params.value (bs.map fun b => .symbol b.name b.parameter))
    (hnodup : (bs.map Binding.name).Nodup) (held : List Ref) :
    let k := m.store.newClosure ⟨none, bs.map Binding.name, body, f⟩
    eval limit (room + 1) held procedure f m =
      .ok ⟨.procedure (.closure k.1), procedure.span⟩ { m with store := k.2 } := by
  obtain ⟨c, hc⟩ := hprocedure.exists_pair
  have hnames : (bs.map fun b => Node.symbol b.name b.parameter).map (·.value.symbol?) =
      (bs.map Binding.name).map some := by
    rw [List.map_map, List.map_map]
    rfl
  change step elements? (eval limit room) held procedure f m = _
  rw [step_of_elements hc (hm.elements?_spine hprocedure)]
  exact evalLambda_of_elements (hm.elements?_spine hparams) hnames hnodup

/-- A list is no keyword. -/
theorem formOf_of_spine {n item : Node} {items : List Node} (h : e.Spine n.value (item :: items)) :
    Likeness.formOf n = none := by
  obtain ⟨c, hc⟩ := h.exists_pair
  unfold Likeness.formOf
  rw [hc]
  rfl

/-- Entering a closure that is foreign, with as many arguments as it has parameters. -/
theorem enter_alike (hm : Embeds e m.store m'.store) (hf : e.same (.frame f) (.frame f))
    {k : ClosureId} {names : List String} (hk : e.foreign (.closure k))
    (hclosure : e.origin.closure k = ⟨none, names, body, f⟩) {vs vs' : List Node}
    (hvs : List.Forall₂ e.same.Nodes vs vs') (hlength : vs.length = names.length) (span : Span)
    (held held' : List Ref) :
    ownRun.Alike e (fun u g x => u.same (.frame g) (.frame x.1) ∧ x.2 = body)
      (EvalM.transform (fun s => s.enclose held f (names.zip vs)) m)
      (enterClosure held' k vs' span m') := by
  have hkept : m'.store.closure k = ⟨none, names, body, f⟩ :=
    Eq.trans (hm.kept hk).2 hclosure
  obtain ⟨log, hrun⟩ := enterClosure_run held' k vs' span m'
  rw [hrun, hkept, enclose_run, if_pos (hlength.symm.trans hvs.length_eq)]
  obtain ⟨e', hle, hm', hg⟩ := hm.enclose hf (ownRun.entries_zip hvs names) held held'
  exact ownRun.alike_ok hle hm' ⟨hg, rfl⟩

/-- **A call is evaluated like `evalBeneath`**, once it has made its closure. -/
theorem Embedding.IsCall.alike (limit room : Nat) (hcall : e.IsCall bs body form)
    (hs : Staged e m m' h h' f bs body) (hnodup : (bs.map Binding.name).Nodup) :
    ∃ e', e.Widens e' ∧ ownRun.Alike e' ownRun.value
      (evalBeneath (eval limit (room + 1)) h bs body f m)
      (eval limit (room + 2) h' form f m') := by
  obtain ⟨hm, -, hh, hf, hbody, hvalues, hframe, hanchored⟩ := hs
  obtain ⟨keyword, procedure, params, hform, hprocedure, hparams⟩ := hcall
  obtain ⟨c, hc⟩ := hform.exists_pair
  obtain ⟨e', hw, hm', hk, hclosure⟩ :=
    hm.surroundClosure (k := ⟨none, bs.map Binding.name, body, f⟩) hframe hanchored
  refine ⟨e', hw, ?_⟩
  change ownRun.Alike e' ownRun.value _ (step elements? (eval limit (room + 1)) h' form f m')
  rw [step_of_elements hc (hm.elements?_spine hform), formOf_of_spine hprocedure]
  dsimp only
  rw [evalCall_of_closure (eval_operator hm hprocedure hparams hnodup _)]
  have hsame {n : Node} (hn : Ready e h n) : e'.same.Nodes n n := hw.same ▸ hn.same
  have hoperands : List.Forall₂ e'.same.Nodes (bs.map Binding.value) (bs.map Binding.value) :=
    List.forall₂_same.2 fun n hn => by
      obtain ⟨b, hb, rfl⟩ := List.mem_map.1 hn
      exact hsame (hvalues b hb)
  have hparts : Embeds.Held e h (refsOf (procedure :: bs.map Binding.value) ++ h') := by
    refine hh.append_right fun r hr => ?_
    obtain ⟨n, hn, hmem⟩ := List.mem_flatMap.1 hr
    rcases List.mem_cons.1 hn with rfl | hn
    · exact .inr (hprocedure.foreign r hmem)
    · obtain ⟨b, hb, rfl⟩ := List.mem_map.1 hn
      exact .inl ((hvalues b hb).partner hmem)
  have hheld := (hparts.widen hw).append_right (List.forall_mem_singleton.2 (.inr hk))
  have hev := ownRun.evaluators limit (room + 1)
  have hf' : e'.same (.frame f) (.frame f) := hw.same ▸ hf
  have hmade : ownRun.machine e' m { m' with store :=
      (m'.store.newClosure ⟨none, bs.map Binding.name, body, f⟩).2 } := hm'
  refine .bind ((ownRun.simulation.evalOperands_alike hev hmade hheld hf' hoperands).and
    fun vs m hvs => evalOperands_length hvs) fun u vs vs' m m' hu hm ⟨hvs, hlength⟩ => ?_
  rw [← hu.2.1] at hk
  rw [← hu.2.2.1] at hclosure
  have hcount : vs.length = (bs.map Binding.name).length := by
    rw [hlength, List.length_map, List.length_map]
  refine .bind (enter_alike hm (hu.1 _ _ hf') hk hclosure hvs hcount form.span _ _)
    fun x g y m m' hx hm hy => ?_
  obtain ⟨g', n'⟩ := y
  obtain ⟨hg, rfl⟩ := hy
  exact hev hm ((hheld.mono (hu.trans hx)).append (.cons hg .nil)) hg
    ((hsame hbody).mono (hu.trans hx).1)

/-! ## Runs that stop at the limit -/

theorem Staged.stops_note (hs : Staged e m m' h h' f bs body) (limit : Nat) (span : Span)
    (event : Store → Event) :
    m.store.Stops limit (.error (.depthExceeded limit span) (m'.note event)) := by
  refine ⟨span, _, e, rfl, ?_, hs.old⟩
  rw [Machine.store_note]
  exact hs.embeds

/-- With no room for anything inside, a `let` stops at its first expression or at its body. -/
theorem Embedding.IsLet.stops (limit : Nat) (hlet : e.IsLet bs body form)
    (hs : Staged e m m' h h' f bs body) :
    m.store.Stops limit (step elements? (eval limit 0) h' form f m') := by
  obtain ⟨keyword, bindings, nodes, hform, hlist, hnodes⟩ := hlet
  obtain ⟨c, hc⟩ := hform.exists_pair
  have hm := hs.embeds
  rw [step_of_elements hc (hm.elements?_spine hform)]
  change m.store.Stops limit (evalBind elements? _ _ [bindings, body] f form.span m')
  rw [evalBind_of_elements (hm.elements?_spine hlist)]
  cases hnodes with
  | nil =>
    -- the frame beneath has been made, without names
    obtain ⟨e', hw, hm'⟩ := hm.surroundFrame hs.frameAnchored (refsOf [] ++ _)
    refine ⟨body.span, _, e', rfl, ?_, fun r hr => hw.same ▸ hs.old r hr⟩
    rw [Machine.store_note]
    exact hm'
  | cons hb _ =>
    simp only [bind, EStateM.bind,
      evalBindings_of_elements (hm.elements?_spine hb) List.not_mem_nil]
    exact hs.stops_note limit _ _

/-- With no room for anything inside, a call stops at its operator. -/
theorem Embedding.IsCall.stops (limit : Nat) (hcall : e.IsCall bs body form)
    (hs : Staged e m m' h h' f bs body) :
    m.store.Stops limit (step elements? (eval limit 0) h' form f m') := by
  obtain ⟨keyword, procedure, params, hform, hprocedure, -⟩ := hcall
  obtain ⟨c, hc⟩ := hform.exists_pair
  rw [step_of_elements hc (hs.embeds.elements?_spine hform), formOf_of_spine hprocedure]
  exact hs.stops_note limit procedure.span _

end

/-! ## One answer -/

/-- **A `let` agrees with the call of a `lambda`.** The two forms are built around the same body and
the same expressions for distinct names, in any whole store, and evaluated in the same frame with
the same room and the same limit. The evaluation holds the form and the frame, as every evaluation
does, and whatever else is held. Either both give a value or both fail, in the same way; what they
leave in the store is the same up to new objects. -/
theorem let_agrees_with_call (limit room : Nat) (m : Machine) (f : FrameId) (held : List Ref)
    (bs : List Binding) (body : Node) (keyword list span keyword' list' operator span' : Span)
    (hwhole : m.store.Whole) (hheld : ∀ r ∈ held, m.store.Has r) (hf : .frame f ∈ held)
    (hbody : body.Refers m.store) (hvalues : ∀ b ∈ bs, b.value.Refers m.store)
    (hnames : (bs.map Binding.name).Nodup) :
    let l := m.store.newLet bs body keyword list span
    let c := m.store.newCall bs body keyword' list' operator span'
    m.store.SameAnswer (eval limit room (l.1.refs ++ held) l.1 f { m with store := l.2 })
      (eval limit room (c.1.refs ++ held) c.1 f { m with store := c.2 }) := by
  intro l c
  have hg : Grounded m.store held f bs body := ⟨hwhole, hheld, hf, hbody, hvalues⟩
  obtain ⟨e₁, hw₁, hm₁, hlet⟩ := hg.embeds.surroundLet (fun _ hb _ hr => mem_anchors_value hb hr)
    (fun _ hr => mem_anchors_body hr) keyword list span
  obtain ⟨e₂, hw₂, hm₂, hcall⟩ := hg.embeds.surroundCall (fun _ hb _ hr => mem_anchors_value hb hr)
    (fun _ hr => mem_anchors_body hr) keyword' list' operator span'
  have hs₁ : Staged e₁ m { m with store := l.2 } _ (l.1.refs ++ held) f bs body :=
    hg.staged hw₁ hm₁ hlet.foreign hlet.reached
  have hs₂ : Staged e₂ m { m with store := c.2 } _ (c.1.refs ++ held) f bs body :=
    hg.staged hw₂ hm₂ hcall.foreign hcall.reached
  match room with
  | 0 => exact sameAnswer_of_stops (hs₁.stops_note limit _ _) (hs₂.stops_note limit _ _)
  | 1 => exact sameAnswer_of_stops (hlet.stops limit hs₁) (hcall.stops limit hs₂)
  | room + 2 =>
    obtain ⟨e₃, hw₃, hcalled⟩ := hcall.alike limit room hs₂ hnames
    have hbound := hlet.alike (ownRun.evaluators limit (room + 1)) hs₁ hnames
    exact sameAnswer_of_alike hs₁.old (hw₃.same ▸ hs₂.old) hbound hcalled

/-- In a new session, `(cons x y)` with two names bound to integers. -/
theorem pair_of_names_in_either_form :
    let word (name : String) : Datum := .atom (.symbol name) default
    let loaded := Store.empty.newPopulated.2.load (.list [word "cons", word "x", word "y"] default)
    let bs : List Binding := [⟨"x", .integer 1 default, default, default, default⟩,
      ⟨"y", .integer 2 default, default, default, default⟩]
    let l := loaded.2.newLet bs loaded.1 default default default
    let c := loaded.2.newCall bs loaded.1 default default default default
    (bs.map Binding.name).Nodup ∧
      loaded.2.SameAnswer
        (eval 9 9 (l.1.refs ++ [.frame ⟨0⟩]) l.1 ⟨0⟩ ⟨l.2, false, []⟩)
        (eval 9 9 (c.1.refs ++ [.frame ⟨0⟩]) c.1 ⟨0⟩ ⟨c.2, false, []⟩) := by
  intro word loaded bs l c
  obtain ⟨hleads, hhas⟩ := Store.whole_empty.leadsTo_newPopulated
  obtain ⟨hread, hrefers⟩ := hleads.whole.leadsTo_load
    (.list [word "cons", word "x", word "y"] default)
  have hnames : (bs.map Binding.name).Nodup := by decide
  refine ⟨hnames, let_agrees_with_call 9 9 ⟨loaded.2, false, []⟩ ⟨0⟩ [.frame ⟨0⟩] bs loaded.1
    default default default default default default default hread.whole
    (List.forall_mem_singleton.2 (hread.has hhas)) List.mem_cons_self hrefers ?_ hnames⟩
  exact List.forall_mem_cons.2 ⟨nofun, List.forall_mem_singleton.2 nofun⟩

end MiniScheme
