import MiniScheme.Proofs.Isolation.Embedding
import MiniScheme.Proofs.Operations
import MiniScheme.Proofs.Primitives
import MiniScheme.Proofs.Simulation
import MiniScheme.Report

/-!
# Evaluation inside a larger store

An evaluation on a store that lies in a larger one goes the same way on both, and it leaves what
is foreign as it was. `ownRun` puts this as a simulation: the left side runs on the small store,
the right side on the large one, and the embedding grows as objects come into being. The logs of
the two machines do not matter.

## Results

* `ownRun.simulation`: every operation of an evaluation keeps the small store inside the large
  one.
* `ownRun.evaluators`: whole evaluations.
* `Matched.message`: what a host is told of matching errors.
-/

namespace MiniScheme

/-! ## Errors -/

/-- The value that an error is about. -/
def EvalError.found? : EvalError → Option Value
  | mismatch _ _ v _ _ | notAProcedure v _ | malformed (.notASymbol _ v) _ => some v
  | _ => none

theorem EvalError.found?_of_isPlain {fault : Fault} {span : Span} (h : fault.isPlain = true) :
    (EvalError.malformed fault span).found? = none := by
  cases fault with
  | notASymbol form v => cases h
  | _ => rfl

namespace Matching

variable {ρ σ : Matching}

/-- The errors are equal up to the matching. -/
inductive Errors (ρ : Matching) : EvalError → EvalError → Prop
  | plain {e : EvalError} (h : e.found? = none) : Errors ρ e e
  | mismatch (p : Primitive) (x : Expected) (i : Nat) (span : Span) {v v' : Value}
      (hv : ρ.Values v v') : Errors ρ (.mismatch p x v i span) (.mismatch p x v' i span)
  | notAProcedure (span : Span) {v v' : Value} (hv : ρ.Values v v') :
      Errors ρ (.notAProcedure v span) (.notAProcedure v' span)
  | notASymbol (form : Form) (span : Span) {v v' : Value} (hv : ρ.Values v v') :
      Errors ρ (.malformed (.notASymbol form v) span) (.malformed (.notASymbol form v') span)

theorem Values.similar {v v' : Value} (h : ρ.Values v v') : v.Similar v' := by
  cases h with
  | atom a => exact .atom a
  | nil => exact .nil
  | pair _ => exact .pair _ _
  | primitive p => exact .primitive p
  | closure _ => exact .closure _ _
  | unspecified => exact .unspecified

theorem Values.symbol?_eq {v v' : Value} (h : ρ.Values v v') : v'.symbol? = v.symbol? := by
  cases h <;> rfl

theorem Values.isTrue_eq {v v' : Value} (h : ρ.Values v v') : v'.isTrue = v.isTrue := by
  cases h <;> rfl

theorem Values.sameKind {v v' : Value} (h : ρ.Values v v') : SameKind v v' := by
  cases h with
  | primitive p => exact .primitive p
  | closure _ => exact .closure _ _
  | atom | nil | pair | unspecified => exact .other nofun nofun

theorem argumentsAlike (ρ : Matching) (span : Span) : ArgumentsAlike ρ.Nodes ρ.Errors span where
  similar h := h.value.similar
  span h := h.span
  mismatch p x i h := h.span ▸ .mismatch p x i _ h.value
  arity _ _ _ := .plain rfl
  divisionByZero h _ := h.span ▸ .plain rfl
  overflow _ := .plain rfl

/-- Matching errors have the same kind, the same range and the same label. -/
theorem Errors.agree {x x' : EvalError} (hx : ρ.Errors x x') :
    (Error.eval x).kind = (Error.eval x').kind ∧ x.span = x'.span ∧
      ∀ start, (Error.eval x).label start = (Error.eval x').label start := by
  cases hx with
  | plain hx => exact ⟨rfl, rfl, fun _ => rfl⟩
  | mismatch p x i span hv =>
    refine ⟨rfl, rfl, fun _ => ?_⟩
    unfold Error.label
    dsimp only
    rw [hv.similar.typeName_eq]
  | notAProcedure span hv =>
    refine ⟨rfl, rfl, fun _ => ?_⟩
    unfold Error.label
    dsimp only
    rw [hv.similar.typeName_eq]
  | notASymbol form span hv => exact ⟨rfl, rfl, fun _ => rfl⟩

end Matching

namespace Matched

variable {ρ : Matching} {s t : Store} (h : Matched ρ s t)

include h

/-- Matching errors are reported alike. -/
theorem message {x x' : EvalError} (hx : ρ.Errors x x') : x.message s = x'.message t := by
  cases hx with
  | @plain x hx =>
    match x, hx with
    | .unbound .., _ | .arity .., _ | .divisionByZero .., _ | .overflow .., _
    | .depthExceeded .., _ | .malformed .., _ => rfl
  | mismatch p x i span hv =>
    unfold EvalError.message
    dsimp only
    rw [hv.similar.typeName_eq]
  | notAProcedure span hv =>
    unfold EvalError.message
    dsimp only
    rw [h.text hv]
  | notASymbol form span hv =>
    unfold EvalError.message Fault.text
    dsimp only
    rw [hv.similar.typeName_eq]

theorem shown {v v' : Node} (hv : ρ.Nodes v v') : s.shown v = t.shown v' := by
  unfold Store.shown
  rw [h.text hv.value, hv.value.similar.typeName_eq, hv.span]

end Matched

/-! ## The run -/

/-- An evaluation on a store, and the same evaluation on a larger one. -/
def ownRun : Likeness Embedding where
  machine e m m' := Embeds e m.store m'.store
  span _ s s' := s = s'
  frame e f f' := e.same (.frame f) (.frame f')
  value e v v' := e.same.Nodes v v'
  code e _ _ _ n n' := e.same.Nodes n n'
  abstraction e _ _ ns ns' := List.Forall₂ e.same.Nodes ns ns'
  definition _ _ _ _ _ := True
  held e h h' := Embeds.Held e h h'
  error e x x' := e.same.Errors x x'
  fatal _ := False
  lost _ := False

namespace ownRun

variable {e e' : Embedding} {m m' : Machine} {f f' : FrameId}

/-- A step that succeeds, on both sides. -/
theorem alike_ok {α β : Type} {Q : Embedding → α → β → Prop} {x : α} {x' : β} {m₁ m₁' : Machine}
    (hle : e ≤ e') (h : Embeds e' m₁.store m₁'.store) (hq : Q e' x x') :
    ownRun.Alike e Q (.ok x m₁) (.ok x' m₁') :=
  .ok hle h hq

/-- A step that fails, on both sides. -/
theorem alike_error {α β : Type} {Q : Embedding → α → β → Prop} {x x' : EvalError}
    {m₁ m₁' : Machine} (h : Embeds e m₁.store m₁'.store) (hx : e.same.Errors x x') :
    ownRun.Alike e Q (.error x m₁) (.error x' m₁') :=
  .error le_rfl h hx

theorem items_nodes {ns ns' : List Node} (h : List.Forall₂ e.same.Nodes ns ns')
    (roles : Nat → Role) : ownRun.Items e f f' roles ns ns' := by
  refine ⟨h.length_eq, fun hn hn' => ?_⟩
  obtain ⟨hi, rfl⟩ := List.getElem?_eq_some_iff.1 hn
  obtain ⟨hi', rfl⟩ := List.getElem?_eq_some_iff.1 hn'
  exact h.get hi hi'

theorem headForm_eq {ns ns' : List Node} (h : List.Forall₂ e.same.Nodes ns ns') :
    headForm ns' = headForm ns := by
  cases h with
  | nil => rfl
  | cons hn _ =>
    simp only [headForm, Likeness.formOf]
    rw [hn.value.symbol?_eq]

theorem parts_nodes {r : Role} {items items' : List Node}
    (ho : r.isOpened = true) (hne : r = .expression → items ≠ [])
    (h : List.Forall₂ e.same.Nodes items items') : ownRun.parts e f f' r items items' := by
  refine Likeness.parts_of_items (fun hn => hn) (fun hns => ?_) ho hne (headForm_eq h)
    (items_nodes h _)
  exact List.forall₂_iff_get.2 ⟨hns.length, fun i hi hi' =>
    hns.code (List.getElem?_eq_getElem hi) (List.getElem?_eq_getElem hi')⟩

/-! ### The operations -/

theorem evalName_alike (h : Embeds e m.store m'.store) (hf : e.same (.frame f) (.frame f'))
    (name : String) (span : Span) :
    ownRun.Alike e ownRun.value (evalName name f span m) (evalName name f' span m') := by
  rw [evalName_run, evalName_run]
  have hl := h.lookup? hf name
  revert hl
  generalize m.store.lookup? f name = o
  generalize m'.store.lookup? f' name = o'
  rintro (⟨hv⟩ | _)
  · exact alike_ok le_rfl h hv
  · exact alike_error h (.plain rfl)

theorem split_alike {r : Role} {n n' : Node} (h : Embeds e m.store m'.store)
    (hn : e.same.Nodes n n') (ho : r.isOpened = true)
    (hp : r = .expression → ∃ c, n.value = .pair c) :
    (elements? n m = .ok none m ∧ elements? n' m' = .ok none m' ∧
        (r = .expression →
          e.same.Errors (.malformed .improperList n.span) (.malformed .improperList n'.span))) ∨
      ∃ items items', elements? n m = .ok (some items) m ∧
        elements? n' m' = .ok (some items') m' ∧ ownRun.parts e f f' r items items' ∧
        ∀ {held held'}, Embeds.Held e held held' →
          Embeds.Held e (refsOf items ++ held) (refsOf items' ++ held') := by
  rw [elements?_run, elements?_run]
  have hel := h.elements? hn.value
  have hne {items : List Node} (hr : r = .expression)
      (hi : m.store.elements? n.value = some items) : items ≠ [] := by
    obtain ⟨c, hc⟩ := hp hr
    rw [hc] at hi
    exact Store.elements?_ne_nil hi
  cases hs : m.store.elements? n.value with
  | none =>
    rw [hs] at hel
    cases ht : m'.store.elements? n'.value with
    | some items' => rw [ht] at hel; cases hel
    | none =>
      refine .inl ⟨rfl, rfl, fun _ => ?_⟩
      rw [hn.span]
      exact .plain rfl
  | some items =>
    rw [hs] at hel
    cases ht : m'.store.elements? n'.value with
    | none => rw [ht] at hel; cases hel
    | some items' =>
      rw [ht] at hel
      obtain ⟨hitems⟩ := hel
      exact .inr ⟨items, items', rfl, rfl, parts_nodes ho (fun hr => hne hr hs) hitems,
        fun hh => hh.append (Matching.refsOf_nodes hitems)⟩

theorem applyPrimitive_alike (p : Primitive) {args args' : List Node} (span : Span)
    (h : Embeds e m.store m'.store) (ha : List.Forall₂ e.same.Nodes args args') :
    ownRun.Alike e ownRun.value (applyPrimitive p args span m)
      (applyPrimitive p args' span m') := by
  rw [applyPrimitive_run, applyPrimitive_run]
  have hcall := p.call_alike (e.same.argumentsAlike span) ha
  revert hcall
  generalize p.call args span = x
  generalize p.call args' span = x'
  rintro (hchange | hx)
  · cases hchange with
    | integer n => exact alike_ok le_rfl h ⟨.atom _, rfl⟩
    | boolean b => exact alike_ok le_rfl h ⟨.atom _, rfl⟩
    | list ha =>
      obtain ⟨e', hle, h', hn⟩ := h.newList span ha
      exact alike_ok hle h' hn
    | cons ha hb =>
      obtain ⟨e', hle, h', hc⟩ := h.newCell ha hb
      exact alike_ok hle h' ⟨.pair hc, rfl⟩
    | half half ha hc hc' =>
      have hv := ha.value
      rw [hc, hc', Matching.values_pair] at hv
      obtain ⟨hcar, hcdr⟩ := h.cell hv
      cases half with
      | car => exact alike_ok le_rfl h hcar
      | cdr => exact alike_ok le_rfl h hcdr
    | setHalf half ha hb hc hc' =>
      have hv := ha.value
      rw [hc, hc', Matching.values_pair] at hv
      exact alike_ok le_rfl (h.setHalf hv half hb) ⟨.unspecified, rfl⟩
  · exact alike_error h hx

theorem entries_zip {args args' : List Node} (ha : List.Forall₂ e.same.Nodes args args')
    (names : List String) : List.Forall₂ e.same.Entries (names.zip args) (names.zip args') := by
  induction ha generalizing names with
  | nil => cases names <;> exact .nil
  | cons hn _ ih =>
    cases names with
    | nil => exact .nil
    | cons name names => exact .cons ⟨rfl, hn⟩ (ih names)

theorem enterClosure_alike {held held' : List Ref} {k k' : ClosureId} {args args' : List Node}
    (span : Span)
    (h : Embeds e m.store m'.store) (hk : e.same (.closure k) (.closure k'))
    (ha : List.Forall₂ e.same.Nodes args args') :
    ownRun.Alike e
      (fun u x x' => ownRun.frame u x.1 x'.1 ∧ ownRun.code u .expression x.1 x'.1 x.2 x'.2)
      (enterClosure held k args span m) (enterClosure held' k' args' span m') := by
  obtain ⟨log, hrun⟩ := enterClosure_run held k args span m
  obtain ⟨log', hrun'⟩ := enterClosure_run held' k' args' span m'
  obtain ⟨hname, hparams, hbody, hframe⟩ := h.closure hk
  have hdisplay : (m.store.closure k).displayName = (m'.store.closure k').displayName := by
    unfold Closure.displayName
    rw [hname]
  rw [hrun, hrun', hparams, hdisplay, ha.length_eq]
  split
  · obtain ⟨e', hle, h', hf⟩ :=
      h.enclose hframe (entries_zip ha (m'.store.closure k').params) held held'
    exact alike_ok hle h' ⟨hf, hbody.mono hle.1⟩
  · exact alike_error h (.plain rfl)

theorem bindGlobal_alike {held held' : List Ref} {name : String} {v v' : Node}
    (h : Embeds e m.store m'.store) (hh : Embeds.Held e held held')
    (hf : e.same (.frame f) (.frame f')) (hv : e.same.Nodes v v') :
    ownRun.Alike e (fun _ _ _ => True) (bindGlobal held f name v m)
      (bindGlobal held' f' name v' m') := by
  obtain ⟨log, hrun⟩ := bindGlobal_run held f name v m
  obtain ⟨log', hrun'⟩ := bindGlobal_run held' f' name v' m'
  rw [hrun, hrun']
  have hnamed := h.nameFresh hh hv.value name
  exact alike_ok le_rfl (hnamed.bind (hnamed.root hf) name hv) trivial

theorem assignName_alike {name : String} {v v' : Node} (span : Span)
    (h : Embeds e m.store m'.store) (hf : e.same (.frame f) (.frame f'))
    (hv : e.same.Nodes v v') :
    ownRun.Alike e (fun _ _ _ => True) (assignName f name v span m)
      (assignName f' name v' span m') := by
  rw [assignName_run, assignName_run]
  have hg := h.owner? hf name
  revert hg
  generalize m.store.owner? f name = o
  generalize m'.store.owner? f' name = o'
  rintro (⟨hg⟩ | _)
  · exact alike_ok le_rfl (h.bind hg name hv) trivial
  · exact alike_error h (.plain rfl)

theorem evalLambda_alike {ns ns' : List Node} (span : Span) (h : Embeds e m.store m'.store)
    (hf : e.same (.frame f) (.frame f')) (hns : List.Forall₂ e.same.Nodes ns ns') :
    ownRun.Alike e ownRun.value (evalLambda elements? ns f span m)
      (evalLambda elements? ns' f' span m') := by
  rcases hns with _ | ⟨hparams, _ | ⟨hbody, _ | _⟩⟩
  · exact alike_error h (.plain rfl)
  · exact alike_error h (.plain rfl)
  · rename_i params params' body body'
    have hel := h.elements? hparams.value
    have hrun := elements?_run params m
    have hrun' := elements?_run params' m'
    revert hel hrun hrun'
    generalize m.store.elements? params.value = o
    generalize m'.store.elements? params'.value = o'
    rintro (⟨hnodes⟩ | _) hrun hrun'
    · rw [evalLambda_some hrun, evalLambda_some hrun']
      have hnames := parameterNames_run (V := e.same.Nodes) (E := e.same.Errors)
        (fun hn => hn.value.symbol?_eq) (fun hn => hn.span ▸ .notASymbol .lambda _ hn.value)
        (fun name hn _ => hn.span ▸ .plain rfl) hnodes []
      rcases hnames with ⟨names, hn⟩ | ⟨x, x', hx, he⟩
      · simp only [bind, EStateM.bind, (hn m).1, (hn m').2]
        have hclosures : e.same.Closures ⟨none, names, body, f⟩ ⟨none, names, body', f'⟩ :=
          ⟨rfl, rfl, hbody, hf⟩
        obtain ⟨e', hle, h', hk⟩ := h.newClosure hclosures
        exact alike_ok hle h' ⟨.closure hk, rfl⟩
      · simp only [bind, EStateM.bind, (he m).1, (he m').2]
        exact alike_error h hx
    · rw [evalLambda_none hrun, evalLambda_none hrun', hparams.span]
      exact alike_error h (.plain rfl)
  · exact alike_error h (.plain rfl)

/-- **Evaluation stays inside.** -/
theorem simulation : Simulation ownRun elements? elements? where
  span_mono _ h := h
  frame_mono hle h := hle.1 _ _ h
  value_mono hle h := h.mono hle.1
  code_mono hle h := h.mono hle.1
  definition_mono _ _ h := h
  held_mono hle h := h.mono hle
  code_span h := h.span
  expression := by
    rintro e f f' n n' hf hn
    have hspan := hn.span
    have hv := hn.value
    obtain ⟨v, span⟩ := n
    obtain ⟨v', span'⟩ := n'
    cases hspan
    cases hv with
    | atom a =>
      cases a with
      | symbol a => exact .name fun h => evalName_alike h hf a span
      | integer _ => exact .constant rfl rfl nofun nofun hn
      | boolean _ => exact .constant rfl rfl nofun nofun hn
    | pair _ => exact .list _ _
    | nil | primitive | closure | unspecified => exact .constant rfl rfl nofun nofun hn
  else_iff h := by rw [h.value.symbol?_eq]
  target h := h.value.symbol?_eq
  split_alike h hn ho hp := split_alike h hn ho hp
  held_value hv hh := hh.append hv.value.refs
  held_frame hf hh := hh.append (.cons hf .nil)
  isTrue h := h.value.isTrue_eq
  kind h := h.value.sameKind
  unspecified h := ⟨.unspecified, h⟩
  boolean b h := ⟨.atom _, h⟩
  symbol h _ := ⟨.atom _, h.span⟩
  fault hf h := by
    cases h
    exact .plain (EvalError.found?_of_isPlain hf)
  notASymbol form h := h.span ▸ .notASymbol form _ h.value
  duplicateBinding h _ := h.span ▸ .plain rfl
  notAProcedure hv hs := by
    cases hs
    exact .notAProcedure _ hv.value
  applyPrimitive := by
    rintro e v v' p args args' s _ m m' h - - ha rfl
    exact applyPrimitive_alike p s h ha
  enterClosure := by
    rintro e held held' v v' k k' args args' s _ m m' h - hv hk hk' ha rfl
    have hvalue := hv.value
    rw [hk, hk', Matching.values_closure] at hvalue
    exact enterClosure_alike s h hvalue ha
  bindGlobal h hh hf _ _ _ hv := bindGlobal_alike h hh hf hv
  assigned := by
    rintro e f f' n n' hf hn
    rw [hn.value.symbol?_eq, ← hn.span]
    cases n.value.symbol? with
    | none => exact .inl ⟨rfl, rfl⟩
    | some a => exact .inr ⟨a, a, rfl, rfl, fun h hv => assignName_alike n.span h hf hv⟩
  lambda := by
    rintro e f f' ns ns' s _ m m' h hf hns rfl
    exact evalLambda_alike s h hf hns
  enclose := by
    rintro e held held' f f' es es' m m' h - hf hes - -
    have hentries : List.Forall₂ e.same.Entries es es' := hes.imp fun _ _ he => ⟨he.1, he.2.1⟩
    obtain ⟨e', hle, h', hg⟩ := h.enclose hf hentries held held'
    rw [enclose_run, enclose_run]
    exact alike_ok hle h' ⟨hg, fun hn => hn.mono hle.1⟩

/-- **A whole evaluation stays inside**, by induction on the room. -/
theorem evaluators (limit room : Nat) : ownRun.Evaluators (eval limit room) (eval limit room) := by
  induction room with
  | zero =>
    rintro e held held' n n' f f' m m' h - - hn
    have hspan : n.span = n'.span := hn.span
    refine alike_error ?_ (hspan ▸ .plain rfl)
    rw [Machine.store_note, Machine.store_note]
    exact h
  | succ room ih => exact simulation.step_alike trivial ih

end ownRun

end MiniScheme
