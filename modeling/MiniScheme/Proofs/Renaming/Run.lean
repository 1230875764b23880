import MiniScheme.Proofs.Renaming.Twins

/-!
# One evaluation under two names of a parameter

The same expression is evaluated on two stores, in one of which a parameter has another name.
`twinRun` puts this as a simulation. Frames and values are the same on both sides, and so is what is
held; code differs in the names that its zone replaces. Errors are the same too, but for one that
says of which type a piece of code is.

The name of a parameter that is replaced is never unbound, so no message mentions it.

## Results

* `twinRun.simulation`: every operation of an evaluation goes the same way on both sides.
* `twinRun.evaluators`: whole evaluations.
-/

namespace MiniScheme

variable {x y : String} {T T' : Twinning} {z : Zone} {r : Role} {n n' : Node} {f : FrameId}

/-! ## Lists of code -/

/-- **A list of code is taken apart alike**: none on both sides, or items that are related in the
roles that the list has for them. -/
theorem Twins.elements? {s t : Store} (h : Twins x y T s t) (hr : r ≠ .datum)
    (hn : T.Altered x y z r n n') :
    (s.elements? n.value = none ∧ t.elements? n'.value = none ∧ ∀ c, n.value ≠ .pair c) ∨
      ∃ items items' zones, s.elements? n.value = some items ∧
        t.elements? n'.value = some items' ∧ items.length = items'.length ∧
        Zone.Items x (T.left.Parameters items) z r zones ∧
        (∀ {i a a'}, items[i]? = some a → items'[i]? = some a' →
          T.Altered x y (zones i) (r.item (headForm items) i) a a') ∧
        ((∃ c, n.value = .pair c) → items ≠ []) := by
  have hnone {u : Store} {v : Value} (hp : ∀ c, v ≠ .pair c) (hnil : v ≠ .nil) :
      u.elements? v = none := by
    cases hi : u.elements? v with
    | none => rfl
    | some items => exact absurd (Store.elements?_leaf hp hi).1 hnil
  cases hn with
  | leaf _ hl =>
    obtain ⟨hp, hp'⟩ := hl.not_pair
    generalize n.value = v at hl hp ⊢
    generalize n'.value = v' at hl hp' ⊢
    cases hl with
    | name => exact .inl ⟨hnone hp nofun, hnone hp' nofun, hp⟩
    | constant =>
      by_cases hnil : v = .nil
      · subst hnil
        refine .inr ⟨[], [], fun _ => z, Store.IsList.nil.elements?_eq,
          Store.IsList.nil.elements?_eq, rfl, .same _ _, nofun, ?_⟩
        rintro ⟨c, hc⟩
        cases hc
      · exact .inl ⟨hnone hp hnil, hnone hp' hnil, hp⟩
  | datum => exact absurd rfl hr
  | @list _ _ _ _ items items' zones _ _ _ hc hc' hlength hz hi =>
    refine .inr ⟨items, items', zones, (h.left.isList hc).elements?_eq,
      (h.right.isList hc').elements?_eq, hlength, hz, hi, ?_⟩
    rintro ⟨c, hpair⟩ rfl
    rw [hpair] at hc
    cases hc

/-- The items of a parameter list. -/
theorem Twins.parameters {s t : Store} (h : Twins x y T s t)
    (hn : T.Altered x y z .parameters n n') :
    (s.elements? n.value = none ∧ t.elements? n'.value = none) ∨
      ∃ nodes nodes', s.elements? n.value = some nodes ∧ t.elements? n'.value = some nodes' ∧
        List.Forall₂ (T.Altered x y z .target) nodes nodes' := by
  rcases h.elements? (r := .parameters) nofun hn with
    ⟨hs, ht, -⟩ | ⟨nodes, nodes', zones, hs, ht, hlength, hz, hi, -⟩
  · exact .inl ⟨hs, ht⟩
  · refine .inr ⟨nodes, nodes', hs, ht, List.forall₂_iff_get.2 ⟨hlength, fun i hlt hlt' => ?_⟩⟩
    have hrole : Role.parameters.item (headForm nodes) i = .target := by
      cases headForm nodes <;> rfl
    have hitem := hi (List.getElem?_eq_getElem hlt) (List.getElem?_eq_getElem hlt')
    rw [hrole] at hitem
    cases hz with
    | same => exact hitem

/-! ## The run -/

namespace Twinning

/-- The operands of two `lambda` expressions in a zone: they are code of that zone, or they are
those of the one whose parameter is replaced. -/
inductive Abstracts (T : Twinning) (x y : String) : Zone → Node → Node → Node → Node → Prop
  | plain {z : Zone} {params params' body body' : Node}
      (hparams : T.Altered x y z .parameters params params')
      (hbody : T.Altered x y z .expression body body') : Abstracts T x y z params body params' body'
  | renamed {params params' body body' : Node} {nodes : List Node} {names : List String}
      (hparams : T.Altered x y .binder .parameters params params')
      (hnodes : T.left.Chain params.value nodes)
      (hnames : nodes.map (·.value.symbol?) = names.map some) (hnodup : names.Nodup)
      (hx : x ∈ names) (hbody : T.Altered x y .body .expression body body') :
      Abstracts T x y .outside params body params' body'

theorem Abstracts.parameters {params params' body body' : Node}
    (h : T.Abstracts x y z params body params' body') :
    ∃ zp, T.Altered x y zp .parameters params params' := by
  cases h with
  | plain hparams => exact ⟨z, hparams⟩
  | renamed hparams => exact ⟨.binder, hparams⟩

/-- Errors that are reported alike. -/
inductive Complaints (T : Twinning) : EvalError → EvalError → Prop
  | same {e : EvalError} (h : ∀ v span, e = .notAProcedure v span → T.Data v) : Complaints T e e
  | notASymbol (form : Form) (span : Span) {v v' : Value} (h : v'.typeName = v.typeName) :
      Complaints T (.malformed (.notASymbol form v) span) (.malformed (.notASymbol form v') span)

end Twinning

/-- An evaluation, and the same evaluation with a parameter replaced. -/
def twinRun (x y : String) : Likeness Twinning where
  machine T m m' := Twins x y T m.store m'.store
  span _ s s' := s' = s
  frame T f f' := f' = f ∧ ∃ z, T.zone f = some z
  value T v v' := v' = v ∧ T.Data v.value
  code T r f f' n n' := f' = f ∧ ∃ z, T.zone f = some z ∧ T.Altered x y z r n n'
  abstraction T f f' ns ns' := f' = f ∧ ∃ z, T.zone f = some z ∧ ns.length = ns'.length ∧
    ∀ {params body params' body'}, ns = [params, body] → ns' = [params', body'] →
      T.Abstracts x y z params body params' body'
  definition _ _ _ _ _ := True
  held _ h h' := h' = h
  error T e e' := T.Complaints e e'
  fatal _ := False
  lost _ := False

namespace twinRun

variable {m m' : Machine} {span : Span}

/-- A step that succeeds, on both sides. -/
theorem alike_ok {α β : Type} {Q : Twinning → α → β → Prop} {a : α} {b : β} {m₁ m₁' : Machine}
    (hle : T ≤ T') (h : Twins x y T' m₁.store m₁'.store) (hq : Q T' a b) :
    (twinRun x y).Alike T Q (.ok a m₁) (.ok b m₁') :=
  .ok hle h hq

/-- A step that fails, on both sides. -/
theorem alike_error {α β : Type} {Q : Twinning → α → β → Prop} {e e' : EvalError}
    {m₁ m₁' : Machine} (h : Twins x y T m₁.store m₁'.store) (he : T.Complaints e e') :
    (twinRun x y).Alike T Q (.error e m₁) (.error e' m₁') :=
  .error le_rfl h he

theorem eq_of_values {vs vs' : List Node} (h : List.Forall₂ ((twinRun x y).value T) vs vs') :
    vs' = vs ∧ ∀ v ∈ vs, T.Data v.value := by
  induction h with
  | nil => exact ⟨rfl, nofun⟩
  | cons hv _ ih =>
    obtain ⟨rfl, hd⟩ := hv
    exact ⟨by rw [ih.1], List.forall_mem_cons.2 ⟨hd, ih.2⟩⟩

/-! ### The operations -/

theorem evalName_alike (h : Twins x y T m.store m'.store) (hf : T.zone f = some z) {a : String}
    (ha : z.Admits x y .expression a) :
    (twinRun x y).Alike T (twinRun x y).value (evalName a f span m)
      (evalName (z.rename x y a) f span m') := by
  have hbody : z = .body → a ≠ y := by
    rintro rfl
    exact ha.1
  obtain ⟨hlookup, hnone⟩ := h.lookup?_eq hf hbody
  rw [evalName_run, evalName_run, hlookup]
  cases hv : m.store.lookup? f a with
  | some v =>
    have hright : m'.store.lookup? f (z.rename x y a) = some v := hlookup.trans hv
    exact alike_ok le_rfl h ⟨rfl, h.left.lookup hv, h.right.lookup hright⟩
  | none =>
    rw [hnone hv]
    exact alike_error h (.same nofun)

theorem argumentsAlike (x y : String) (T : Twinning) (span : Span) :
    ArgumentsAlike ((twinRun x y).value T) ((twinRun x y).error T) span where
  similar h := h.1 ▸ .refl _
  span h := congrArg Node.span h.1.symm
  mismatch _ _ _ h := h.1 ▸ .same nofun
  arity _ _ _ := .same nofun
  divisionByZero h _ := h.1 ▸ .same nofun
  overflow _ := .same nofun

theorem applyPrimitive_alike (p : Primitive) {args args' : List Node}
    (h : Twins x y T m.store m'.store) (ha : List.Forall₂ ((twinRun x y).value T) args args') :
    (twinRun x y).Alike T (twinRun x y).value (applyPrimitive p args span m)
      (applyPrimitive p args' span m') := by
  rw [applyPrimitive_run, applyPrimitive_run]
  have hcall := p.call_alike (argumentsAlike x y T span) ha
  revert hcall
  generalize p.call args span = c
  generalize p.call args' span = c'
  rintro (hchange | he)
  · cases hchange with
    | integer => exact alike_ok le_rfl h ⟨rfl, Twinning.data_of_leaf nofun⟩
    | boolean => exact alike_ok le_rfl h ⟨rfl, Twinning.data_of_leaf nofun⟩
    | list ha =>
      obtain ⟨rfl, hargs⟩ := eq_of_values ha
      obtain ⟨T', hle, h', hnode, hd⟩ := h.newTail span.stop hargs
      exact alike_ok hle h' ⟨congrArg (fun n : Node => (⟨n.value, span⟩ : Node)) hnode, hd⟩
    | cons ha hb =>
      obtain ⟨rfl, ha⟩ := ha
      obtain ⟨rfl, hb⟩ := hb
      obtain ⟨T', hle, h', hc, hd⟩ := h.newCell ha hb
      exact alike_ok hle h' ⟨congrArg (fun c => (⟨.pair c, span⟩ : Node)) hc, hd⟩
    | half half ha hc hc' =>
      obtain ⟨rfl, ha⟩ := ha
      cases hc.symm.trans hc'
      rw [hc] at ha
      obtain ⟨heq, hd⟩ := h.half ha half
      exact alike_ok le_rfl h ⟨heq, hd⟩
    | setHalf half ha hb hc hc' =>
      obtain ⟨rfl, ha⟩ := ha
      obtain ⟨rfl, hb⟩ := hb
      cases hc.symm.trans hc'
      rw [hc] at ha
      exact alike_ok le_rfl (h.setHalf half ha hb) ⟨rfl, Twinning.data_of_leaf nofun⟩
  · exact alike_error h he

theorem enterClosure_alike {held held' : List Ref} (k : ClosureId) {args : List Node}
    (h : Twins x y T m.store m'.store)
    (ha : ∀ a ∈ args, T.Data a.value) :
    (twinRun x y).Alike T
      (fun U a a' => (twinRun x y).frame U a.1 a'.1 ∧
        (twinRun x y).code U .expression a.1 a'.1 a.2 a'.2)
      (enterClosure held k args span m) (enterClosure held' k args span m') := by
  obtain ⟨log, hrun⟩ := enterClosure_run held k args span m
  obtain ⟨log', hrun'⟩ := enterClosure_run held' k args span m'
  obtain ⟨hname, hframe, zf, z, hzf, hb, hparams, hbody⟩ := h.closure k
  have hdisplay : (m'.store.closure k).displayName = (m.store.closure k).displayName := by
    unfold Closure.displayName
    rw [hname]
  rw [hrun, hrun', hparams, hdisplay, hframe, List.length_map, List.zip_map_left]
  split
  · rename_i hlength
    have hnames : ((m.store.closure k).params.zip args).map Prod.fst =
        (m.store.closure k).params := List.map_fst_zip hlength.le
    rw [← hnames] at hb
    obtain ⟨T', hle, h', hid, hz⟩ :=
      h.enclose hzf (fun e he => ha e.2 (List.of_mem_zip he).2) hb held held'
    exact alike_ok hle h' ⟨⟨hid, z, hz⟩, hid, z, hz, Twinning.altered_mono hle hbody⟩
  · exact alike_error h (.same nofun)

theorem bindGlobal_alike {held : List Ref} {name : String} {v : Node}
    (h : Twins x y T m.store m'.store) (hf : T.zone f = some z) (hv : T.Data v.value) :
    (twinRun x y).Alike T (fun _ _ _ => True) (bindGlobal held f name v m)
      (bindGlobal held f name v m') := by
  obtain ⟨log, hrun⟩ := bindGlobal_run held f name v m
  obtain ⟨log', hrun'⟩ := bindGlobal_run held f name v m'
  have hnamed := h.nameFresh held v.value name
  obtain ⟨hroot, hzone⟩ := hnamed.root_eq hf
  rw [hrun, hrun', Store.defineGlobal, Store.defineGlobal, hroot]
  exact alike_ok le_rfl (hnamed.bind hzone (.inl rfl) hv) trivial

theorem assignName_alike {a : String} {v : Node} (h : Twins x y T m.store m'.store)
    (hf : T.zone f = some z) (ha : z.Admits x y .assigned a) (hv : T.Data v.value) :
    (twinRun x y).Alike T (fun _ _ _ => True) (assignName f a v span m)
      (assignName f (z.rename x y a) v span m') := by
  have hbody : z = .body → a ≠ y := by
    rintro rfl
    exact ha.1
  obtain ⟨howner, hnone, hsome⟩ := h.owner?_eq hf hbody
  rw [assignName_run, assignName_run, howner]
  cases ho : m.store.owner? f a with
  | none =>
    rw [hnone ho]
    exact alike_error h (.same nofun)
  | some g =>
    obtain ⟨hmem, zg, hzg, hname⟩ := hsome ho
    rw [← hname]
    exact alike_ok le_rfl (h.bind hzg (.inr hmem) hv) trivial

/-! ### Abstraction -/

/-- Parameters that are not replaced: they bind the same names on both sides, and inside `x` is none
of them. -/
theorem parameterNames_plain (hz : z ≠ .binder) {nodes nodes' : List Node}
    (hn : List.Forall₂ (T.Altered x y z .target) nodes nodes') :
    (∃ names, Zone.Beneath x z names z ∧ ∀ m,
        parameterNames [] nodes m = .ok names m ∧
        parameterNames [] nodes' m = .ok (names.map (z.rename x y)) m) ∨
      ∃ e e', T.Complaints e e' ∧ ∀ m, parameterNames [] nodes m = .error e m ∧
        parameterNames [] nodes' m = .error e' m := by
  have hrun := parameterNames_run (V := T.Altered x y z .target) (E := T.Complaints)
    (fun hn => congrArg Value.symbol? (hn.target_eq hz))
    (fun hn => hn.span_eq ▸ .notASymbol .lambda _ hn.typeName_eq)
    (fun name hn _ => hn.span_eq ▸ .same nofun) hn []
  refine hrun.imp_left fun ⟨names, hnames⟩ => ?_
  have hsymbols := parameterNames_symbols (hnames default).1
  have hkept : ∀ a ∈ names, z.rename x y a = a ∧ (z = .body → a ≠ x) := by
    intro a ha
    have hmem : some a ∈ nodes.map (·.value.symbol?) := by
      rw [hsymbols]
      exact List.mem_map_of_mem ha
    obtain ⟨n, hmem, hname⟩ := List.mem_map.1 hmem
    obtain ⟨i, hi, rfl⟩ := List.getElem_of_mem hmem
    exact (hn.get hi (hn.length_eq ▸ hi)).target_name hz hname
  refine ⟨names, .self hz fun a ha => (hkept a ha).2, fun m => ⟨(hnames m).1, ?_⟩⟩
  rw [List.map_congr_left fun a ha => (hkept a ha).1, List.map_id']
  exact (hnames m).2

/-- Parameters of which one is replaced. -/
theorem parameterNames_renamed {nodes nodes' : List Node} {names : List String}
    (hn : List.Forall₂ (T.Altered x y .binder .target) nodes nodes')
    (hnames : nodes.map (·.value.symbol?) = names.map some) (hnodup : names.Nodup) (m : Machine) :
    parameterNames [] nodes m = .ok names m ∧
      parameterNames [] nodes' m = .ok (names.map (Zone.body.rename x y)) m := by
  have hnames' : nodes'.map (·.value.symbol?) =
      (names.map (Zone.body.rename x y)).map some := by
    have hmap : nodes'.map (·.value.symbol?) =
        (nodes.map (·.value.symbol?)).map (Option.map (Zone.body.rename x y)) := by
      clear hnames
      induction hn with
      | nil => rfl
      | cons ha _ ih =>
        rw [List.map_cons, List.map_cons, List.map_cons, ih, ha.symbol?_eq]
        rfl
    rw [hmap, hnames, List.map_map, List.map_map]
    rfl
  exact ⟨parameterNames_of_symbols hnames hnodup (fun _ _ => List.not_mem_nil) m,
    parameterNames_of_symbols hnames' (hnodup.map (Zone.rename_injective x y .body))
      (fun _ _ => List.not_mem_nil) m⟩

/-- The closure that a `lambda` expression makes: its parameters and its body are replaced
alike. -/
theorem parameterNames_alike (h : Twins x y T m.store m'.store) (hf : T.zone f = some z)
    {params body params' body' : Node} {nodes nodes' : List Node}
    (ha : T.Abstracts x y z params body params' body')
    (hs : m.store.elements? params.value = some nodes)
    (ht : m'.store.elements? params'.value = some nodes') :
    (∃ names names', T.Closures x y ⟨none, names, body, f⟩ ⟨none, names', body', f⟩ ∧
        parameterNames [] nodes m = .ok names m ∧ parameterNames [] nodes' m' = .ok names' m') ∨
      ∃ e e', T.Complaints e e' ∧ parameterNames [] nodes m = .error e m ∧
        parameterNames [] nodes' m' = .error e' m' := by
  have hitems {z : Zone} (hparams : T.Altered x y z .parameters params params') :
      List.Forall₂ (T.Altered x y z .target) nodes nodes' := by
    rcases h.parameters hparams with ⟨hnone, -⟩ | ⟨_, _, hs', ht', hn⟩
    · cases hnone.symm.trans hs
    · cases hs'.symm.trans hs
      cases ht'.symm.trans ht
      exact hn
  cases ha with
  | plain hparams hbody =>
    rcases parameterNames_plain (Twinning.zone_ne_binder hf) (hitems hparams) with
      ⟨names, hb, hnames⟩ | ⟨e, e', he, hrun⟩
    · exact .inl ⟨names, _, ⟨rfl, rfl, z, z, hf, hb, rfl, hbody⟩, (hnames m).1, (hnames m').2⟩
    · exact .inr ⟨e, e', he, (hrun m).1, (hrun m').2⟩
  | renamed hparams hnodes hnames hnodup hx hbody =>
    cases hs.symm.trans (h.left.isList hnodes).elements?_eq
    have hrun := parameterNames_renamed (hitems hparams) hnames hnodup
    exact .inl ⟨_, _, ⟨rfl, rfl, .outside, .body, hf, .enter hx, rfl, hbody⟩, (hrun m).1,
      (hrun m').2⟩

theorem evalLambda_alike (hx : isReserved x = false) (hy : isReserved y = false)
    {ns ns' : List Node} (h : Twins x y T m.store m'.store) (hf : T.zone f = some z)
    (hlength : ns.length = ns'.length)
    (hns : ∀ {params body params' body'}, ns = [params, body] → ns' = [params', body'] →
      T.Abstracts x y z params body params' body') :
    (twinRun x y).Alike T (twinRun x y).value (evalLambda elements? ns f span m)
      (evalLambda elements? ns' f span m') := by
  match ns, ns', hlength with
  | [], [], _ | [_], [_], _ | _ :: _ :: _ :: _, _ :: _ :: _ :: _, _ =>
    exact alike_error h (.same nofun)
  | [params, body], [params', body'], _ =>
    have ha := hns rfl rfl
    obtain ⟨zp, hparams⟩ := ha.parameters
    have hrun := elements?_run params m
    have hrun' := elements?_run params' m'
    rcases h.parameters hparams with ⟨hs, ht⟩ | ⟨nodes, nodes', hs, ht, -⟩
    · rw [hs] at hrun
      rw [ht] at hrun'
      rw [evalLambda_none hrun, evalLambda_none hrun', hparams.span_eq]
      exact alike_error h (.same nofun)
    · rw [hs] at hrun
      rw [ht] at hrun'
      rw [evalLambda_some hrun, evalLambda_some hrun']
      rcases parameterNames_alike h hf ha hs ht with
        ⟨names, names', hk, hnames, hnames'⟩ | ⟨e, e', he, herr, herr'⟩
      · simp only [bind, EStateM.bind, hnames, hnames']
        obtain ⟨h', hid⟩ := h.newClosure hx hy hk
        exact alike_ok le_rfl h'
          ⟨congrArg (fun k => (⟨.procedure (.closure k), span⟩ : Node)) hid,
            Twinning.data_of_leaf nofun⟩
      · simp only [bind, EStateM.bind, herr, herr']
        exact alike_error h he

/-! ### Lists that are taken apart -/

/-- The items of a list in the roles that the list has for them. -/
theorem parts_alike (hx : isReserved x = false) (hy : isReserved y = false)
    (hf : T.zone f = some z) {items items' : List Node} {zones : Nat → Zone}
    (ho : r.isOpened = true) (hne : r = .expression → items ≠ [])
    (hlength : items.length = items'.length)
    (hz : Zone.Items x (T.left.Parameters items) z r zones)
    (hi : ∀ {i a a'}, items[i]? = some a → items'[i]? = some a' →
      T.Altered x y (zones i) (r.item (headForm items) i) a a') :
    (twinRun x y).parts T f f r items items' := by
  have hform := Layout.Altered.headForm_eq hx hy hlength hi
  cases hz with
  | same =>
    refine Likeness.parts_of_items (fun hn => ?_) (fun hns => ?_) ho hne hform
      ⟨hlength, fun ha ha' => ⟨rfl, z, hf, hi ha ha'⟩⟩
    · obtain ⟨-, z, -, hn⟩ := hn
      exact hn.eq_of_datum
    · refine ⟨rfl, z, hf, hns.length, ?_⟩
      rintro params body params' body' rfl rfl
      obtain ⟨-, zp, hzp, hparams⟩ := hns.code (i := 0) rfl rfl
      obtain ⟨-, zb, hzb, hbody⟩ := hns.code (i := 1) rfl rfl
      cases hf.symm.trans hzp
      cases hf.symm.trans hzb
      exact .plain hparams hbody
  | lambda hparams hnodup hxmem =>
    obtain ⟨head, params, body, nodes, rfl, hlambda, hchain, hnames⟩ := hparams
    match items', hlength with
    | [head', params', body'], _ =>
      rw [hlambda] at hi
      refine ⟨hform, ?_⟩
      have hhead : Likeness.formOf head = some .lambda := hlambda
      rw [hhead]
      refine ⟨rfl, .outside, hf, rfl, ?_⟩
      rintro _ _ _ _ ⟨⟩ ⟨⟩
      exact .renamed (hi (i := 1) rfl rfl) hchain hnames hnodup hxmem (hi (i := 2) rfl rfl)

theorem refsOf_eq {items items' : List Node} {zones : Nat → Zone} {roles : Nat → Role}
    (hlength : items.length = items'.length)
    (hi : ∀ {i a a'}, items[i]? = some a → items'[i]? = some a' →
      T.Altered x y (zones i) (roles i) a a') : refsOf items' = refsOf items := by
  have hrefs : items'.map Node.refs = items.map Node.refs := by
    refine List.ext_getElem (by simp [hlength]) fun i hlt hlt' => ?_
    rw [List.length_map] at hlt hlt'
    rw [List.getElem_map, List.getElem_map]
    exact (hi (List.getElem?_eq_getElem hlt') (List.getElem?_eq_getElem hlt)).refs_eq
  rw [refsOf, refsOf, List.flatMap_def, List.flatMap_def, hrefs]

theorem split_alike (hx : isReserved x = false) (hy : isReserved y = false)
    (h : Twins x y T m.store m'.store) (hf : T.zone f = some z) (hn : T.Altered x y z r n n')
    (ho : r.isOpened = true) (hp : r = .expression → ∃ c, n.value = .pair c) :
    (MiniScheme.elements? n m = .ok none m ∧ MiniScheme.elements? n' m' = .ok none m' ∧
        r ≠ .expression) ∨
      ∃ items items', MiniScheme.elements? n m = .ok (some items) m ∧
        MiniScheme.elements? n' m' = .ok (some items') m' ∧
        (twinRun x y).parts T f f r items items' ∧ refsOf items' = refsOf items := by
  have hr : r ≠ .datum := by
    rintro rfl
    cases ho
  rw [elements?_run, elements?_run]
  rcases h.elements? hr hn with
    ⟨hs, ht, hleaf⟩ | ⟨items, items', zones, hs, ht, hlength, hz, hi, hne⟩
  · rw [hs, ht]
    refine .inl ⟨rfl, rfl, fun he => ?_⟩
    obtain ⟨c, hc⟩ := hp he
    exact hleaf c hc
  · rw [hs, ht]
    exact .inr ⟨items, items', rfl, rfl,
      parts_alike hx hy hf ho (fun he => hne (hp he)) hlength hz hi, refsOf_eq hlength hi⟩

/-! ### Whole evaluations -/

/-- The entries of a `let`: the same on both sides, and inside none is called `x`. -/
theorem entries_alike (hf : T.zone f = some z) {es es' : List (String × Node)}
    (hes : List.Forall₂ ((twinRun x y).entry T f f) es es') :
    es' = es.map (fun e => (z.rename x y e.1, e.2)) ∧ (∀ e ∈ es, T.Data e.2.value) ∧
      Zone.Beneath x z (es.map Prod.fst) z := by
  have hz := Twinning.zone_ne_binder hf
  have hentry {e e' : String × Node} (he : (twinRun x y).entry T f f e e') :
      e' = (z.rename x y e.1, e.2) ∧ T.Data e.2.value ∧ (z = .body → e.1 ≠ x) := by
    obtain ⟨hname, ⟨hv, hd⟩, n, n', ⟨-, z', hz', hn⟩, hsymbol⟩ := he
    cases hf.symm.trans hz'
    obtain ⟨hkept, hne⟩ := hn.target_name hz hsymbol
    exact ⟨Prod.ext (hname.symm.trans hkept.symm) hv, hd, hne⟩
  have hnames : ∀ a ∈ es.map Prod.fst, z = .body → a ≠ x := by
    intro a ha
    obtain ⟨e, he, rfl⟩ := List.mem_map.1 ha
    obtain ⟨i, hi, rfl⟩ := List.getElem_of_mem he
    exact (hentry (hes.get hi (hes.length_eq ▸ hi))).2.2
  refine ⟨?_, fun e he => ?_, .self hz hnames⟩
  · induction hes with
    | nil => rfl
    | cons he _ ih => rw [List.map_cons, (hentry he).1, ih fun a ha => hnames a (.tail _ ha)]
  · obtain ⟨i, hi, rfl⟩ := List.getElem_of_mem he
    exact (hentry (hes.get hi (hes.length_eq ▸ hi))).2.1

/-- **Evaluation goes the same way** whatever the parameter is called. -/
theorem simulation (hx : isReserved x = false) (hy : isReserved y = false) :
    Simulation (twinRun x y) elements? elements? where
  span_mono _ h := h
  frame_mono := by
    rintro T T' f _ hle ⟨rfl, z, hz⟩
    exact ⟨rfl, z, Twinning.zone_mono hle hz⟩
  value_mono hle h := ⟨h.1, h.2.mono hle⟩
  code_mono := by
    rintro T T' r f _ n n' hle ⟨rfl, z, hz, hn⟩
    exact ⟨rfl, z, Twinning.zone_mono hle hz, Twinning.altered_mono hle hn⟩
  definition_mono _ _ h := h
  held_mono _ h := h
  code_span := by
    rintro T r f _ n n' ⟨rfl, z, -, hn⟩
    exact hn.span_eq
  expression := by
    rintro T f _ n n' ⟨rfl, z, hf⟩ ⟨-, z', hz', hn⟩
    cases hf.symm.trans hz'
    have hspan := hn.span_eq
    have hshape := hn.shape
    obtain ⟨v, span⟩ := n
    obtain ⟨v', span'⟩ := n'
    cases hspan
    rcases hshape with hl | ⟨c, hc, hc'⟩
    · cases hl with
      | name ha => exact .name fun h => evalName_alike h hf ha
      | constant hs hp => exact .constant hs hs hp hp ⟨rfl, Twinning.data_of_leaf hp⟩
    · cases hc
      cases hc'
      exact .list c c
  else_iff := by
    rintro T f _ n n' ⟨rfl, z, -, hn⟩
    exact hn.else_iff hx hy
  target := by
    rintro T f _ n n' ⟨rfl, z, hz, hn⟩
    exact congrArg Value.symbol? (hn.target_eq (Twinning.zone_ne_binder hz))
  split_alike := by
    rintro T r f _ n n' m m' h ⟨rfl, z, hz, hn⟩ ho hp
    rcases split_alike hx hy h hz hn ho hp with
      ⟨hs, ht, hr⟩ | ⟨items, items', hs, ht, hparts, hrefs⟩
    · exact .inl ⟨hs, ht, fun he => absurd he hr⟩
    · refine .inr ⟨items, items', hs, ht, hparts, ?_⟩
      rintro _ held rfl
      exact congrArg (· ++ held) hrefs
  held_value := by
    rintro _ v _ h _ ⟨rfl, -⟩ rfl
    rfl
  held_frame := by
    rintro _ f _ h _ ⟨rfl, -⟩ rfl
    rfl
  isTrue h := congrArg (fun n : Node => n.value.isTrue) h.1
  kind := by
    rintro _ _ v ⟨rfl, -⟩
    match v.value with
    | .procedure (.primitive p) => exact .primitive p
    | .procedure (.closure k) => exact .closure k k
    | .atom _ | .nil | .pair _ | .unspecified => exact .other nofun nofun
  unspecified h := ⟨congrArg Node.unspecified h, Twinning.data_of_leaf nofun⟩
  boolean b h := ⟨congrArg (Node.boolean b) h, Twinning.data_of_leaf nofun⟩
  symbol := by
    rintro T f _ n n' name ⟨rfl, z, -, hn⟩ -
    exact ⟨congrArg (Node.symbol name) hn.span_eq, Twinning.data_of_leaf nofun⟩
  fault := by
    rintro _ s _ fault - rfl
    exact .same nofun
  notASymbol := by
    rintro T r f _ n n' form ⟨rfl, z, -, hn⟩
    rw [hn.span_eq]
    exact .notASymbol form _ hn.typeName_eq
  duplicateBinding := by
    rintro T f _ n n' name ⟨rfl, z, -, hn⟩ -
    rw [hn.span_eq]
    exact .same nofun
  notAProcedure := by
    rintro T v _ s _ ⟨rfl, hv⟩ rfl
    refine .same ?_
    rintro _ _ ⟨⟩
    exact hv
  applyPrimitive := by
    rintro T v v' p args args' s _ m m' h - - ha rfl
    exact applyPrimitive_alike p h ha
  enterClosure := by
    rintro T held held' v _ k k' args args' s _ m m' h - ⟨rfl, -⟩ hk hk' ha rfl
    obtain ⟨rfl, hargs⟩ := eq_of_values ha
    cases hk.symm.trans hk'
    exact enterClosure_alike k h hargs
  bindGlobal := by
    rintro T f _ n n' e e' name held _ v _ m m' h rfl ⟨rfl, z, hz⟩ - - - ⟨rfl, hv⟩
    exact bindGlobal_alike h hz hv
  assigned := by
    rintro T f _ n n' ⟨rfl, z, hf⟩ ⟨-, z', hz', hn⟩
    cases hf.symm.trans hz'
    rw [hn.span_eq]
    rcases hn.shape with hl | ⟨c, hc, hc'⟩
    · revert hl
      generalize n.value = v
      generalize n'.value = v'
      rintro (ha | ⟨hs, -⟩)
      · refine .inr ⟨_, _, rfl, rfl, ?_⟩
        rintro v _ m m' h ⟨rfl, hv⟩
        exact assignName_alike h hf ha hv
      · exact .inl ⟨hs, hs⟩
    · exact .inl ⟨by rw [hc]; rfl, by rw [hc']; rfl⟩
  lambda := by
    rintro T f _ ns ns' s _ m m' h - ⟨rfl, z, hz, hlength, hns⟩ rfl
    exact evalLambda_alike hx hy h hz hlength hns
  enclose := by
    rintro T held held' f _ es es' m m' h - ⟨rfl, z, hf⟩ hes - -
    obtain ⟨rfl, hdata, hb⟩ := entries_alike hf hes
    obtain ⟨T', hle, h', hid, hz⟩ := h.enclose hf hdata hb held held'
    rw [enclose_run, enclose_run]
    refine alike_ok hle h' ⟨⟨hid, z, hz⟩, ?_⟩
    rintro r n n' ⟨-, z', hz', hn⟩
    cases hf.symm.trans hz'
    exact ⟨hid, z, hz, Twinning.altered_mono hle hn⟩

/-- **Whole evaluations**, by induction on the room. -/
theorem evaluators (hx : isReserved x = false) (hy : isReserved y = false) (limit room : Nat) :
    (twinRun x y).Evaluators (eval limit room) (eval limit room) := by
  induction room with
  | zero =>
    rintro T held held' n n' f f' m m' h - - ⟨-, z, -, hn⟩
    refine alike_error ?_ ?_
    · rw [Machine.store_note, Machine.store_note]
      exact h
    · rw [hn.span_eq]
      exact .same nofun
  | succ room ih => exact (simulation hx hy).step_alike trivial ih

end twinRun

end MiniScheme
