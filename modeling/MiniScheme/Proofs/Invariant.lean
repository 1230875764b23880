import MiniScheme.Proofs.Lists
import MiniScheme.Proofs.Operations
import MiniScheme.Proofs.Primitives
import MiniScheme.Proofs.Simulation

/-!
# Invariants of one evaluation

What holds of a machine and of everything an evaluation handles, from its start to its end. A
`Conduct` is a choice of such properties, seen from a world that grows while the evaluation runs;
`Conduct.Kept` lists what the operations on the store have to keep. An evaluation that starts
well ends well (`Kept.eval_ends`): it is a simulation of the run by itself.

Whether an evaluation comes by a certain point can be told from outside: `evalUntil` stops there.
If stopping there makes no difference then the evaluation never came by (`Meets`). So an
invariant may rely on it that certain `define` forms are not evaluated, `Conduct.definition`. And
what is known from one world to a later one is known from the moments that an evaluation does
come by.

## Results

* `Conduct.Kept.simulation`: every operation keeps what the conduct asks for.
* `Conduct.Kept.evalUntil_ends`, `Conduct.Kept.eval_ends`: whole evaluations, interrupted or not.
* `Conduct.Kept.eval_passes`: the moments of an evaluation lie between its start and its end.
-/

namespace MiniScheme

/-! ## Interrupted evaluations -/

/-- Evaluates like `ev`, but stops with the error `mark` where `p` says so. -/
def interrupting (p : Node → FrameId → Machine → Bool) (mark : EvalError) (ev : Evaluator) :
    Evaluator :=
  fun held node frame m => if p node frame m then .error mark m else ev held node frame m

/-- Evaluates like `eval`, but stops with the error `mark` as soon as it is to evaluate a node
for which `p` says so, in whatever frame and however deep inside. -/
def evalUntil (p : Node → FrameId → Machine → Bool) (mark : EvalError) (limit : Nat) :
    Nat → Evaluator
  | 0 => interrupting p mark (stop limit)
  | room + 1 => interrupting p mark (step elements? (evalUntil p mark limit room))

/-- The evaluation comes by a node for which `p` says so: stopping it there makes a difference. -/
def Meets (p : Node → FrameId → Machine → Bool) (limit room : Nat) (held : List Ref) (node : Node)
    (frame : FrameId) (m : Machine) : Prop :=
  ∃ mark, evalUntil p mark limit room held node frame m ≠ eval limit room held node frame m

theorem evalUntil_never (mark : EvalError) (limit room : Nat) :
    evalUntil (fun _ _ _ => false) mark limit room = eval limit room := by
  induction room with
  | zero => rfl
  | succ room ih =>
    rw [evalUntil, ih]
    rfl

/-- The machine at the end of a computation. -/
def finalMachine {α : Type} : EStateM.Result EvalError Machine α → Machine
  | .ok _ m | .error _ m => m

/-! ## Conducts -/

/-- What is to hold along an evaluation, from a world on. -/
structure Conduct (W : Type) where
  machine : W → Machine → Prop
  span : W → Span → Prop
  frame : W → FrameId → Prop
  value : W → Node → Prop
  code : W → Role → Node → Prop
  /-- the operands of a `define` form that is evaluated in a frame -/
  definition : W → FrameId → List Node → Prop
  /-- a name that is read, or that an error mentions -/
  name : W → String → Prop
  error : W → EvalError → Prop

namespace Conduct

variable {W : Type} {w : W}

/-- Both sides are the same run until the right one is lost, and the left one is conducted well. -/
def likeness (C : Conduct W) (lost : W → Prop) : Likeness W where
  machine w m m' := m = m' ∧ C.machine w m
  span w s s' := s = s' ∧ C.span w s
  frame w f f' := f = f' ∧ C.frame w f
  value w v v' := v = v' ∧ C.value w v
  code w r _ _ n n' := n = n' ∧ C.code w r n
  abstraction w _ _ ns ns' := ns = ns' ∧ ∀ params body, ns = [params, body] →
    C.code w .parameters params ∧ C.code w .expression body
  definition w f _ ns ns' := ns = ns' ∧ C.definition w f ns
  held _ h h' := h = h'
  error w e e' := e = e' ∧ C.error w e
  fatal _ := False
  lost := lost

section

variable {C : Conduct W} {lost : W → Prop}

theorem eq_of_entries {f f' : FrameId} {es es' : List (String × Node)}
    (h : List.Forall₂ ((C.likeness lost).entry w f f') es es') :
    es = es' ∧ ∀ e ∈ es, C.value w e.2 := by
  induction h with
  | nil => exact ⟨rfl, nofun⟩
  | cons he _ ih =>
    obtain ⟨hname, ⟨hv, hd⟩, -⟩ := he
    exact ⟨by rw [Prod.ext hname hv, ih.1], List.forall_mem_cons.2 ⟨hd, ih.2⟩⟩

end

/-! ## What the operations have to keep -/

variable [Preorder W] (C : Conduct W) {α : Type}

/-- The computation ends well, be it with a result or with an error. -/
def Ends (w : W) (Q : W → α → Prop) : EStateM.Result EvalError Machine α → Prop
  | .ok a m => ∃ u, w ≤ u ∧ C.machine u m ∧ Q u a
  | .error e m => ∃ u, w ≤ u ∧ C.machine u m ∧ C.error u e

/-- A node of code had these items when it was taken apart, now or earlier. -/
def Opened (w : W) (r : Role) (n : Node) (items : List Node) : Prop :=
  ∃ v m, v ≤ w ∧ C.machine v m ∧ C.code v r n ∧ m.store.elements? n.value = some items

/-- A node for which `q` says so is evaluated in this world. -/
def Passes (q : Node → FrameId → Machine → Bool) (w : W) : Prop :=
  ∃ n f m, q n f m = true ∧ C.machine w m

/-- What every operation of an evaluation has to keep. -/
structure Kept : Prop where
  span_mono : ∀ {w u s}, w ≤ u → C.span w s → C.span u s
  frame_mono : ∀ {w u f}, w ≤ u → C.frame w f → C.frame u f
  value_mono : ∀ {w u v}, w ≤ u → C.value w v → C.value u v
  code_mono : ∀ {w u r n}, w ≤ u → C.code w r n → C.code u r n
  definition_mono : ∀ {w u f ns}, w ≤ u → C.frame w f → C.definition w f ns → C.definition u f ns
  note : ∀ {w m} event, C.machine w m → C.machine w (m.note event)
  -- code
  code_span : ∀ {w r n}, C.code w r n → C.span w n.span
  code_name : ∀ {w r n name}, C.code w r n → n.value.symbol? = some name → C.name w name
  item : ∀ {w m r n items i x}, C.machine w m → C.code w r n → r ≠ .datum →
    m.store.elements? n.value = some items → items[i]? = some x →
    C.code w (r.item (headForm items) i) x
  -- values
  constant : ∀ {w n}, C.code w .expression n → n.value.symbol? = none →
    (∀ c, n.value ≠ .pair c) → C.value w n
  quoted : ∀ {w n}, C.code w .datum n → C.value w n
  boolean : ∀ {w s} b, C.span w s → C.value w (.boolean b s)
  symbol : ∀ {w n name}, C.code w .target n → n.value.symbol? = some name →
    C.value w (.symbol name n.span)
  unspecified : ∀ {w s}, C.span w s → C.value w (.unspecified s)
  found : ∀ {w m f n name v}, C.machine w m → C.frame w f → C.code w .expression n →
    n.value.symbol? = some name → m.store.lookup? f name = some v → C.value w v
  value_name : ∀ {w v name}, C.value w v → v.value.symbol? = some name → C.name w name
  primitive_name : ∀ {w} (p : Primitive), C.name w p.name
  -- errors
  located : ∀ {w e}, C.span w e.span → (∀ name ∈ e.names, C.name w name) → C.error w e
  mismatch : ∀ {w a} p x i, C.value w a → C.error w (.mismatch p x a.value i a.span)
  divisionByZero : ∀ {w a n}, C.value w a → a.value = .atom (.integer n) →
    C.error w (.divisionByZero a.span)
  -- operations on the store
  change : ∀ {w v p s c m}, C.machine w m → C.value w v → v.value = .procedure (.primitive p) →
    C.span w s → p.Change (C.value w) s c →
    ∃ u, w ≤ u ∧ C.machine u { m with store := (c m.store).2 } ∧ C.value u (c m.store).1
  enterClosure : ∀ {w held v k args s m}, C.machine w m → C.value w v →
    v.value = .procedure (.closure k) → (∀ a ∈ args, C.value w a) → C.span w s →
    C.Ends w (fun u x => C.frame u x.1 ∧ C.code u .expression x.2)
      (MiniScheme.enterClosure held k args s m)
  bindGlobal : ∀ {w f n e name held v m}, C.machine w m → C.frame w f →
    C.definition w f [n, e] → n.value.symbol? = some name → C.name w name → C.value w v →
    C.Ends w (fun _ _ => True) (MiniScheme.bindGlobal held f name v m)
  assignName : ∀ {w f n name v m}, C.machine w m → C.frame w f → C.code w .assigned n →
    n.value.symbol? = some name → C.value w v →
    C.Ends w (fun _ _ => True) (MiniScheme.assignName f name v n.span m)
  newClosure : ∀ {w f names body s m}, C.machine w m → C.frame w f → names.Nodup →
    C.code w .expression body → C.span w s →
    C.Ends w (fun u k => C.value u ⟨.procedure (.closure k), s⟩)
      (EvalM.transform (fun t => t.newClosure ⟨none, names, body, f⟩) m)
  enclose : ∀ {w held f entries m}, C.machine w m → C.frame w f → (∀ e ∈ entries, C.value w e.2) →
    (entries.map Prod.fst).Nodup → LetNames (C.Opened w) (entries.map Prod.fst) →
    C.Ends w C.frame (EvalM.transform (fun t => t.enclose held f entries) m)

/-! ## A run beside itself -/

variable {C} {lost : W → Prop} {Q : W → α → Prop} {r r' : EStateM.Result EvalError Machine α}

theorem Ends.alike {P : W → α → α → Prop} (h : C.Ends w Q r)
    (hq : ∀ {u a}, w ≤ u → Q u a → P u a a) : (C.likeness lost).Alike w P r r := by
  cases r with
  | ok a m =>
    obtain ⟨u, hu, hm, ha⟩ := h
    exact .ok hu ⟨rfl, hm⟩ (hq hu ha)
  | error e m =>
    obtain ⟨u, hu, hm, he⟩ := h
    exact .error hu ⟨rfl, hm⟩ ⟨rfl, he⟩

theorem ends_of_alike {P : W → α → α → Prop} (h : (C.likeness lost).Alike w P r r')
    (hq : ∀ {u a b}, P u a b → Q u a) : C.Ends w Q r := by
  cases r with
  | ok a m =>
    obtain ⟨b, m', u, hu, hm, ha, -⟩ := h
    exact ⟨u, hu, hm.2, hq ha⟩
  | error e m =>
    obtain hf | ⟨e', m', u, hu, hm, he, -⟩ := h
    · exact hf.elim
    · exact ⟨u, hu, hm.2, he.2⟩

/-- If the right side does not end as the left one does then it was lost on the way. -/
theorem exists_lost_of_alike {P : W → α → α → Prop} (h : (C.likeness lost).Alike w P r r')
    (hp : ∀ {u a b}, P u a b → a = b) (hne : r' ≠ r) :
    ∃ v u, w ≤ v ∧ lost v ∧ v ≤ u ∧ C.machine u (finalMachine r) := by
  cases r with
  | ok a m =>
    obtain ⟨b, m', u, hu, ⟨rfl, hm⟩, ha, hr | ⟨v, hv, hvu, hlost⟩⟩ := h
    · cases hp ha
      exact absurd hr hne
    · exact ⟨v, u, hv, hlost, hvu, hm⟩
  | error e m =>
    obtain hf | ⟨e', m', u, hu, ⟨rfl, hm⟩, ⟨rfl, -⟩, hr | ⟨v, hv, hvu, hlost⟩⟩ := h
    · exact hf.elim
    · exact absurd hr hne
    · exact ⟨v, u, hv, hlost, hvu, hm⟩

theorem opened_of_alike {r : Role} {n : Node} {items : List Node}
    (h : (C.likeness lost).Opened elements? w r n items) : C.Opened w r n items := by
  obtain ⟨v, f, f', n', m, m', hv, ⟨-, hm⟩, ⟨-, hn⟩, hsplit⟩ := h
  rw [elements?_run] at hsplit
  exact ⟨v, m, hv, hm, hn, (EStateM.Result.ok.inj hsplit).1⟩

/-- One side stops for `p`, the other for `q` as well: then it is lost. -/
theorem interrupting_alike {p q : Node → FrameId → Machine → Bool} {mark : EvalError}
    {ev ev' : Evaluator} {held : List Ref} {n : Node} {f : FrameId} {m : Machine}
    (hm : C.machine w m) (hmark : p n f m = true → C.error w mark)
    (h : p n f m = false → (C.likeness (C.Passes q)).Alike w (C.likeness (C.Passes q)).value
      (ev held n f m) (ev' held n f m)) :
    (C.likeness (C.Passes q)).Alike w (C.likeness (C.Passes q)).value
      (interrupting p mark ev held n f m)
      (interrupting (fun n f m => q n f m || p n f m) mark ev' held n f m) := by
  unfold interrupting
  cases hp : p n f m with
  | true =>
    simp only [hp, Bool.or_true, if_true]
    exact .error le_rfl ⟨rfl, hm⟩ ⟨rfl, hmark hp⟩
  | false =>
    cases hq : q n f m with
    | true => exact (h hp).of_lost le_rfl ⟨n, f, m, hq, hm⟩
    | false =>
      simp only [hp, hq, Bool.or_self, Bool.false_eq_true, if_false]
      exact h hp

namespace Kept

variable (K : C.Kept) {m : Machine} {f : FrameId} {n : Node} {span : Span}

include K

theorem fails {e : EvalError} (hm : C.machine w m) (he : C.span w e.span)
    (hnames : ∀ name ∈ e.names, C.name w name) : C.Ends w Q (.error e m) :=
  ⟨w, le_rfl, hm, K.located he hnames⟩

theorem evalName {name : String} (hm : C.machine w m) (hf : C.frame w f)
    (hc : C.code w .expression n) (hname : n.value.symbol? = some name) :
    C.Ends w C.value (MiniScheme.evalName name f n.span m) := by
  rw [evalName_run]
  cases hl : m.store.lookup? f name with
  | some v => exact ⟨w, le_rfl, hm, K.found hm hf hc hname hl⟩
  | none =>
    exact K.fails hm (K.code_span hc) (List.forall_mem_singleton.2 (K.code_name hc hname))

theorem applyPrimitive {v : Node} {p : Primitive} {args : List Node} (hm : C.machine w m)
    (hv : C.value w v) (hp : v.value = .procedure (.primitive p))
    (hargs : ∀ a ∈ args, C.value w a) (hs : C.span w span) :
    C.Ends w C.value (MiniScheme.applyPrimitive p args span m) := by
  rw [applyPrimitive_run]
  have hsite {e : EvalError} (he : e.span = span)
      (hnames : ∀ name ∈ e.names, ∃ q : Primitive, q.name = name) : C.error w e := by
    refine K.located (he ▸ hs) fun name hname => ?_
    obtain ⟨q, rfl⟩ := hnames name hname
    exact K.primitive_name q
  rcases p.call_change K.mismatch K.divisionByZero hsite hargs with
    ⟨change, hcall, hchange⟩ | ⟨e, hcall, he⟩
  · rw [hcall]
    exact K.change hm hv hp hs hchange
  · rw [hcall]
    exact ⟨w, le_rfl, hm, he⟩

theorem parts {r : Role} {items : List Node} (f f' : FrameId) (hm : C.machine w m)
    (hc : C.code w r n) (ho : r.isOpened = true) (hp : r = .expression → ∃ c, n.value = .pair c)
    (hi : m.store.elements? n.value = some items) :
    (C.likeness lost).parts w f f' r items items := by
  have hr : r ≠ .datum := by
    rintro rfl
    cases ho
  refine Likeness.parts_of_items (R := C.likeness lost) (w := w) (fun hn => ⟨hn.1, K.quoted hn.2⟩)
    (fun hns => ?_) ho (fun he => ?_) rfl ?_
  · obtain rfl := hns.eq fun hn => hn.1
    refine ⟨rfl, ?_⟩
    rintro params body rfl
    exact ⟨(hns.code (i := 0) rfl rfl).2, (hns.code (i := 1) rfl rfl).2⟩
  · obtain ⟨c, hpair⟩ := hp he
    rw [hpair] at hi
    exact Store.elements?_ne_nil hi
  · refine ⟨rfl, fun hn hn' => ?_⟩
    cases hn.symm.trans hn'
    exact ⟨rfl, K.item hm hc hr hi hn⟩

theorem evalLambda {ns : List Node} (hm : C.machine w m) (hf : C.frame w f)
    (hns : ∀ params body, ns = [params, body] →
      C.code w .parameters params ∧ C.code w .expression body) (hs : C.span w span) :
    C.Ends w C.value (MiniScheme.evalLambda elements? ns f span m) := by
  match ns with
  | [] | [_] | _ :: _ :: _ :: _ => exact K.fails hm hs nofun
  | [params, body] =>
    obtain ⟨hparams, hbody⟩ := hns params body rfl
    have hrun := elements?_run params m
    cases hn : m.store.elements? params.value with
    | none =>
      rw [hn] at hrun
      rw [evalLambda_none hrun]
      exact K.fails hm (K.code_span hparams) nofun
    | some nodes =>
      rw [hn] at hrun
      rw [evalLambda_some hrun]
      have hcode : List.Forall₂ (fun n n' => n = n' ∧ ∃ r, C.code w r n) nodes nodes := by
        refine List.forall₂_same.2 fun x hx => ⟨rfl, ?_⟩
        obtain ⟨i, hi⟩ := List.mem_iff_getElem?.1 hx
        exact ⟨_, K.item hm hparams (by decide) hn hi⟩
      have hnames := parameterNames_run (V := fun n n' => n = n' ∧ ∃ r, C.code w r n)
        (E := fun e e' => e = e' ∧ C.error w e) (fun hn => hn.1 ▸ rfl)
        (fun ⟨hn, _, hc⟩ => ⟨hn ▸ rfl, K.located (K.code_span hc) nofun⟩)
        (fun _ ⟨hn, _, hc⟩ hname => ⟨hn ▸ rfl, K.located (K.code_span hc)
          (List.forall_mem_singleton.2 (K.code_name hc hname))⟩)
        hcode []
      rcases hnames with ⟨names, hn⟩ | ⟨e, e', ⟨rfl, herror⟩, he⟩
      · have hnodup := (parameterNames_nodup (hn m).1).1
        simp only [bind, EStateM.bind, (hn m).1]
        exact K.newClosure hm hf hnodup hbody hs
      · simp only [bind, EStateM.bind, (he m).1]
        exact ⟨w, le_rfl, hm, herror⟩

/-- **Every operation is conducted well.** -/
theorem simulation (lost : W → Prop) : Simulation (C.likeness lost) elements? elements? where
  span_mono hle h := ⟨h.1, K.span_mono hle h.2⟩
  frame_mono hle h := ⟨h.1, K.frame_mono hle h.2⟩
  value_mono hle h := ⟨h.1, K.value_mono hle h.2⟩
  code_mono hle h := ⟨h.1, K.code_mono hle h.2⟩
  definition_mono hle hf h := ⟨h.1, K.definition_mono hle hf.2 h.2⟩
  held_mono _ h := h
  code_span h := ⟨congrArg Node.span h.1, K.code_span h.2⟩
  expression := by
    rintro w f _ n _ ⟨rfl, hf⟩ ⟨rfl, hn⟩
    match hv : n.value with
    | .atom (.symbol a) =>
      refine .name fun ⟨hm, h⟩ => hm ▸ ?_
      exact (K.evalName h hf hn (by rw [hv]; rfl)).alike fun _ hv => ⟨rfl, hv⟩
    | .pair c => exact .list c c
    | .atom (.integer _) | .atom (.boolean _) | .nil | .procedure _ | .unspecified =>
      exact .constant rfl rfl nofun nofun
        ⟨rfl, K.constant hn (by rw [hv]; rfl) (fun c hc => by rw [hv] at hc; cases hc)⟩
  else_iff := by
    rintro _ f f' n _ ⟨rfl, -⟩
    exact Iff.rfl
  target h := congrArg (fun n : Node => n.value.symbol?) h.1.symm
  split_alike := by
    rintro w r f f' n _ m _ ⟨rfl, hm⟩ ⟨rfl, hn⟩ ho hp
    rw [elements?_run]
    cases hi : m.store.elements? n.value with
    | none => exact .inl ⟨rfl, rfl, fun _ => ⟨rfl, K.located (K.code_span hn) nofun⟩⟩
    | some items =>
      exact .inr ⟨items, items, rfl, rfl, K.parts f f' hm hn ho hp hi,
        fun hh => congrArg (refsOf items ++ ·) hh⟩
  held_value := by
    rintro _ v _ h _ ⟨rfl, -⟩ rfl
    rfl
  held_frame := by
    rintro _ f _ h _ ⟨rfl, -⟩ rfl
    rfl
  isTrue h := congrArg (fun n : Node => n.value.isTrue) h.1.symm
  kind := by
    rintro _ v _ ⟨rfl, -⟩
    match v.value with
    | .procedure (.primitive p) => exact .primitive p
    | .procedure (.closure k) => exact .closure k k
    | .atom _ | .nil | .pair _ | .unspecified => exact .other nofun nofun
  unspecified h := ⟨congrArg Node.unspecified h.1, K.unspecified h.2⟩
  boolean b h := ⟨congrArg (Node.boolean b) h.1, K.boolean b h.2⟩
  symbol {w f f' n n' name} h hname :=
    ⟨congrArg (fun n : Node => Node.symbol name n.span) h.1, K.symbol h.2 hname⟩
  fault {w s s' fault} hplain h := by
    have hnames : (EvalError.malformed fault s).names = [] := by
      cases fault <;> simp_all [EvalError.names, Fault.isPlain]
    refine ⟨congrArg (EvalError.malformed fault) h.1, K.located h.2 ?_⟩
    rw [hnames]
    exact nofun
  notASymbol {w r f f' n n'} form h :=
    ⟨congrArg (fun n : Node => EvalError.malformed (.notASymbol form n.value) n.span) h.1,
      K.located (K.code_span h.2) nofun⟩
  duplicateBinding {w f f' n n' name} h hname :=
    ⟨congrArg (fun n : Node => EvalError.malformed (.duplicateBinding name) n.span) h.1,
      K.located (K.code_span h.2) (List.forall_mem_singleton.2 (K.code_name h.2 hname))⟩
  notAProcedure := by
    rintro _ v _ s _ ⟨rfl, hv⟩ ⟨rfl, hs⟩
    exact ⟨rfl, K.located hs fun name hname => K.value_name hv (Option.mem_toList.1 hname)⟩
  applyPrimitive := by
    rintro w v _ p args args' s _ m _ ⟨rfl, hm⟩ ⟨rfl, hv⟩ hp ha ⟨rfl, hs⟩
    obtain ⟨rfl, hargs⟩ := eq_of_forall₂ ha
    exact (K.applyPrimitive hm hv hp hargs hs).alike fun _ hv => ⟨rfl, hv⟩
  enterClosure := by
    rintro w held _ v _ k k' args args' s _ m _ ⟨rfl, hm⟩ rfl ⟨rfl, hv⟩ hk hk' ha ⟨rfl, hs⟩
    obtain ⟨rfl, hargs⟩ := eq_of_forall₂ ha
    cases hk.symm.trans hk'
    exact (K.enterClosure hm hv hk hargs hs).alike fun _ hx => ⟨⟨rfl, hx.1⟩, rfl, hx.2⟩
  bindGlobal := by
    rintro w f _ n _ e _ name held _ v _ m _ ⟨rfl, hm⟩ rfl ⟨rfl, hf⟩ ⟨rfl, hn⟩ ⟨-, hd⟩ hname
      ⟨rfl, hv⟩
    exact (K.bindGlobal hm hf hd hname (K.code_name hn hname) hv).alike fun _ _ => trivial
  assigned := by
    rintro w f _ n _ ⟨rfl, hf⟩ ⟨rfl, hn⟩
    cases hs : n.value.symbol? with
    | none => exact .inl ⟨rfl, rfl⟩
    | some a =>
      refine .inr ⟨a, a, rfl, rfl, ?_⟩
      rintro v _ m _ ⟨rfl, hm⟩ ⟨rfl, hv⟩
      exact (K.assignName hm hf hn hs hv).alike fun _ _ => trivial
  lambda := by
    rintro w f _ ns _ s _ m _ ⟨rfl, hm⟩ ⟨rfl, hf⟩ ⟨rfl, hns⟩ ⟨rfl, hs⟩
    exact (K.evalLambda hm hf hns hs).alike fun _ hv => ⟨rfl, hv⟩
  enclose := by
    rintro w held _ f _ es es' m _ ⟨rfl, hm⟩ rfl ⟨rfl, hf⟩ hes hnodup hnames
    obtain ⟨rfl, hvalues⟩ := eq_of_entries hes
    have hlet := hnames.imp fun _ => opened_of_alike
    refine (K.enclose hm hf hvalues hnodup hlet).alike fun hu hg => ⟨⟨rfl, hg⟩, fun hn => ?_⟩
    exact ⟨hn.1, K.code_mono hu hn.2⟩

/-! ## Whole evaluations -/

variable {p q : Node → FrameId → Machine → Bool} {mark : EvalError} {held : List Ref}

/-- **A whole evaluation**, interrupted or not, by induction on the room. Of the `define` forms
that are evaluated it has to be known that they are allowed. -/
theorem evaluators (hmark : ∀ {w n f m}, p n f m = true → C.error w mark)
    (hdefine : ∀ {w m f n head ns}, C.machine w m → C.frame w f → C.code w .expression n →
      p n f m = false → m.store.elements? n.value = some (head :: ns) →
      Likeness.formOf head = some .define → C.definition w f ns) (limit room : Nat) :
    (C.likeness (C.Passes q)).Evaluators (evalUntil p mark limit room)
      (evalUntil (fun n f m => q n f m || p n f m) mark limit room) := by
  induction room with
  | zero =>
    rintro w h _ n _ f _ m _ ⟨rfl, hm⟩ rfl ⟨rfl, -⟩ ⟨rfl, hn⟩
    refine interrupting_alike hm hmark fun _ => ?_
    exact .error le_rfl ⟨rfl, K.note _ hm⟩ ⟨rfl, K.located (K.code_span hn) nofun⟩
  | succ room ih =>
    rintro w h _ n _ f _ m _ ⟨rfl, hm⟩ rfl ⟨rfl, hf⟩ ⟨rfl, hn⟩
    refine interrupting_alike hm hmark fun hp => ?_
    refine (K.simulation _).step_alike_at ih ⟨rfl, hm⟩ rfl ⟨rfl, hf⟩ ⟨rfl, hn⟩
      fun {head _ ns _} hsplit hsplit' hform => ?_
    rw [elements?_run] at hsplit hsplit'
    cases (EStateM.Result.ok.inj hsplit).1.symm.trans (EStateM.Result.ok.inj hsplit').1
    exact ⟨rfl, hdefine hm hf hn hp (EStateM.Result.ok.inj hsplit).1 hform⟩

theorem evalUntil_ends (hmark : ∀ {w n f m}, p n f m = true → C.error w mark)
    (hdefine : ∀ {w m f n head ns}, C.machine w m → C.frame w f → C.code w .expression n →
      p n f m = false → m.store.elements? n.value = some (head :: ns) →
      Likeness.formOf head = some .define → C.definition w f ns) (limit room : Nat)
    (held : List Ref) (hm : C.machine w m) (hf : C.frame w f) (hn : C.code w .expression n) :
    C.Ends w C.value (evalUntil p mark limit room held n f m) :=
  ends_of_alike (K.evaluators (q := fun _ _ _ => false) hmark hdefine limit room ⟨rfl, hm⟩ rfl
    ⟨rfl, hf⟩ ⟨rfl, hn⟩) fun hv => hv.2

/-- **An evaluation that starts well ends well.** -/
theorem eval_ends (hdefine : ∀ {w m f n head ns}, C.machine w m → C.frame w f →
      C.code w .expression n → m.store.elements? n.value = some (head :: ns) →
      Likeness.formOf head = some .define → C.definition w f ns) (limit room : Nat)
    (held : List Ref) (hm : C.machine w m) (hf : C.frame w f) (hn : C.code w .expression n) :
    C.Ends w C.value (eval limit room held n f m) := by
  rw [← evalUntil_never (.depthExceeded limit n.span)]
  exact K.evalUntil_ends (p := fun _ _ _ => false) nofun
    (fun hm hf hn _ hi hform => hdefine hm hf hn hi hform) limit room held hm hf hn

/-- **An evaluation comes by its moments**: each is in a world between the start and the end. -/
theorem eval_passes (hdefine : ∀ {w f ns}, C.definition w f ns) {limit room : Nat}
    (hm : C.machine w m) (hf : C.frame w f) (hn : C.code w .expression n)
    (hmeets : Meets q limit room held n f m) :
    ∃ v u, w ≤ v ∧ C.Passes q v ∧ v ≤ u ∧
      C.machine u (finalMachine (eval limit room held n f m)) := by
  obtain ⟨mark, hne⟩ := hmeets
  have hevaluators : (C.likeness (C.Passes q)).Evaluators
      (evalUntil (fun _ _ _ => false) mark limit room)
      (evalUntil (fun n f m => q n f m || false) mark limit room) :=
    K.evaluators (p := fun _ _ _ => false) nofun (fun _ _ _ _ _ _ => hdefine) limit room
  simp only [Bool.or_false, evalUntil_never] at hevaluators
  exact exists_lost_of_alike (hevaluators (h := held) ⟨rfl, hm⟩ rfl ⟨rfl, hf⟩ ⟨rfl, hn⟩)
    (fun hv => hv.1) hne

end Kept

end Conduct

end MiniScheme
