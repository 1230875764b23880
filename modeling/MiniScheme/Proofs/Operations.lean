import Mathlib.Data.List.Forall2
import MiniScheme.Eval

/-!
# What the operations of an evaluation do to a machine

The steps of an evaluation that read or change the store, each as one equation: its result and
the machine after it. Notes go to the log and nowhere else.
-/

namespace MiniScheme

@[simp] theorem Machine.store_note (m : Machine) (event : Store → Event) :
    (m.note event).store = m.store := by
  unfold note
  split <;> rfl

theorem refsOf_cons (n : Node) (ns : List Node) : refsOf (n :: ns) = n.refs ++ refsOf ns := rfl

theorem elements?_run (n : Node) (m : Machine) :
    elements? n m = .ok (m.store.elements? n.value) m := rfl

theorem evalName_run (name : String) (f : FrameId) (span : Span) (m : Machine) :
    evalName name f span m =
      match m.store.lookup? f name with
      | some node => .ok node m
      | none => .error (.unbound name span) m := by
  change (match m.store.lookup? f name with
    | some node => pure node
    | none => throw (.unbound name span) : EvalM Node) m = _
  cases m.store.lookup? f name <;> rfl

theorem enclose_run (held : List Ref) (f : FrameId) (entries : List (String × Node))
    (m : Machine) : EvalM.transform (fun s => s.enclose held f entries) m =
      .ok (m.store.enclose held f entries).1
        { m with store := (m.store.enclose held f entries).2 } := rfl

theorem bindGlobal_run (held : List Ref) (f : FrameId) (name : String) (v : Node) (m : Machine) :
    ∃ log, bindGlobal held f name v m =
      .ok () ⟨(nameFresh held v.value name m.store).defineGlobal f name v, m.recording, log⟩ := by
  refine ⟨({ m with store := nameFresh held v.value name m.store }.note
    fun s => .defining name (s.text v.value)).log, ?_⟩
  change EStateM.Result.ok () _ = _
  simp only [Machine.note]
  split <;> rfl

theorem assignName_run (f : FrameId) (name : String) (v : Node) (span : Span) (m : Machine) :
    assignName f name v span m =
      match m.store.owner? f name with
      | some g => .ok () { m with store := m.store.bind g name v }
      | none => .error (.unbound name span) m := by
  change (if (m.store.assign f name v).1 then pure () else throw (.unbound name span) : EvalM Unit)
    { m with store := (m.store.assign f name v).2 } = _
  unfold Store.assign
  cases m.store.owner? f name <;> rfl

theorem enterClosure_run (held : List Ref) (k : ClosureId) (args : List Node) (span : Span)
    (m : Machine) :
    ∃ log, enterClosure held k args span m =
      if (m.store.closure k).params.length = args.length then
        let entered := m.store.enclose held (m.store.closure k).frame
          ((m.store.closure k).params.zip args)
        .ok (entered.1, (m.store.closure k).body) ⟨entered.2, m.recording, log⟩
      else
        .error (.arity (m.store.closure k).displayName
          (.parameters (m.store.closure k).params.length) args.length span)
          ⟨m.store, m.recording, log⟩ := by
  obtain ⟨s, recording, log⟩ := m
  let m : Machine := ⟨s, recording, log⟩
  refine ⟨(m.note fun _ => .applying (m.store.closure k).displayName args.length).log, ?_⟩
  change (enterFrame held (m.store.closure k).frame (m.store.closure k).displayName
    (m.store.closure k).params args span >>= fun f => pure (f, (m.store.closure k).body))
    (m.note fun _ => .applying (m.store.closure k).displayName args.length) = _
  unfold enterFrame Machine.note
  cases recording <;> split <;> rfl

/-- The parameter names are a matter of the nodes alone: of two lists of related nodes that name
the same symbols, both have the same names or both fail. -/
theorem parameterNames_run {V : Node → Node → Prop} {E : EvalError → EvalError → Prop}
    (hsymbol : ∀ {n n'}, V n n' → n'.value.symbol? = n.value.symbol?)
    (hnot : ∀ {n n'}, V n n' → E (.malformed (.notASymbol .lambda n.value) n.span)
      (.malformed (.notASymbol .lambda n'.value) n'.span))
    (hdup : ∀ {n n'} name, V n n' → n.value.symbol? = some name →
      E (.malformed (.duplicateParameter name) n.span)
        (.malformed (.duplicateParameter name) n'.span))
    {ps ps' : List Node} (hps : List.Forall₂ V ps ps') (before : List String) :
    (∃ names, ∀ m, parameterNames before ps m = .ok names m ∧
        parameterNames before ps' m = .ok names m) ∨
      ∃ x x', E x x' ∧ ∀ m, parameterNames before ps m = .error x m ∧
        parameterNames before ps' m = .error x' m := by
  induction hps generalizing before with
  | nil => exact .inl ⟨[], fun _ => ⟨rfl, rfl⟩⟩
  | @cons p p' ps ps' hp _ ih =>
    unfold parameterNames expectSymbol
    rw [hsymbol hp]
    cases hname : p.value.symbol? with
    | none => exact .inr ⟨_, _, hnot hp, fun _ => ⟨rfl, rfl⟩⟩
    | some name =>
      by_cases hb : before.contains name = true
      · refine .inr ⟨_, _, hdup name hp hname, fun m => ⟨?_, ?_⟩⟩ <;>
          simp only [bind, EStateM.bind, pure, EStateM.pure, if_pos hb] <;> rfl
      · rcases ih (name :: before) with ⟨names, hn⟩ | ⟨x, x', hx, he⟩
        · refine .inl ⟨name :: names, fun m => ⟨?_, ?_⟩⟩ <;>
            simp only [bind, EStateM.bind, pure, EStateM.pure, if_neg hb, hn]
        · refine .inr ⟨x, x', hx, fun m => ⟨?_, ?_⟩⟩ <;>
            simp only [bind, EStateM.bind, pure, EStateM.pure, if_neg hb, he]

/-- A computation that succeeds has succeeded at its first step. -/
theorem EvalM.bind_eq_ok {α β : Type} {x : EvalM α} {g : α → EvalM β} {b : β} {m m' : Machine}
    (h : (x >>= g) m = .ok b m') : ∃ a m₁, x m = .ok a m₁ ∧ g a m₁ = .ok b m' := by
  change EStateM.bind x g m = _ at h
  unfold EStateM.bind at h
  cases hx : x m with
  | ok a m₁ =>
    rw [hx] at h
    exact ⟨a, m₁, rfl, h⟩
  | error e m₁ =>
    rw [hx] at h
    cases h

/-- The names are those of the nodes, in order. -/
theorem parameterNames_symbols {before names : List String} {ps : List Node} {m m' : Machine}
    (h : parameterNames before ps m = .ok names m') :
    ps.map (·.value.symbol?) = names.map some := by
  induction ps generalizing before names m with
  | nil =>
    cases h
    rfl
  | cons p ps ih =>
    obtain ⟨name, m₁, hname, h⟩ := EvalM.bind_eq_ok h
    have hsymbol : p.value.symbol? = some name := by
      unfold expectSymbol at hname
      revert hname
      cases p.value.symbol? with
      | none => exact nofun
      | some a =>
        rintro ⟨⟩
        rfl
    split at h
    · cases h
    · obtain ⟨rest, m₂, hrest, h⟩ := EvalM.bind_eq_ok h
      cases h
      rw [List.map_cons, List.map_cons, hsymbol, ih hrest]

/-- No name is taken twice, and none that was there before. -/
theorem parameterNames_nodup {before names : List String} {ps : List Node} {m m' : Machine}
    (h : parameterNames before ps m = .ok names m') :
    names.Nodup ∧ ∀ name ∈ names, name ∉ before := by
  induction ps generalizing before names m with
  | nil =>
    cases h
    exact ⟨.nil, nofun⟩
  | cons p ps ih =>
    obtain ⟨name, m₁, -, h⟩ := EvalM.bind_eq_ok h
    by_cases hb : before.contains name = true
    · rw [if_pos hb] at h
      cases h
    · rw [if_neg hb] at h
      obtain ⟨rest, m₂, hrest, h⟩ := EvalM.bind_eq_ok h
      cases h
      obtain ⟨hnodup, hfresh⟩ := ih hrest
      refine ⟨List.nodup_cons.2 ⟨fun hmem => hfresh name hmem List.mem_cons_self, hnodup⟩, ?_⟩
      refine List.forall_mem_cons.2 ⟨by simpa using hb, fun other hmem hbefore => ?_⟩
      exact hfresh other hmem (List.mem_cons_of_mem name hbefore)

/-- Nodes that are distinct symbols are parameter names. -/
theorem parameterNames_of_symbols {before names : List String} {ps : List Node}
    (h : ps.map (·.value.symbol?) = names.map some) (hnodup : names.Nodup)
    (hfresh : ∀ name ∈ names, name ∉ before) (m : Machine) :
    parameterNames before ps m = .ok names m := by
  induction ps generalizing before names with
  | nil =>
    cases names with
    | nil => rfl
    | cons => cases h
  | cons p ps ih =>
    match names, h with
    | name :: names, h =>
      obtain ⟨hname, hnames⟩ := List.cons.inj h
      obtain ⟨hnew, hnodup⟩ := List.nodup_cons.1 hnodup
      obtain ⟨hb, hfresh⟩ := List.forall_mem_cons.1 hfresh
      have hothers : ∀ other ∈ names, other ∉ name :: before := by
        intro other hmem hbefore
        rcases List.mem_cons.1 hbefore with rfl | hbefore
        · exact hnew hmem
        · exact hfresh other hmem hbefore
      have hrest := ih hnames hnodup hothers
      unfold parameterNames expectSymbol
      simp only [hname]
      simp only [bind, EStateM.bind, pure, EStateM.pure, List.contains_iff_mem, if_neg hb, hrest]

theorem evalLambda_none {split : Splitter} {params : Node} {m m₁ : Machine}
    (h : split params m = .ok none m₁) (body : Node) (f : FrameId) (span : Span) :
    evalLambda split [params, body] f span m =
      .error (.malformed .parameterList params.span) m₁ := by
  unfold evalLambda
  simp only [bind, EStateM.bind, h]
  rfl

theorem evalLambda_some {split : Splitter} {params : Node} {m m₁ : Machine} {nodes : List Node}
    (h : split params m = .ok (some nodes) m₁) (body : Node) (f : FrameId) (span : Span) :
    evalLambda split [params, body] f span m =
      (parameterNames [] nodes >>= fun names => do
        let k ← EvalM.transform fun s => s.newClosure ⟨none, names, body, f⟩
        return ⟨.procedure (.closure k), span⟩) m₁ := by
  unfold evalLambda
  simp only [bind, EStateM.bind, h]

end MiniScheme
