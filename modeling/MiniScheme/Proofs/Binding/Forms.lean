import MiniScheme.Proofs.Isolation.Surroundings

/-!
# Two forms that bind names

`(let ((x e) ...) b)` and `((lambda (x ...) b) e ...)` bind the same names to the values of the same
expressions around the same body. `newLet` and `newCall` build the two around expressions that are
in a store already. Each of them adds pairs that refer to the expressions and to nothing else of the
store, so the store lies in the larger one with the new pairs for its surroundings.

* `Embedding.IsLet` and `Embedding.IsCall` say that a node is such a form, made of foreign pairs.

## Results

* `Embeds.surroundLet`, `Embeds.surroundCall`: the forms that were built are forms.
* `IsLet.reached`, `IsCall.reached`: what holds a form holds the expressions in it.
-/

namespace MiniScheme

/-- A name, the expression for its value, and the ranges that the name has in either form. -/
structure Binding where
  name : String
  value : Node
  /-- where the name stands in a `let` -/
  place : Span
  /-- the binding as a whole, in a `let` -/
  span : Span
  /-- where the name stands among the parameters of a `lambda` -/
  parameter : Span

@[simp] theorem Node.refs_symbol (name : String) (span : Span) :
    (Node.symbol name span).refs = [] := rfl

namespace Store

/-- The bindings of a `let`: lists of a name and an expression. -/
def newBindings (s : Store) : List Binding → List Node × Store
  | [] => ([], s)
  | b :: bs =>
    let (node, s) := s.newList [.symbol b.name b.place, b.value] b.span
    let (nodes, s) := s.newBindings bs
    (node :: nodes, s)

/-- `(let ((name value) ...) body)` -/
def newLet (s : Store) (bs : List Binding) (body : Node) (keyword list span : Span) :
    Node × Store :=
  let (nodes, s) := s.newBindings bs
  let (bindings, s) := s.newList nodes list
  s.newList [.symbol Form.bind.keyword keyword, bindings, body] span

/-- `((lambda (name ...) body) value ...)` -/
def newCall (s : Store) (bs : List Binding) (body : Node) (keyword list operator span : Span) :
    Node × Store :=
  let (params, s) := s.newList (bs.map fun b => .symbol b.name b.parameter) list
  let (procedure, s) := s.newList [.symbol Form.lambda.keyword keyword, params, body] operator
  s.newList (procedure :: bs.map Binding.value) span

end Store

namespace Embedding

variable {e e' : Embedding} {bs : List Binding} {body form : Node}

/-- The node is a binding of a `let`. -/
def IsBinding (e : Embedding) (b : Binding) (node : Node) : Prop :=
  e.Spine node.value [.symbol b.name b.place, b.value]

/-- The node is a `let` of these bindings around the body. -/
def IsLet (e : Embedding) (bs : List Binding) (body form : Node) : Prop :=
  ∃ keyword bindings nodes,
    e.Spine form.value [.symbol Form.bind.keyword keyword, bindings, body] ∧
      e.Spine bindings.value nodes ∧ List.Forall₂ e.IsBinding bs nodes

/-- The node is a call of a `lambda` with the names as parameters and the expressions as
operands. -/
def IsCall (e : Embedding) (bs : List Binding) (body form : Node) : Prop :=
  ∃ keyword procedure params,
    e.Spine form.value (procedure :: bs.map Binding.value) ∧
      e.Spine procedure.value [.symbol Form.lambda.keyword keyword, params, body] ∧
      e.Spine params.value (bs.map fun b => .symbol b.name b.parameter)

theorem IsLet.foreign (h : e.IsLet bs body form) : ∀ r ∈ form.refs, e.foreign r := by
  obtain ⟨keyword, bindings, nodes, hparts, -⟩ := h
  exact hparts.foreign

theorem IsCall.foreign (h : e.IsCall bs body form) : ∀ r ∈ form.refs, e.foreign r := by
  obtain ⟨keyword, procedure, params, hparts, -⟩ := h
  exact hparts.foreign

/-- What holds a `let` holds the expressions in it. -/
theorem IsLet.reached (h : e.IsLet bs body form) {held : List Ref}
    (hform : ∀ r ∈ form.refs, Embeds.Reached e held r) :
    ∀ r ∈ refsOf (body :: bs.map Binding.value), Embeds.Reached e held r := by
  obtain ⟨keyword, bindings, nodes, hparts, hlist, hnodes⟩ := h
  have hpart := hparts.reached hform
  have hnode := hlist.reached (hpart bindings (by simp))
  intro r hmem
  obtain ⟨x, hx, hr⟩ := List.mem_flatMap.1 hmem
  rcases List.mem_cons.1 hx with rfl | hx
  · exact hpart x (by simp) r hr
  · obtain ⟨b, hb, rfl⟩ := List.mem_map.1 hx
    obtain ⟨node, hmem, hbinding⟩ := (Embeds.forall_of_rel hnodes).1 b hb
    exact Spine.reached hbinding (hnode node hmem) b.value (by simp) r hr

/-- What holds a call holds the expressions in it. -/
theorem IsCall.reached (h : e.IsCall bs body form) {held : List Ref}
    (hform : ∀ r ∈ form.refs, Embeds.Reached e held r) :
    ∀ r ∈ refsOf (body :: bs.map Binding.value), Embeds.Reached e held r := by
  obtain ⟨keyword, procedure, params, hparts, hprocedure, -⟩ := h
  obtain ⟨hoperator, hvalues⟩ := List.forall_mem_cons.1 (hparts.reached hform)
  intro r hmem
  obtain ⟨x, hx, hr⟩ := List.mem_flatMap.1 hmem
  rcases List.mem_cons.1 hx with rfl | hx
  · exact hprocedure.reached hoperator x (by simp) r hr
  · exact hvalues x hx r hr

end Embedding

namespace Embeds

open MiniScheme.Embedding

variable {e : Embedding} {s t : Store} {bs : List Binding} {body : Node}

theorem surroundBindings (h : Embeds e s t)
    (hvalues : ∀ b ∈ bs, ∀ r ∈ b.value.refs, e.anchored r) :
    ∃ e', e.Widens e' ∧ Embeds e' s (t.newBindings bs).2 ∧
      List.Forall₂ e'.IsBinding bs (t.newBindings bs).1 := by
  induction bs generalizing e t with
  | nil => exact ⟨e, .refl e, h, .nil⟩
  | cons b bs ih =>
    obtain ⟨hb, hbs⟩ := List.forall_mem_cons.1 hvalues
    have hitems : ∀ x ∈ [.symbol b.name b.place, b.value], ∀ r ∈ x.refs,
        e.foreign r ∨ e.anchored r :=
      List.forall_mem_cons.2 ⟨nofun, List.forall_mem_singleton.2 fun r hr => .inr (hb r hr)⟩
    obtain ⟨e₁, hw₁, h₁, hnode⟩ := h.surroundList b.span _ hitems
    obtain ⟨e₂, hw₂, h₂, hnodes⟩ := ih h₁ fun c hc r hr => hw₁.anchored ▸ hbs c hc r hr
    exact ⟨e₂, hw₁.trans hw₂, h₂, .cons (hnode.mono hw₂.foreign) hnodes⟩

/-- **A `let` that was built is one.** -/
theorem surroundLet (h : Embeds e s t) (hvalues : ∀ b ∈ bs, ∀ r ∈ b.value.refs, e.anchored r)
    (hbody : ∀ r ∈ body.refs, e.anchored r) (keyword list span : Span) :
    ∃ e', e.Widens e' ∧ Embeds e' s (t.newLet bs body keyword list span).2 ∧
      e'.IsLet bs body (t.newLet bs body keyword list span).1 := by
  obtain ⟨e₁, hw₁, h₁, hnodes⟩ := h.surroundBindings hvalues
  obtain ⟨e₂, hw₂, h₂, hlist⟩ := h₁.surroundList list _ fun x hx r hr => by
    obtain ⟨b, -, hb⟩ := (forall_of_rel hnodes).2 x hx
    exact .inl (Spine.foreign hb r hr)
  have hw := hw₁.trans hw₂
  obtain ⟨e₃, hw₃, h₃, hform⟩ := h₂.surroundList span
    [.symbol Form.bind.keyword keyword, _, body] <|
    List.forall_mem_cons.2 ⟨nofun, List.forall_mem_cons.2
      ⟨fun r hr => .inl (hlist.foreign r hr),
        List.forall_mem_singleton.2 fun r hr => hw.refers (.inr (hbody r hr))⟩⟩
  exact ⟨e₃, hw.trans hw₃, h₃, keyword, _, _, hform, hlist.mono hw₃.foreign,
    hnodes.imp fun _ _ hb => Spine.mono hb (hw₂.trans hw₃).foreign⟩

/-- **A call that was built is one.** -/
theorem surroundCall (h : Embeds e s t) (hvalues : ∀ b ∈ bs, ∀ r ∈ b.value.refs, e.anchored r)
    (hbody : ∀ r ∈ body.refs, e.anchored r) (keyword list operator span : Span) :
    ∃ e', e.Widens e' ∧ Embeds e' s (t.newCall bs body keyword list operator span).2 ∧
      e'.IsCall bs body (t.newCall bs body keyword list operator span).1 := by
  obtain ⟨e₁, hw₁, h₁, hparams⟩ := h.surroundList list
    (bs.map fun b => .symbol b.name b.parameter) fun x hx => by
      obtain ⟨b, -, rfl⟩ := List.mem_map.1 hx
      exact nofun
  obtain ⟨e₂, hw₂, h₂, hprocedure⟩ := h₁.surroundList operator
    [.symbol Form.lambda.keyword keyword, _, body] <|
    List.forall_mem_cons.2 ⟨nofun, List.forall_mem_cons.2
      ⟨fun r hr => .inl (hparams.foreign r hr),
        List.forall_mem_singleton.2 fun r hr => hw₁.refers (.inr (hbody r hr))⟩⟩
  have hw := hw₁.trans hw₂
  obtain ⟨e₃, hw₃, h₃, hform⟩ := h₂.surroundList span (_ :: bs.map Binding.value) <|
    List.forall_mem_cons.2 ⟨fun r hr => .inl (hprocedure.foreign r hr), fun x hx r hr => by
      obtain ⟨b, hb, rfl⟩ := List.mem_map.1 hx
      exact hw.refers (.inr (hvalues b hb r hr))⟩
  exact ⟨e₃, hw.trans hw₃, h₃, keyword, _, _, hform, hprocedure.mono hw₃.foreign,
    hparams.mono (hw₂.trans hw₃).foreign⟩

end Embeds

end MiniScheme
