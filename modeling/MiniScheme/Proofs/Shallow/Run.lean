import MiniScheme.Proofs.Shallow.Plot
import MiniScheme.Proofs.Stepwise.Guard
import MiniScheme.Proofs.Stepwise.Whole

/-!
# Shallow programs are never refused

A program without `lambda` and without closures in reach evaluates each of its expressions where it
stands: the levels of nesting that are left for an expression go down only from a list to its items.
So a limit above the depth of the text is never met. `State.Stands` says this of one moment of an
evaluation: everything that is still to be evaluated is code for which there is room, and
everything else belongs to a plot without closures.

## Results

* `State.Stands.next`, `State.Stands.steps`: steps keep it.
* `shallow_programs_are_not_refused`: a session whose limit is above that of the reader evaluates
  such a program without a refusal, and no closure is in reach afterwards.
-/

namespace MiniScheme

/-! ## States on a plot -/

/-- The nodes can be read in the role with this many levels of nesting. -/
def Plot.Codes (P : Plot) (room : Nat) (r : Role) (nodes : List Node) : Prop :=
  ∀ n ∈ nodes, P.layout.Within room r n

/-- What a waiting form goes on with: values that belong to the plot, and code for which there is
room. -/
def Wait.Stands (P : Plot) (room : Nat) : Wait → Prop
  | pass _ | define _ _ | assign _ _ => True
  | operator _ rest | conjunct _ rest | disjunct rest => P.Codes room .expression rest
  | operand p args rest =>
    P.Owns p.refs ∧ (∀ a ∈ args, P.Owns a.refs) ∧ P.Codes room .expression rest
  | condition consequent alternate =>
    P.Codes room .expression (consequent :: alternate.toList)
  | sequence frame _ _ next rest => P.frame frame ∧ P.Codes room .expression (next :: rest)
  | binding _ _ _ entries _ rest first more =>
    (∀ e ∈ entries, P.Owns e.2.refs) ∧ P.Codes room .binding rest ∧
      P.Codes room .expression (first :: more)
  | test _ body rest => P.Codes room .expression body ∧ P.Codes room .clause rest

/-- The frame of the form belongs to the plot, and there is room for what the form goes on with. -/
structure Level.Stands (P : Plot) (l : Level) : Prop where
  frame : P.frame l.site.frame
  wait : l.wait.Stands P l.site.room

/-- There is room for what is to be done next, or there is a value that belongs to the plot. -/
def Control.Stands (P : Plot) : Control → Prop
  | evaluate room node frame => P.layout.Within room .expression node ∧ P.frame frame
  | yield v => P.Owns v.refs
  | fail _ => True

/-- The state of an evaluation on a plot. -/
structure State.Stands (P : Plot) (σ : State) : Prop where
  fits : P.Fits σ.machine.store
  control : σ.control.Stands P
  stack : ∀ l ∈ σ.stack, l.Stands P

namespace Plot

variable {P P' : Plot}

theorem Codes.mono (h : P ≤ P') {room : Nat} {r : Role} {nodes : List Node}
    (hn : P.Codes room r nodes) : P'.Codes room r nodes :=
  fun n hmem => (hn n hmem).mono h.1 le_rfl

/-- Nodes each of which can be read in its role can be read in one role if that is the role of
all of them. -/
theorem codes_of_items {room : Nat} {roles : Nat → Role} {r : Role} {nodes : List Node}
    (h : ∀ i x, nodes[i]? = some x → P.layout.Within room (roles i) x) (hr : ∀ i, roles i = r) :
    P.Codes room r nodes := by
  intro n hn
  obtain ⟨i, hi⟩ := List.mem_iff_getElem?.1 hn
  rw [← hr i]
  exact h i n hi

/-- The state stands on the plot after some more objects have come to it. -/
def Leads (P : Plot) (τ : State) : Prop := ∃ P', P ≤ P' ∧ τ.Stands P'

theorem Leads.after {τ : State} (h : P'.Leads τ) (hle : P ≤ P') : P.Leads τ := by
  obtain ⟨Q, hQ, hτ⟩ := h
  exact ⟨Q, hle.trans hQ, hτ⟩

/-- The end of a computation that leads to no object outside the plot. -/
def Ends (P : Plot) : EStateM.Result EvalError Machine Node → Prop
  | .ok v m => ∃ P', P ≤ P' ∧ P'.Fits m.store ∧ P'.Owns v.refs
  | .error _ m => P.Fits m.store

end Plot

section

variable {P P' : Plot} (h : P ≤ P')

include h

theorem Wait.Stands.mono {room : Nat} {wait : Wait} (hw : wait.Stands P room) :
    wait.Stands P' room := by
  cases wait with
  | pass | define | assign => trivial
  | operator | conjunct | disjunct | condition => exact Plot.Codes.mono h hw
  | operand p args rest =>
    obtain ⟨hp, hargs, hrest⟩ := hw
    exact ⟨hp.mono h, fun a ha => (hargs a ha).mono h, hrest.mono h⟩
  | sequence frame base last next rest => exact ⟨h.2.1 frame hw.1, hw.2.mono h⟩
  | binding nodes target e entries name rest first more =>
    obtain ⟨hentries, hrest, hbody⟩ := hw
    exact ⟨fun e he => (hentries e he).mono h, hrest.mono h, hbody.mono h⟩
  | test test body rest => exact ⟨hw.1.mono h, hw.2.mono h⟩

theorem Level.Stands.mono {l : Level} (hl : l.Stands P) : l.Stands P' :=
  ⟨h.2.1 _ hl.frame, hl.wait.mono h⟩

end

namespace State

variable {P : Plot} {m : Machine} {stack : List Level}

theorem stands_failed (h : P.Fits m.store) (e : EvalError) : (failed e m).Stands P :=
  ⟨h, trivial, List.forall_mem_nil _⟩

theorem leads_finish {r : EStateM.Result EvalError Machine Node} (h : P.Ends r)
    (hstack : ∀ l ∈ stack, l.Stands P) : P.Leads (finish stack r) := by
  cases r with
  | ok v m =>
    obtain ⟨P', hle, hfits, hv⟩ := h
    exact ⟨P', hle, hfits, hv, fun l hl => (hstack l hl).mono hle⟩
  | error e m => exact ⟨P, le_rfl, stands_failed h e⟩

end State

/-! ## Computations -/

namespace Plot.Fits

variable {P : Plot} {m : Machine}

theorem evalName (h : P.Fits m.store) (name : String) {f : FrameId} (hf : P.frame f)
    (span : Span) : P.Ends (evalName name f span m) := by
  rw [evalName_run]
  cases hv : m.store.lookup? f name with
  | some v => exact ⟨P, le_rfl, h, h.lookup hf hv⟩
  | none => exact h

theorem change_primitive {s : Store} (h : P.Fits s) {p : Primitive} {span : Span}
    {c : Store → Node × Store} (hc : p.Change (fun a => P.Owns a.refs) span c) :
    ∃ P', P ≤ P' ∧ P'.Fits (c s).2 ∧ P'.Owns (c s).1.refs := by
  cases hc with
  | integer n => exact ⟨P, le_rfl, h, P.owns_nil⟩
  | boolean b => exact ⟨P, le_rfl, h, P.owns_nil⟩
  | list hargs _ => exact h.newTail span.stop hargs
  | cons ha hb =>
    obtain ⟨P', hle, hfits, hcell⟩ := h.newCell ha hb
    exact ⟨P', hle, hfits, List.forall_mem_singleton.2 hcell⟩
  | half half ha hc => exact ⟨P, le_rfl, h, h.half (ha.cell hc) half⟩
  | setHalf half ha hb hc => exact ⟨P, le_rfl, h.setHalf (ha.cell hc) half hb, P.owns_nil⟩

theorem applyPrimitive (h : P.Fits m.store) (p : Primitive) {args : List Node}
    (hargs : ∀ a ∈ args, P.Owns a.refs) (span : Span) :
    P.Ends (applyPrimitive p args span m) := by
  rw [applyPrimitive_run]
  rcases Primitive.call_change (p := p) (E := fun _ => True) (fun _ _ _ _ => trivial)
    (fun _ _ => trivial) (fun _ _ => trivial) hargs with ⟨change, hcall, hc⟩ | ⟨e, hcall, -⟩
  · rw [hcall]
    exact h.change_primitive hc
  · rw [hcall]
    exact h

theorem assignName (h : P.Fits m.store) {f : FrameId} (hf : P.frame f) (name : String) {v : Node}
    (hv : P.Owns v.refs) (place span : Span) :
    P.Ends ((do assignName f name v place; return .unspecified span : EvalM Node) m) := by
  change P.Ends (EStateM.bind _ _ m)
  unfold EStateM.bind
  rw [assignName_run]
  cases ho : m.store.owner? f name with
  | none => exact h
  | some g => exact ⟨P, le_rfl, h.bind (h.owner hf ho) name hv, P.owns_nil⟩

end Plot.Fits

/-- A value that is no closure is bound without being given a name. -/
theorem Plot.Owns.nameFresh_eq {P : Plot} {v : Node} (hv : P.Owns v.refs) (held : List Ref)
    (name : String) (s : Store) : nameFresh held v.value name s = s := by
  unfold nameFresh
  split
  · rename_i k hk
    exact absurd hk (hv.ne_closure k)
  · rfl

/-! ## Going on with a form -/

/-- A form of a program on a plot, while others wait for it. -/
structure Site.Stands (P : Plot) (c : Site) (stack : List Level) (m : Machine) : Prop where
  fits : P.Fits m.store
  frame : P.frame c.frame
  stack : ∀ l ∈ stack, l.Stands P

namespace Site.Stands

open State

variable {P : Plot} {outside : List Ref} {c : Site} {stack : List Level} {m : Machine}

theorem await (h : c.Stands P stack m) (wait : Wait) (hwait : wait.Stands P c.room) {e : Node}
    (he : P.layout.Within c.room .expression e) {frame : FrameId} (hf : P.frame frame) :
    P.Leads (c.await stack m wait e frame) :=
  ⟨P, le_rfl, h.fits, ⟨he, hf⟩, List.forall_mem_cons.2 ⟨⟨h.frame, hwait⟩, h.stack⟩⟩

theorem failed (h : c.Stands P stack m) (e : EvalError) : P.Leads (failed e m) :=
  ⟨P, le_rfl, stands_failed h.fits e⟩

theorem yield (h : c.Stands P stack m) {v : Node} (hv : P.Owns v.refs) :
    P.Leads ⟨.yield v, stack, m⟩ := ⟨P, le_rfl, h.fits, hv, h.stack⟩

theorem call (h : c.Stands P stack m) {p : Procedure} (hp : P.Owns p.refs) {args rest : List Node}
    (hargs : ∀ a ∈ args, P.Owns a.refs) (hrest : P.Codes c.room .expression rest) :
    P.Leads (c.call outside stack m p args rest) := by
  match rest, p with
  | e :: es, p =>
    obtain ⟨he, hes⟩ := List.forall_mem_cons.1 hrest
    exact h.await (.operand p args es) ⟨hp, hargs, hes⟩ he h.frame
  | [], .primitive q =>
    have hargs' : ∀ a ∈ args.reverse, P.Owns a.refs := fun a ha => hargs a (List.mem_reverse.1 ha)
    exact leads_finish (h.fits.applyPrimitive q hargs' c.span) h.stack
  | [], .closure k => exact (hp (.closure k) List.mem_cons_self).elim

theorem sequence (h : c.Stands P stack m) {frame : FrameId} (hf : P.frame frame)
    (base : List Item) (last : Option Node) {e : Node} {es : List Node}
    (hes : P.Codes c.room .expression (e :: es)) :
    P.Leads (c.sequence stack m frame base last e es) := by
  obtain ⟨he, hrest⟩ := List.forall_mem_cons.1 hes
  cases es with
  | nil => exact h.await (.pass _) trivial he hf
  | cons next rest => exact h.await (.sequence ..) ⟨hf, hrest⟩ he hf

theorem bindings (h : c.Stands P stack m) (nodes : List Node) {entries : List (String × Node)}
    (hentries : ∀ e ∈ entries, P.Owns e.2.refs) {first : Node} {more rest : List Node}
    (hbody : P.Codes c.room .expression (first :: more)) (hrest : P.Codes c.room .binding rest) :
    P.Leads (c.bindings outside stack m nodes entries first more rest) := by
  cases rest with
  | nil =>
    have hreverse : ∀ e ∈ entries.reverse, P.Owns e.2.refs :=
      fun e he => hentries e (List.mem_reverse.1 he)
    let held := refsOf nodes ++ c.held outside stack
    obtain ⟨P', hle, hfits, hinner⟩ := h.fits.enclose held h.frame hreverse
    let m' : Machine := { m with store := (m.store.enclose held c.frame entries.reverse).2 }
    have hsite : c.Stands P' stack m' :=
      ⟨hfits, hle.2.1 _ h.frame, fun l hl => (h.stack l hl).mono hle⟩
    exact (hsite.sequence hinner _ none (hbody.mono hle)).after hle
  | cons b rest =>
    obtain ⟨hb, hrest⟩ := List.forall_mem_cons.1 hrest
    simp only [Site.bindings]
    split
    · rename_i target e hitems
      split
      · split
        · exact h.failed _
        · -- the value is the second item of the binding
          have he := h.fits.parts hb (by decide) hitems 1 e rfl
          exact h.await (.binding ..) ⟨hentries, hrest, hbody⟩ he h.frame
      · exact h.failed _
    · exact h.failed _

theorem clauses (h : c.Stands P stack m) {rest : List Node}
    (hrest : P.Codes c.room .clause rest) : P.Leads (c.clauses stack m rest) := by
  cases rest with
  | nil => exact h.yield P.owns_nil
  | cons clause rest =>
    obtain ⟨hclause, hrest⟩ := List.forall_mem_cons.1 hrest
    simp only [Site.clauses]
    split
    · rename_i test body hitems
      have hcodes : P.Codes c.room .expression (test :: body) :=
        Plot.codes_of_items (h.fits.parts hclause (by decide) hitems) fun _ => by
          cases headForm (test :: body) <;> rfl
      obtain ⟨htest, hbody⟩ := List.forall_mem_cons.1 hcodes
      split
      · split
        · exact h.sequence h.frame _ none hbody
        · exact h.failed _
      · exact h.await (.test ..) ⟨hbody, hrest⟩ htest h.frame
    · exact h.failed _

theorem conjunction (h : c.Stands P stack m) {last : Node} (hlast : P.Owns last.refs)
    {rest : List Node} (hrest : P.Codes c.room .expression rest) :
    P.Leads (c.conjunction stack m last rest) := by
  cases rest with
  | nil => exact h.yield hlast
  | cons e es =>
    obtain ⟨he, hes⟩ := List.forall_mem_cons.1 hrest
    exact h.await (.conjunct ..) hes he h.frame

theorem disjunction (h : c.Stands P stack m) {rest : List Node}
    (hrest : P.Codes c.room .expression rest) : P.Leads (c.disjunction stack m rest) := by
  cases rest with
  | nil => exact h.yield P.owns_nil
  | cons e es =>
    obtain ⟨he, hes⟩ := List.forall_mem_cons.1 hrest
    exact h.await (.disjunct ..) hes he h.frame

theorem named (h : c.Stands P stack m) (form : Form) (wait : Node → String → Wait)
    (hwait : ∀ target name, (wait target name).Stands P c.room) {operands : List Node}
    (hvalue : ∀ e, operands[1]? = some e → P.layout.Within c.room .expression e) :
    P.Leads (c.named stack m form wait operands) := by
  unfold Site.named
  split
  · split
    · exact h.await _ (hwait _ _) (hvalue _ rfl) h.frame
    · exact h.failed _
  · exact h.failed _

/-- **Starting on a special form**, each operand being code in the role that the form has for it. -/
theorem start (h : c.Stands P stack m) {form : Form} (hform : form ≠ .lambda)
    {operands : List Node} (hops : ∀ i x, operands[i]? = some x →
      P.layout.Within c.room (Role.expression.item (some form) (i + 1)) x) :
    P.Leads (c.start outside stack m form operands) := by
  cases form with
  | quote =>
    simp only [Site.start]
    split
    · exact h.yield ((hops 0 _ rfl).owns (.inl rfl))
    · exact h.failed _
  | conditional =>
    have hcodes : P.Codes c.room .expression operands := Plot.codes_of_items hops fun _ => rfl
    simp only [Site.start]
    split
    · obtain ⟨hcondition, hrest⟩ := List.forall_mem_cons.1 hcodes
      exact h.await (.condition _ none) hrest hcondition h.frame
    · obtain ⟨hcondition, hrest⟩ := List.forall_mem_cons.1 hcodes
      exact h.await (.condition _ (some _)) hrest hcondition h.frame
    · exact h.failed _
  | define => exact h.named .define .define (fun _ _ => trivial) fun e he => hops 1 e he
  | assign => exact h.named .assign .assign (fun _ _ => trivial) fun e he => hops 1 e he
  | lambda => exact absurd rfl hform
  | bind =>
    simp only [Site.start]
    split
    · exact h.failed _
    · exact h.failed _
    · rename_i bindings first more
      have hbody : P.Codes c.room .expression (first :: more) :=
        Plot.codes_of_items (fun i x hx => hops (i + 1) x hx) fun _ => rfl
      split
      · rename_i nodes hnodes
        have hbindings : P.Codes c.room .binding nodes :=
          Plot.codes_of_items (h.fits.parts (hops 0 bindings rfl) (by decide) hnodes) fun _ => by
            cases headForm nodes <;> rfl
        exact h.bindings nodes (List.forall_mem_nil _) hbody hbindings
      · exact h.failed _
  | sequence =>
    simp only [Site.start]
    split
    · exact h.failed _
    · exact h.sequence h.frame [] none (Plot.codes_of_items hops fun _ => rfl)
  | clauses =>
    simp only [Site.start]
    split
    · exact h.failed _
    · exact h.clauses (Plot.codes_of_items hops fun _ => rfl)
  | conjunction =>
    have htrue : P.Owns (Node.boolean true c.span).refs := P.owns_nil
    exact h.conjunction htrue (Plot.codes_of_items hops fun _ => rfl)
  | disjunction => exact h.disjunction (Plot.codes_of_items hops fun _ => rfl)

end Site.Stands

/-! ## Steps -/

namespace Level

open State

variable {P : Plot} {outside : List Ref} {stack : List Level} {m : Machine} {v : Node}

/-- **Going on with a value.** -/
theorem leads_resume {l : Level} (h : l.site.Stands P stack m)
    (hl : l.wait.Stands P l.site.room) (hv : P.Owns v.refs) :
    P.Leads (l.resume outside stack m v) := by
  obtain ⟨c, wait⟩ := l
  cases wait with
  | pass items => exact h.yield hv
  | operator place operands =>
    simp only [resume]
    split
    · rename_i p hp
      have hrefs : P.Owns p.refs := by
        rw [Node.refs, hp] at hv
        exact hv
      exact h.call hrefs (List.forall_mem_nil _) hl
    · exact h.failed _
  | operand p args rest =>
    obtain ⟨hp, hargs, hrest⟩ := hl
    exact h.call hp (List.forall_mem_cons.2 ⟨hv, hargs⟩) hrest
  | define target name =>
    obtain ⟨log, hresume⟩ := resume_define outside c stack m v target name
    rw [hresume, hv.nameFresh_eq]
    exact ⟨P, le_rfl, h.fits.defineGlobal h.frame name hv, P.owns_nil, h.stack⟩
  | assign target name =>
    exact leads_finish (h.fits.assignName h.frame name hv target.span c.span) h.stack
  | condition consequent alternate =>
    obtain ⟨hconsequent, halternate⟩ := List.forall_mem_cons.1 hl
    simp only [resume]
    split
    · exact h.await (.pass []) trivial hconsequent h.frame
    · cases alternate with
      | none => exact h.yield P.owns_nil
      | some e =>
        exact h.await (.pass []) trivial (List.forall_mem_singleton.1 halternate) h.frame
  | sequence frame base last next rest => exact h.sequence hl.1 base (some v) hl.2
  | binding nodes target e entries name rest first more =>
    obtain ⟨hentries, hrest, hbody⟩ := hl
    exact h.bindings nodes (List.forall_mem_cons.2 ⟨hv, hentries⟩) hbody hrest
  | test test body rest =>
    simp only [resume]
    split
    · cases body with
      | nil => exact h.yield hv
      | cons e es => exact h.sequence h.frame _ none hl.1
    · exact h.clauses hl.2
  | conjunct last rest =>
    simp only [resume]
    split
    · exact h.conjunction hv hl
    · exact h.yield hv
  | disjunct rest =>
    simp only [resume]
    split
    · exact h.yield hv
    · exact h.disjunction hl

end Level

namespace State

variable {P : Plot} {limit : Nat} {outside : List Ref} {σ τ : State}

/-- **Starting on a node.** A list uses up a level of nesting. -/
theorem leads_begin {room : Nat} {node : Node} {frame : FrameId} {stack : List Level} {m : Machine}
    (hm : P.Fits m.store) (hnode : P.layout.Within (room + 1) .expression node)
    (hf : P.frame frame) (hstack : ∀ l ∈ stack, l.Stands P) :
    P.Leads (begin outside room node frame stack m) := by
  unfold begin
  split
  · exact leads_finish (hm.evalName _ hf node.span) hstack
  · split
    · rename_i head operands hitems
      obtain ⟨hlambda, hparts⟩ := hm.elements hnode (by decide) hitems
      have hsite : Site.Stands P ⟨head :: operands, node.span, frame, room⟩ stack m :=
        ⟨hm, hf, hstack⟩
      have hhead : headForm (head :: operands) = head.value.symbol?.bind Form.ofKeyword? := rfl
      rw [hhead] at hlambda hparts
      dsimp only
      cases hform : head.value.symbol?.bind Form.ofKeyword? with
      | some form =>
        rw [hform] at hlambda hparts
        exact hsite.start (fun heq => hlambda (congrArg some heq)) fun i x hx =>
          hparts (i + 1) x hx
      | none =>
        rw [hform] at hparts
        have hcodes : P.Codes room .expression (head :: operands) :=
          Plot.codes_of_items hparts fun _ => rfl
        obtain ⟨hoperator, hoperands⟩ := List.forall_mem_cons.1 hcodes
        exact hsite.await (.operator ..) hoperands hoperator hf
    · exact ⟨P, le_rfl, stands_failed hm _⟩
  · rename_i hsymbol hpair
    exact ⟨P, le_rfl, hm, hnode.owns (.inr fun c hc => hpair c hc), hstack⟩

/-- **One step.** -/
theorem Stands.next (h : σ.Stands P) (hn : σ.next? limit outside = some τ) : P.Leads τ := by
  obtain ⟨control, stack, m⟩ := σ
  match control with
  | .evaluate 0 node frame => exact absurd rfl h.control.1.ne_zero
  | .evaluate (room + 1) node frame =>
    cases hn
    exact leads_begin h.fits h.control.1 h.control.2 h.stack
  | .yield v =>
    cases stack with
    | nil => cases hn
    | cons l stack =>
      obtain ⟨hl, hstack⟩ := List.forall_mem_cons.1 h.stack
      cases hn
      exact Level.leads_resume ⟨h.fits, hl.frame, hstack⟩ hl.wait h.control
  | .fail e => cases hn

/-- **A run.** -/
theorem Stands.steps (h : σ.Stands P) (hn : Steps limit outside σ τ) : P.Leads τ := by
  induction hn with
  | refl => exact ⟨P, le_rfl, h⟩
  | tail _ hnext ih =>
    obtain ⟨P', hle, hρ⟩ := ih
    exact (hρ.next hnext).after hle

end State

/-! ## Commands -/

/-- What is read is nested within the limit. -/
theorem depth_le_of_parse {limit : Nat} {source : String} {d : Datum}
    (h : parse limit source = .ok d) : d.depth ≤ limit := by
  unfold parse at h
  cases ht : tokenize source with
  | error e =>
    rw [ht] at h
    cases h
  | ok tokens =>
    rw [ht] at h
    exact (readOnly_eq_ok_iff.1 h).2

theorem EvalError.exists_of_isRefusal {e : EvalError} (h : e.isRefusal) :
    ∃ limit span, e = .depthExceeded limit span := by
  unfold isRefusal at h
  split at h
  · exact ⟨_, _, rfl⟩
  · exact h.elim

theorem State.machine_finish (r : EStateM.Result EvalError Machine Node) :
    (State.finish [] r).machine = (Session.conclude r).2 := by
  cases r <;> rfl

theorem State.Stands.opening {P : Plot} {w : World} {session : Session} {d : Datum}
    (hP : P.Fits (w.store.load d).2) (hframe : P.frame session.global)
    (hcode : P.layout.Within session.limit .expression (w.store.load d).1) (source : String) :
    (w.opening session source d).Stands P :=
  ⟨hP, ⟨hcode, hframe⟩, List.forall_mem_nil _⟩

/-- An evaluation that starts on a plot is not refused. -/
theorem World.not_refused {P : Plot} {w : World} {session : Session} {source : String} {d : Datum}
    (hread : parse session.limit source = .ok d) (h : (w.opening session source d).Stands P)
    {e : Error} (he : (w.evaluate session source).1 = .error e) : e.kind ≠ .recursionLimit := by
  intro hkind
  rcases w.evaluate_quiet_or_refused session source with
    ⟨-, hnot⟩ | ⟨σ, node, frame, ⟨d', hd', hsteps⟩, hcontrol, -⟩
  · obtain ⟨r, -, heval⟩ := w.evaluate_steps hread
    have hrefusal := e.isRefusal_iff.2 hkind
    rw [heval] at he hnot
    cases r with
    | ok v m => cases he
    | error e' m =>
      cases he
      obtain ⟨limit, span, rfl⟩ := EvalError.exists_of_isRefusal hrefusal
      exact hnot limit span rfl
  · cases hread.symm.trans hd'
    obtain ⟨P', -, hσ⟩ := h.steps hsteps
    have hroom := hσ.control
    rw [hcontrol] at hroom
    exact hroom.1.ne_zero rfl

/-- **The limit refuses no shallow program.** The reader accepts the source with one level less than
the session has, the source mentions no `lambda`, and no closure can be reached from the global
frame of the session, whatever else is bound there and to whichever names. Then the answer is no
refusal. The evaluation makes no closure, and none can be reached afterwards either, be it from the
global frame or from the answer. Of the store nothing is asked but that what it refers to is there,
as in every world that a script leads to (`Scene.reached_run`, `Scene.Reached.fits`). -/
theorem shallow_programs_are_not_refused (w : World) (session : Session) (source : String)
    {d : Datum} (hwhole : w.store.Whole) (hglobal : w.store.Has (.frame session.global))
    (hfree : ∀ k, ¬w.store.Reaches (.frame session.global) (.closure k))
    (hlimit : 1 ≤ session.limit) (hread : parse (session.limit - 1) source = .ok d)
    (hlambda : "lambda" ∉ d.symbols) :
    (∀ e, (w.evaluate session source).1 = .error e → e.kind ≠ .recursionLimit) ∧
      (w.evaluate session source).2.store.closures = w.store.closures ∧
      (∀ k, ¬(w.evaluate session source).2.store.Reaches (.frame session.global) (.closure k)) ∧
      ∀ v, (w.evaluate session source).1 = .ok v → ∀ r ∈ v.refs, ∀ k,
        ¬(w.evaluate session source).2.store.Reaches r (.closure k) := by
  obtain ⟨P₀, hfits, hframe⟩ := Store.exists_fits hwhole hglobal hfree
  obtain ⟨P, hle, hP, hcode⟩ := hfits.load hlambda (depth_le_of_parse hread)
  rw [Nat.sub_add_cancel hlimit] at hcode
  have hparse : parse session.limit source = .ok d := by
    rcases parse_of_le (Nat.sub_le session.limit 1) source with ⟨e, he, -⟩ | heq
    · rw [hread] at he
      cases he
    · rw [heq, hread]
  have hopening := State.Stands.opening hP (hle.2.1 _ hframe) hcode source
  refine ⟨fun e he => World.not_refused hparse hopening he, ?_⟩
  -- the end of the evaluation stands on a plot as well
  obtain ⟨r, hsteps, heval⟩ := w.evaluate_steps hparse
  obtain ⟨Q, hQ, hend⟩ := hopening.steps hsteps
  have hQfits : Q.Fits (w.evaluate session source).2.store := by
    have hmachine := hend.fits
    rw [State.machine_finish] at hmachine
    rw [heval]
    exact hmachine
  have hQframe : Q.Own (.frame session.global) := hQ.2.1 _ (hle.2.1 _ hframe)
  refine ⟨?_, fun k hk => hQfits.own_of_reaches hQframe hk, fun v hv r' hr' k hk => ?_⟩
  · rw [hQfits.closures, hQ.2.2, hle.2.2, hfits.closures]
  · rw [heval] at hv
    cases r with
    | ok v' m =>
      cases hv
      exact hQfits.own_of_reaches (hend.control r' hr') hk
    | error e m => cases hv

/-- In a new session with three levels a primitive is redefined and called. With two levels the
same source is refused. -/
theorem redefinition_needs_three_levels :
    let source := "(begin (define + *) (+ 3 4))"
    let answer (limit : Nat) :=
      (World.ofLimits false [limit]).evaluate ⟨⟨0⟩, limit, true⟩ source
    (∀ e, (answer 3).1 = .error e → e.kind ≠ .recursionLimit) ∧
      (∀ k, ¬(answer 3).2.store.Reaches (.frame ⟨0⟩) (.closure k)) ∧
      (answer 3).1 = .ok (.integer 12 ⟨20, 27⟩) ∧
      (answer 2).1 = .error (.eval (.depthExceeded 2 ⟨17, 18⟩)) := by
  intro source answer
  let word (name : String) (start stop : Nat) : Datum := .atom (.symbol name) ⟨start, stop⟩
  have hread : parse 2 source = .ok (.list [word "begin" 1 6,
      .list [word "define" 8 14, word "+" 15 16, word "*" 17 18] ⟨7, 19⟩,
      .list [word "+" 21 22, .atom (.integer 3) ⟨23, 24⟩, .atom (.integer 4) ⟨25, 26⟩] ⟨20, 27⟩]
      ⟨0, 28⟩) := by decide +kernel
  obtain ⟨hleads, hhas⟩ := Store.whole_empty.leadsTo_newPopulated
  have hfree (k : ClosureId) :
      ¬(World.ofLimits false [3]).store.Reaches (.frame ⟨0⟩) (.closure k) := by
    intro hk
    rcases Relation.ReflTransGen.cases_head hk with heq | ⟨r, hr, -⟩
    · cases heq
    · have hnone : (World.ofLimits false [3]).store.references (.frame ⟨0⟩) = [] := by
        decide +kernel
      rw [hnone] at hr
      cases hr
  obtain ⟨hnot, -, hafter, -⟩ := shallow_programs_are_not_refused (World.ofLimits false [3])
    ⟨⟨0⟩, 3, true⟩ source hleads.whole hhas hfree (by decide) hread (by decide)
  exact ⟨hnot, hafter, by decide +kernel, by decide +kernel⟩

end MiniScheme
