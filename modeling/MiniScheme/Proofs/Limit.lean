import Mathlib.Order.CompleteBooleanAlgebra
import Mathlib.Order.CompletePartialOrder
import MiniScheme.Proofs.OpenLists
import MiniScheme.Proofs.Lists
import MiniScheme.Proofs.Script
import MiniScheme.Proofs.Simulation

/-!
# A higher limit changes nothing but refusals

The limit of nesting is consulted by the reader when a list opens and by the evaluator when a
level begins. A run that is never refused does not depend on it: `sameRun` relates two runs that
are equal unless the left one is refused, and one level of evaluation keeps it (`step_alike`).

## Results

* `eval_of_le`: with more room an evaluation is refused or does the same.
* `parse_of_le`: with a higher limit a text is refused or read as the same datum.
* `World.run_withLimit`: a whole run gives the same answers and ends with the same machine.
* `raising_limit_keeps_outcomes`: so it is for a session from its start.
-/

namespace MiniScheme

/-- The error of an evaluation that is nested too deep. -/
def EvalError.isRefusal : EvalError → Prop
  | depthExceeded _ _ => True
  | _ => False

/-- Two runs that are equal, unless the left one is refused. -/
def sameRun : Likeness Unit where
  machine _ m m' := m = m'
  span _ s s' := s = s'
  frame _ f f' := f = f'
  value _ v v' := v = v'
  code _ _ _ _ n n' := n = n'
  abstraction _ _ _ ns ns' := ns = ns'
  definition _ _ _ _ _ := True
  held _ h h' := h = h'
  error _ e e' := e = e'
  fatal := EvalError.isRefusal
  lost _ := False

namespace sameRun

theorem alike_self {α : Type} {Q : Unit → α → α → Prop} (hQ : ∀ a, Q () a a)
    (r : EStateM.Result EvalError Machine α) : sameRun.Alike () Q r r :=
  match r with
  | .ok a _ => .ok (le_refl ()) rfl (hQ a)
  | .error _ _ => .error (le_refl ()) rfl rfl

theorem eq_of_values {w : Unit} {vs vs' : List Node} (h : List.Forall₂ (sameRun.value w) vs vs') :
    vs = vs' := by
  have heq : List.Forall₂ Eq vs vs' := h
  rwa [List.forall₂_eq_eq_eq] at heq

theorem parts_self {r : Role} (f f' : FrameId) {s : Store} {n : Node} {items : List Node}
    (ho : r.isOpened = true) (hp : r = .expression → ∃ c, n.value = .pair c)
    (h : s.elements? n.value = some items) : sameRun.parts () f f' r items items := by
  refine Likeness.parts_of_items (fun hn => hn) (fun hns => hns.eq fun hn => hn) ho ?_ rfl ?_
  · intro hr
    obtain ⟨c, hc⟩ := hp hr
    rw [hc] at h
    exact Store.elements?_ne_nil h
  · exact ⟨rfl, fun hn hn' => Option.some.inj (hn.symm.trans hn')⟩

/-- The same operations on the same machines. -/
theorem simulation : Simulation sameRun elements? elements? where
  span_mono _ h := h
  frame_mono _ h := h
  value_mono _ h := h
  code_mono _ h := h
  definition_mono _ _ h := h
  held_mono _ h := h
  code_span h := congrArg Node.span h
  expression := by
    rintro _ f _ n _ rfl rfl
    match hv : n.value with
    | .atom (.symbol a) => exact .name fun hm => hm ▸ alike_self (fun _ => rfl) _
    | .pair c => exact .list c c
    | .atom (.integer _) | .atom (.boolean _) | .nil | .procedure _ | .unspecified =>
      exact .constant rfl rfl nofun nofun rfl
  else_iff := by
    rintro _ f f' n _ rfl
    exact Iff.rfl
  target h := congrArg (fun n : Node => n.value.symbol?) h.symm
  split_alike := by
    rintro _ r f f' n _ m _ rfl rfl ho hp
    have hrun : elements? n m = .ok (m.store.elements? n.value) m := rfl
    rw [hrun]
    cases h : m.store.elements? n.value with
    | none => exact .inl ⟨rfl, rfl, fun _ => rfl⟩
    | some items =>
      exact .inr ⟨items, items, rfl, rfl, parts_self f f' ho hp h,
        fun hh => congrArg (refsOf items ++ ·) hh⟩
  held_value := by
    rintro _ v _ h _ rfl rfl
    rfl
  held_frame := by
    rintro _ f _ h _ rfl rfl
    rfl
  isTrue h := congrArg (fun n : Node => n.value.isTrue) h.symm
  kind := by
    rintro _ v _ rfl
    match v.value with
    | .procedure (.primitive p) => exact .primitive p
    | .procedure (.closure k) => exact .closure k k
    | .atom _ | .nil | .pair _ | .unspecified => exact .other nofun nofun
  unspecified h := congrArg Node.unspecified h
  boolean b h := congrArg (Node.boolean b) h
  symbol h _ := congrArg (fun n : Node => Node.symbol _ n.span) h
  fault _ h := congrArg (EvalError.malformed _) h
  notASymbol _ h := congrArg (fun n : Node => EvalError.malformed (.notASymbol _ n.value) n.span) h
  duplicateBinding h _ := congrArg (fun n : Node => EvalError.malformed _ n.span) h
  notAProcedure := by
    rintro _ v _ s _ rfl rfl
    rfl
  applyPrimitive := by
    rintro _ v _ p args args' s _ m _ rfl rfl _ ha rfl
    rw [eq_of_values ha]
    exact alike_self (fun _ => rfl) _
  enterClosure := by
    rintro _ h _ v _ k k' args args' s _ m _ rfl rfl rfl hk hk' ha rfl
    cases hk.symm.trans hk'
    rw [eq_of_values ha]
    exact alike_self (fun _ => ⟨rfl, rfl⟩) _
  bindGlobal := by
    rintro _ f _ n n' e e' name h _ v _ m _ rfl rfl rfl - - - rfl
    exact alike_self (fun _ => trivial) _
  assigned := by
    rintro _ f _ n _ rfl rfl
    cases hs : n.value.symbol? with
    | none => exact .inl ⟨rfl, rfl⟩
    | some a =>
      refine .inr ⟨a, a, rfl, rfl, ?_⟩
      rintro v _ m _ rfl rfl
      exact alike_self (fun _ => trivial) _
  lambda := by
    rintro _ f _ ns _ s _ m _ rfl rfl rfl rfl
    exact alike_self (fun _ => rfl) _
  enclose := by
    rintro _ h _ f _ es es' m _ rfl rfl rfl he - -
    have hes : es = es' := by
      induction he with
      | nil => rfl
      | cons h _ ih => rw [Prod.ext h.1 h.2.1, ih]
    rw [hes]
    exact alike_self (fun _ => ⟨rfl, id⟩) _

end sameRun

/-- **More room.** An evaluation with less room is the same as with more, or it is refused. -/
theorem evaluators_of_le (limit limit' : Nat) {room room' : Nat} (h : room ≤ room') :
    sameRun.Evaluators (eval limit room) (eval limit' room') := by
  induction room generalizing room' with
  | zero => exact fun _ _ _ _ _ _ _ _ _ _ _ _ _ => .inl trivial
  | succ room ih =>
    obtain ⟨k, rfl⟩ : ∃ k, room' = k + 1 := ⟨room' - 1, by omega⟩
    exact sameRun.simulation.step_alike trivial (ih (Nat.le_of_succ_le_succ h))

theorem eval_of_le (limit limit' : Nat) {room room' : Nat} (h : room ≤ room') (held : List Ref)
    (n : Node) (f : FrameId) (m : Machine) :
    (∃ e m', eval limit room held n f m = .error e m' ∧ e.isRefusal) ∨
      eval limit' room' held n f m = eval limit room held n f m := by
  have hal : sameRun.Alike () sameRun.value (eval limit room held n f m)
      (eval limit' room' held n f m) := evaluators_of_le limit limit' h rfl rfl rfl rfl
  cases hl : eval limit room held n f m with
  | error e m₁ =>
    rw [hl] at hal
    rcases hal.of_error fun _ => id with hf | ⟨e', m', _, hr, -, hm, he⟩
    · exact .inl ⟨e, m₁, rfl, hf⟩
    · cases hm
      cases he
      exact .inr hr
  | ok v m₁ =>
    rw [hl] at hal
    obtain ⟨v', m', _, hr, -, hm, hv⟩ := hal.of_ok fun _ => id
    cases hm
    cases hv
    exact .inr hr

/-! ## The reader -/

/-- The error of a text that is nested too deep. -/
def ReadError.isRefusal : ReadError → Prop
  | tooDeep _ _ => True
  | _ => False

theorem readWith_of_le {limit limit' : Nat} (h : limit ≤ limit') (ts : List Token) :
    ∀ stack : List OpenList, (∃ e, (readWith limit stack ts).1 = .error e ∧ e.isRefusal) ∨
      readWith limit' stack ts = readWith limit stack ts := by
  induction ts with
  | nil =>
    intro stack
    cases stack <;> exact .inr rfl
  | cons t ts ih =>
    intro stack
    obtain ⟨kind, span⟩ := t
    match kind, stack with
    | .opening, stack =>
      by_cases hs : stack.length < limit
      · simp only [readWith, if_pos hs, if_pos (Nat.lt_of_lt_of_le hs h)]
        exact ih _
      · simp only [readWith, if_neg hs]
        exact .inl ⟨_, rfl, trivial⟩
    | .closing, [] => exact .inr rfl
    | .closing, [o] => exact .inr rfl
    | .closing, o :: p :: stack => exact ih _
    | .atom a, [] => exact .inr rfl
    | .atom a, o :: stack => exact ih _

/-- **A higher limit.** A text that is not refused is read as before. -/
theorem parse_of_le {limit limit' : Nat} (h : limit ≤ limit') (source : String) :
    (∃ e, parse limit source = .error e ∧ e.isRefusal) ∨
      parse limit' source = parse limit source := by
  unfold parse
  cases tokenize source with
  | error e => exact .inr rfl
  | ok tokens =>
    simp only [readOnly, readDatum_eq]
    rcases readWith_of_le h tokens [] with ⟨e, he, hr⟩ | heq
    · revert he
      obtain ⟨r, rest⟩ := readWith limit [] tokens
      rintro rfl
      exact .inl ⟨e, rfl, hr⟩
    · exact .inr (by rw [heq])

/-! ## Sessions -/

/-- The errors that the limit of nesting causes. -/
def Error.isRefusal : Error → Prop
  | read e => e.isRefusal
  | eval e => e.isRefusal

theorem Error.isRefusal_iff (e : Error) : e.isRefusal ↔ e.kind = .recursionLimit := by
  cases e with
  | read e => cases e <;> simp [isRefusal, ReadError.isRefusal, kind]
  | eval e => cases e <;> simp [isRefusal, EvalError.isRefusal, kind]

/-- The session with another limit. -/
def Session.withLimit (session : Session) (limit : Nat) : Session := { session with limit := limit }

theorem Session.evaluate_withLimit (session : Session) {limit : Nat} (h : session.limit ≤ limit)
    (held : List Ref) (source : String) (m : Machine) :
    (∃ e, (session.evaluate held source m).1 = .error e ∧ e.isRefusal) ∨
      (session.withLimit limit).evaluate held source m = session.evaluate held source m := by
  unfold Session.evaluate
  rcases parse_of_le h source with ⟨e, he, hr⟩ | hparse
  · rw [evaluateWith_of_error he]
    exact .inl ⟨.read e, rfl, hr⟩
  cases hread : parse session.limit source with
  | error e =>
    have hread' : parse (session.withLimit limit).limit source = .error e := hparse.trans hread
    rw [evaluateWith_of_error hread, evaluateWith_of_error hread']
    exact .inr rfl
  | ok d =>
    have hread' : parse (session.withLimit limit).limit source = .ok d := hparse.trans hread
    rw [evaluateWith_of_ok hread, evaluateWith_of_ok hread']
    rcases eval_of_le session.limit limit h ((m.store.load d).1.refs ++ held) (m.store.load d).1
        session.global (m.reading source d) with ⟨e, m', he, hr⟩ | heval
    · unfold eval at he
      rw [he]
      exact .inl ⟨.eval e, rfl, hr⟩
    · unfold eval at heval
      exact .inr (congrArg conclude heval)

namespace World

/-- The world with another limit for all its sessions. -/
def withLimit (w : World) (limit : Nat) : World :=
  { w with sessions := w.sessions.map (·.withLimit limit) }

theorem roots_withLimit (w : World) (limit : Nat) : (w.withLimit limit).roots = w.roots := by
  unfold roots withLimit
  simp only [List.filter_map, List.map_map]
  rfl

/-- Whether the answer to an `eval` is that the limit was reached. -/
def isRefusal : Option Answer → Bool
  | some (.outcome (.error failure)) => failure.kind == .recursionLimit
  | _ => false

theorem evaluate_withLimit (w : World) (session : Session) {limit : Nat}
    (h : session.limit ≤ limit) (source : String) :
    (∃ e, (w.evaluate session source).1 = .error e ∧ e.isRefusal) ∨
      (w.withLimit limit).evaluate (session.withLimit limit) source =
        ((w.evaluate session source).1, (w.evaluate session source).2.withLimit limit) := by
  unfold evaluate
  rw [roots_withLimit]
  rcases session.evaluate_withLimit h w.roots source w.machine with hr | heq
  · exact .inl hr
  · refine .inr ?_
    simp only [withLimit, heq]

theorem perform_withLimit (w : World) {limit : Nat}
    (h : ∀ session ∈ w.sessions, session.limit ≤ limit) (i : Nat) (source : String) :
    isRefusal (w.perform (i, .eval source)).1 = true ∨
      (w.withLimit limit).perform (i, .eval source) =
        ((w.perform (i, .eval source)).1, (w.perform (i, .eval source)).2.withLimit limit) := by
  have hget : (w.withLimit limit).session? i = (w.session? i).map (·.withLimit limit) := by
    change ((w.sessions.map (·.withLimit limit))[i]?).filter (·.isOpen) = _
    rw [List.getElem?_map, Option.filter_map]
    rfl
  cases hi : w.session? i with
  | none =>
    rw [hi] at hget
    rw [perform_of_none hi, perform_of_none hget]
    exact .inr rfl
  | some session =>
    rw [hi] at hget
    rw [perform_eval hi, perform_eval hget]
    rcases w.evaluate_withLimit session (h session (mem_of_session? hi)) source with
      ⟨e, he, hr⟩ | heq
    · rw [he]
      exact .inl (beq_iff_eq.2 (e.isRefusal_iff.1 hr))
    · rw [heq]
      exact .inr rfl

theorem sessions_perform_eval (w : World) (i : Nat) (source : String) :
    (w.perform (i, .eval source)).2.sessions = w.sessions := by
  cases hi : w.session? i with
  | none => rw [perform_of_none hi]
  | some session => rw [perform_eval hi, sessions_evaluate]

/-- **A whole run.** As long as no answer is a refusal, a higher limit changes no answer, and it
changes nothing in the world but itself. -/
theorem run_withLimit {limit : Nat} (sources : List (Nat × String)) (w : World)
    (h : ∀ session ∈ w.sessions, session.limit ≤ limit)
    (hno : ∀ answer ∈ (w.run (sources.map fun c => (c.1, .eval c.2))).1,
      isRefusal answer = false) :
    (w.withLimit limit).run (sources.map fun c => (c.1, .eval c.2)) =
      ((w.run (sources.map fun c => (c.1, .eval c.2))).1,
        (w.run (sources.map fun c => (c.1, .eval c.2))).2.withLimit limit) := by
  induction sources generalizing w with
  | nil => rfl
  | cons c sources ih =>
    obtain ⟨i, source⟩ := c
    simp only [List.map_cons, run] at hno ⊢
    rcases w.perform_withLimit h i source with hr | heq
    · rw [hno _ List.mem_cons_self] at hr
      cases hr
    · have hs : ∀ session ∈ (w.perform (i, .eval source)).2.sessions, session.limit ≤ limit := by
        rw [sessions_perform_eval]
        exact h
      have hrest := ih (w.perform (i, .eval source)).2 hs
        fun answer ha => hno answer (List.mem_cons_of_mem _ ha)
      rw [heq, hrest]

end World

/-- **Raising the limit of nesting changes no result that did not hit it.** A session whose
sources are all evaluated without a refusal gives with every higher limit the same outcomes (the
printed form, type and range of a value, the kind, message and range of an error), and it ends
with the same store, so with the same global bindings. -/
theorem raising_limit_keeps_outcomes (recording : Bool) {limit limit' : Nat} (h : limit ≤ limit')
    (sources : List String)
    (hno : ∀ answer ∈
      ((World.ofLimits recording [limit]).run (sources.map fun s => (0, .eval s))).1,
      World.isRefusal answer = false) :
    ((World.ofLimits recording [limit']).run (sources.map fun s => (0, .eval s))).1 =
        ((World.ofLimits recording [limit]).run (sources.map fun s => (0, .eval s))).1 ∧
      ((World.ofLimits recording [limit']).run (sources.map fun s => (0, .eval s))).2 =
        ((World.ofLimits recording [limit]).run (sources.map fun s => (0, .eval s))).2.withLimit
          limit' := by
  have hstart : World.ofLimits recording [limit'] =
      (World.ofLimits recording [limit]).withLimit limit' := rfl
  have hlimit : ∀ session ∈ (World.ofLimits recording [limit]).sessions,
      session.limit ≤ limit' := by
    intro session hs
    cases List.mem_singleton.1 hs
    exact h
  have hrun := World.run_withLimit (sources.map fun s => (0, s)) (World.ofLimits recording [limit])
    hlimit
  simp only [List.map_map, Function.comp_def] at hrun
  rw [hstart, hrun hno]
  exact ⟨rfl, rfl⟩

/-- A closure, a list that is made to contain itself, and an unbound name, with just enough
room. -/
theorem raising_limit_from_three :
    let script : Script := ["(define f (lambda (x) (+ x 1)))", "(f 1)", "(define p (quote (1 2)))",
      "(set-cdr! p p)", "p", "q"].map fun s => (0, .eval s)
    (∀ answer ∈ ((World.ofLimits false [3]).run script).1, World.isRefusal answer = false) ∧
      ((World.ofLimits false [7]).run script).1 = ((World.ofLimits false [3]).run script).1 := by
  intro script
  have hno : ∀ answer ∈ ((World.ofLimits false [3]).run script).1,
      World.isRefusal answer = false := by decide +kernel
  exact ⟨hno, (raising_limit_keeps_outcomes false (by decide) _ hno).1⟩

end MiniScheme
