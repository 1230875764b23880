import MiniScheme.Proofs.Renaming.Run
import MiniScheme.Proofs.Stepwise.Scenes

/-!
# Bound names do not matter

A host works off a script, and in one of its sources a parameter gets another name. With other names
there are other ranges of text, so the two sources cannot be compared as texts; a `Query` is
performed on a datum instead, as if that had been read (`World.performRead`).

From there on the two worlds are `Paired`: they have the same sessions, and their stores are
`Twins`. Every command of a text-driven host keeps them so and is answered alike. Closing a session
is left out, because it empties the frames in which the parameter is bound; a procedure that another
session has got hold of would then complain about the name.

## Results

* `Paired.perform`, `Paired.run`: commands and scripts on paired worlds.
* `bound_names_do_not_matter`: a parameter replaced in one source of a script.
-/

namespace MiniScheme

/-- The command ends its session. -/
def Command.isClose : Command → Bool
  | .close => true
  | _ => false

/-! ## Sources that have been read -/

/-- How a host asks for the result of a source: for one line, for the outcome, or for errors
rendered against a text. -/
inductive Query where
  | line
  | outcome
  | rendering (text : String)

namespace Query

/-- The command that has a source evaluated and asks for its result. -/
def command (source : String) : Query → Command
  | line => .run source
  | outcome => .eval source
  | rendering text => .render source text

/-- The answer to a result. -/
def answer (s : Store) (r : Except Error Node) : Query → Answer
  | line => .line (s.answer r)
  | outcome => .outcome (s.outcome r)
  | rendering text => s.rendering text r

/-- What a host sees the same of is answered alike. -/
theorem answer_eq {s t : Store} {r r' : Except Error Node} (h : s.SeenAlike t r r') (q : Query) :
    q.answer s r = q.answer t r' := by
  cases q with
  | line => exact congrArg Answer.line h.answer_eq
  | outcome => exact congrArg Answer.outcome h.outcome_eq
  | rendering text => exact h.rendering_eq text

/-- The world after the answer: one line is logged if it tells of an error. -/
def noted (w : World) : Query → Except Error Node → World
  | line, .error e => { w with machine := w.machine.note fun s => .failed (e.message s) }
  | _, _ => w

theorem noted_effect (q : Query) (w : World) (r : Except Error Node) :
    (q.noted w r).sessions = w.sessions ∧ (q.noted w r).store = w.store := by
  match q, r with
  | line, .error e => exact ⟨rfl, Machine.store_note _ _⟩
  | line, .ok _ | outcome, _ | rendering _, _ => exact ⟨rfl, rfl⟩

theorem exists_of_source? {c : Command} {source : String} (h : c.source? = some source) :
    ∃ q : Query, c = q.command source := by
  cases c with
  | run _ =>
    cases h
    exact ⟨line, rfl⟩
  | eval _ =>
    cases h
    exact ⟨outcome, rfl⟩
  | render _ text =>
    cases h
    exact ⟨rendering text, rfl⟩
  | _ => cases h

end Query

namespace World

variable {w : World} {i : Nat} {session : Session} {source : String}

/-- Evaluates a datum in a session as if it had been read from the source. -/
def evaluateRead (w : World) (session : Session) (source : String) (d : Datum) :
    Except Error Node × World :=
  let r := Session.conclude (eval session.limit session.limit
    ((w.store.load d).1.refs ++ w.roots) (w.store.load d).1 session.global
    (w.machine.reading source d))
  (r.1, { w with machine := r.2 })

/-- Answers a query to the session at `i` as if its source had been read as the datum. -/
def performRead (w : World) (i : Nat) (q : Query) (source : String) (d : Datum) :
    Option Answer × World :=
  match w.session? i with
  | none => (none, w)
  | some session =>
    let (r, w) := w.evaluateRead session source d
    (some (q.answer w.store r), q.noted w r)

theorem evaluate_eq_evaluateRead {d : Datum} (h : parse session.limit source = .ok d) :
    w.evaluate session source = w.evaluateRead session source d := by
  unfold evaluate Session.evaluate evaluateRead
  rw [Session.evaluateWith_of_ok h]
  rfl

theorem perform_query (hi : w.session? i = some session) (q : Query) (source : String) :
    w.perform (i, q.command source) =
      (some (q.answer (w.evaluate session source).2.store (w.evaluate session source).1),
        q.noted (w.evaluate session source).2 (w.evaluate session source).1) := by
  cases q with
  | line =>
    refine (perform_run hi source).trans ?_
    unfold runLine
    generalize w.evaluate session source = r
    obtain ⟨_ | _, _⟩ := r <;> rfl
  | outcome => exact perform_eval hi source
  | rendering text => exact perform_render hi source text

/-- **A source that is read as the datum** is performed so. -/
theorem perform_eq_performRead {d : Datum} (hi : w.session? i = some session)
    (h : parse session.limit source = .ok d) (q : Query) :
    w.perform (i, q.command source) = w.performRead i q source d := by
  rw [perform_query hi, evaluate_eq_evaluateRead h, performRead, hi]

theorem performRead_of_none (hi : w.session? i = none) (q : Query) (source : String) (d : Datum) :
    w.performRead i q source d = (none, w) := by
  rw [performRead, hi]

end World

/-! ## What a host is shown -/

namespace Twinning

/-- Results that are shown alike. -/
inductive Results (T : Twinning) : Except Error Node → Except Error Node → Prop
  | ok {v : Node} (h : T.Data v.value) : Results T (.ok v) (.ok v)
  | read (e : ReadError) : Results T (.error (.read e)) (.error (.read e))
  | eval {e e' : EvalError} (h : T.Complaints e e') :
      Results T (.error (.eval e)) (.error (.eval e'))

theorem Complaints.agree {T : Twinning} {e e' : EvalError} (h : T.Complaints e e') :
    (Error.eval e).kind = (Error.eval e').kind ∧ e.span = e'.span ∧
      ∀ start, (Error.eval e).label start = (Error.eval e').label start := by
  cases h <;> exact ⟨rfl, rfl, fun _ => rfl⟩

end Twinning

namespace Twins

variable {x y : String} {T : Twinning} {s t : Store} (h : Twins x y T s t)

include h

theorem message_eq {e e' : EvalError} (he : T.Complaints e e') : e.message s = e'.message t := by
  cases he with
  | same hdata =>
    cases e with
    | notAProcedure v span =>
      unfold EvalError.message
      dsimp only
      rw [h.text_eq (hdata v span rfl)]
    | _ => rfl
  | notASymbol form span hv =>
    unfold EvalError.message Fault.text
    dsimp only
    rw [hv]

theorem seenAlike {r r' : Except Error Node} (hr : T.Results r r') : s.SeenAlike t r r' := by
  cases hr with
  | ok hv =>
    refine .ok ?_
    unfold Store.shown
    rw [h.text_eq hv]
  | read e => exact .read s t e
  | eval he =>
    obtain ⟨hkind, hspan, hlabel⟩ := he.agree
    exact .error rfl hkind (h.message_eq he) (congrArg some hspan) hlabel

/-- Frames outside have the same names with the same values. -/
theorem bindings_eq {f : FrameId} (hf : T.zone f = some .outside) :
    (t.frame f).bindings = (s.frame f).bindings := by
  rw [(h.frame hf).bindings]
  simp [Table.mapNames, Zone.rename]

theorem frameText_eq {f : FrameId} (hf : T.zone f = some .outside) :
    t.frameText f = s.frameText f := by
  unfold Store.frameText
  dsimp only
  rw [h.bindings_eq hf, h.outer_eq]

end Twins

/-! ## Paired worlds -/

/-- The same sessions on two stores. Their global frames are outside. -/
structure Paired (x y : String) (T : Twinning) (w u : World) : Prop where
  sessions : u.sessions = w.sessions
  twins : Twins x y T w.store u.store
  global : ∀ session ∈ w.sessions, T.zone session.global = some .outside

theorem Session.conclude_twins {x y : String} {T : Twinning}
    {r r' : EStateM.Result EvalError Machine Node}
    (h : (twinRun x y).Alike T (twinRun x y).value r r') :
    ∃ T', T ≤ T' ∧ Twins x y T' (conclude r).2.store (conclude r').2.store ∧
      T'.Results (conclude r).1 (conclude r').1 := by
  cases r with
  | ok v m =>
    obtain ⟨_, m', T', rfl, hle, h', rfl, hv⟩ := h.of_ok fun _ => id
    exact ⟨T', hle, h', .ok hv⟩
  | error e m =>
    obtain hf | ⟨e', m', T', rfl, hle, h', he⟩ := h.of_error fun _ => id
    · exact hf.elim
    · exact ⟨T', hle, h', .eval he⟩

namespace Paired

variable {x y : String} {T : Twinning} {w u : World} {i : Nat} {session : Session}

theorem roots_eq (h : Paired x y T w u) : u.roots = w.roots := by
  unfold World.roots
  rw [h.sessions]

/-- Worlds with the sessions they had, on stores that have grown. -/
theorem withStores (h : Paired x y T w u) {T' : Twinning} (hle : T ≤ T') {w' u' : World}
    (hw : w'.sessions = w.sessions) (hu : u'.sessions = u.sessions)
    (hs : Twins x y T' w'.store u'.store) : Paired x y T' w' u' where
  sessions := by rw [hw, hu, h.sessions]
  twins := hs
  global session hmem := Twinning.zone_mono hle (h.global session (hw ▸ hmem))

variable (hx : isReserved x = false) (hy : isReserved y = false)

include hx hy

/-- **Two data that differ in the name of a parameter**, or the same datum twice. -/
theorem evaluateRead (h : Paired x y T w u) (hs : session ∈ w.sessions) (source source' : String)
    {d d' : Datum} (hd : d.Altered x y .outside .expression d') :
    ∃ T', Paired x y T' (w.evaluateRead session source d).2
        (u.evaluateRead session source' d').2 ∧
      T'.Results (w.evaluateRead session source d).1 (u.evaluateRead session source' d').1 := by
  obtain ⟨T₁, hle₁, h₁, hn⟩ := h.twins.load hx hy hd
  have hframe : T₁.zone session.global = some .outside :=
    Twinning.zone_mono hle₁ (h.global session hs)
  have hmachine : (twinRun x y).machine T₁ (w.machine.reading source d)
      (u.machine.reading source' d') := h₁
  have hheld : (twinRun x y).held T₁ ((w.store.load d).1.refs ++ w.roots)
      ((u.store.load d').1.refs ++ u.roots) := by
    change _ ++ _ = _ ++ _
    rw [hn.refs_eq, h.roots_eq]
  obtain ⟨T₂, hle₂, h₂, hr⟩ := Session.conclude_twins
    (twinRun.evaluators hx hy session.limit session.limit hmachine hheld ⟨rfl, .outside, hframe⟩
      ⟨rfl, .outside, hframe, hn⟩)
  exact ⟨T₂, h.withStores (hle₁.trans hle₂) rfl rfl h₂, hr⟩

theorem evaluate (h : Paired x y T w u) (hs : session ∈ w.sessions) (source : String) :
    ∃ T', Paired x y T' (w.evaluate session source).2 (u.evaluate session source).2 ∧
      T'.Results (w.evaluate session source).1 (u.evaluate session source).1 := by
  cases hparse : parse session.limit source with
  | ok d =>
    rw [World.evaluate_eq_evaluateRead hparse, World.evaluate_eq_evaluateRead hparse]
    exact h.evaluateRead hx hy hs source source (Datum.altered_refl _ d)
  | error e =>
    rw [World.evaluate_of_error hparse, World.evaluate_of_error hparse]
    refine ⟨T, h.withStores le_rfl rfl rfl ?_, .read e⟩
    simp only [World.store, Machine.store_note]
    exact h.twins

omit hx hy

/-- What is answered to paired results. -/
theorem answered (h : Paired x y T w u) {r r' : Except Error Node} (hr : T.Results r r')
    (q : Query) : q.answer w.store r = q.answer u.store r' ∧
      Paired x y T (q.noted w r) (q.noted u r') := by
  obtain ⟨hsessions, hstore⟩ := q.noted_effect w r
  obtain ⟨hsessions', hstore'⟩ := q.noted_effect u r'
  exact ⟨q.answer_eq (h.twins.seenAlike hr), h.withStores le_rfl hsessions hsessions'
    (by rw [hstore, hstore']; exact h.twins)⟩

theorem lookup (h : Paired x y T w u) (hs : session ∈ w.sessions) (name : String) (span : Span) :
    T.Results (w.lookup session name span) (u.lookup session name span) := by
  have hlookup : u.store.lookup? session.global name = w.store.lookup? session.global name :=
    (h.twins.lookup?_eq (h.global session hs) nofun).1
  unfold World.lookup
  rw [hlookup]
  cases hv : w.store.lookup? session.global name with
  | none => exact .eval (.same nofun)
  | some v => exact .ok ⟨h.twins.left.lookup hv, h.twins.right.lookup (hlookup.trans hv)⟩

theorem session?_eq (h : Paired x y T w u) (i : Nat) : u.session? i = w.session? i := by
  rw [World.session?, World.session?, h.sessions]

theorem share (h : Paired x y T w u) (hi : w.session? i = some session) (name : String)
    (target : Nat) :
    (w.perform (i, .share name target)).1 = (u.perform (i, .share name target)).1 ∧
      Paired x y T (w.perform (i, .share name target)).2
        (u.perform (i, .share name target)).2 := by
  have hi' := (h.session?_eq i).trans hi
  rw [World.perform_share hi, World.perform_share hi', h.session?_eq]
  cases ho : w.session? target with
  | none => exact ⟨rfl, h⟩
  | some other =>
    have hr := h.lookup (World.mem_of_session? hi) name default
    revert hr
    dsimp only
    generalize w.lookup session name default = r
    generalize u.lookup session name default = r'
    intro hr
    have houtcome := (h.twins.seenAlike hr).outcome_eq
    cases hr with
    | ok hv =>
      have hglobal := h.global other (World.mem_of_session? ho)
      exact ⟨rfl, h.withStores le_rfl rfl rfl (h.twins.bind hglobal (.inl rfl) hv)⟩
    | read e => exact ⟨congrArg (some ∘ Answer.outcome) houtcome, h⟩
    | eval he => exact ⟨congrArg (some ∘ Answer.outcome) houtcome, h⟩

include hx hy

/-- **One command** is answered alike. -/
theorem perform (h : Paired x y T w u) {c : Command} (hc : c.isTextual = true)
    (hclose : c.isClose = false) (i : Nat) :
    (w.perform (i, c)).1 = (u.perform (i, c)).1 ∧
      ∃ T', Paired x y T' (w.perform (i, c)).2 (u.perform (i, c)).2 := by
  cases hi : w.session? i with
  | none =>
    rw [World.perform_of_none hi, World.perform_of_none ((h.session?_eq i).trans hi)]
    exact ⟨rfl, T, h⟩
  | some session =>
    have hi' := (h.session?_eq i).trans hi
    have hmem := World.mem_of_session? hi
    have hglobal := h.global session hmem
    cases hsource : c.source? with
    | some source =>
      obtain ⟨q, rfl⟩ := Query.exists_of_source? hsource
      obtain ⟨T', h', hr⟩ := h.evaluate hx hy hmem source
      obtain ⟨hanswer, hpaired⟩ := h'.answered hr q
      rw [World.perform_query hi, World.perform_query hi']
      exact ⟨congrArg some hanswer, T', hpaired⟩
    | none =>
      cases c with
      | run | eval | render => cases hsource
      | define => cases hc
      | close => cases hclose
      | contains name =>
        rw [World.perform_contains hi, World.perform_contains hi', h.twins.bindings_eq hglobal]
        exact ⟨rfl, T, h⟩
      | get name span =>
        rw [World.perform_get hi, World.perform_get hi',
          (h.twins.seenAlike (h.lookup hmem name span)).outcome_eq]
        exact ⟨rfl, T, h⟩
      | limit =>
        rw [World.perform_limit hi, World.perform_limit hi']
        exact ⟨rfl, T, h⟩
      | globals =>
        rw [World.perform_globals hi, World.perform_globals hi', h.twins.frameText_eq hglobal]
        exact ⟨rfl, T, h⟩
      | share name target =>
        obtain ⟨hanswer, h'⟩ := h.share hi name target
        exact ⟨hanswer, T, h'⟩

/-- **A whole script** is answered alike. -/
theorem run (h : Paired x y T w u) {cs : Script}
    (hcs : ∀ c ∈ cs, c.2.isTextual = true ∧ c.2.isClose = false) : (w.run cs).1 = (u.run cs).1 := by
  induction cs generalizing T w u with
  | nil => rfl
  | cons c cs ih =>
    obtain ⟨⟨hc, hclose⟩, hcs⟩ := List.forall_mem_cons.1 hcs
    obtain ⟨hanswer, T', h'⟩ := h.perform hx hy hc hclose c.1
    rw [World.run, World.run]
    exact congrArg₂ List.cons hanswer (ih h' hcs)

end Paired

/-! ## Where it starts -/

/-- All frames are outside. -/
def Twinning.start (L : Layout) (frames : Nat) : Twinning :=
  ⟨L, L, List.replicate frames .outside, by simp⟩

theorem Twinning.zone_start (L : Layout) {frames : Nat} {f : FrameId} (h : f.index < frames) :
    (Twinning.start L frames).zone f = some .outside := by
  rw [zone, start, List.getElem?_replicate, if_pos h]

/-- A store on which nothing has been replaced yet. -/
theorem Twins.start (x y : String) {built : CellId → Cell → Prop} {L : Layout} {s : Store}
    (h : Separated built L s) (hwhole : s.Whole) (hframes : 0 < s.frames.size) :
    Twins x y (.start L s.frames.size) s s := by
  have hsep : Separated (fun _ _ => True) L s :=
    ⟨fun hc => ⟨trivial, (h.code hc).2⟩, h.data, h.binding, h.body⟩
  refine ⟨hsep, hsep, rfl, fun c => ⟨rfl, .inl rfl⟩, by simp [Twinning.start], fun {f z} hf => ?_,
    rfl, fun k => ⟨rfl, rfl, .outside, .outside, ?_, .outside _, ?_, (h.body k).altered⟩, rfl⟩
  · have hlt : f.index < s.frames.size := by
      have := (List.getElem?_eq_some_iff.1 hf).1
      rwa [Twinning.start, List.length_replicate] at this
    cases (Twinning.zone_start L hlt).symm.trans hf
    refine ⟨rfl, by simp [Table.mapNames, Zone.rename], fun {g} ho => ?_, fun _ => rfl⟩
    have hg := hwhole.outer ho
    exact ⟨hg, .outside, Twinning.zone_start L (hg.trans hlt), .outside _⟩
  · -- a closure that is not there is one over the first frame
    refine Twinning.zone_start L ?_
    by_cases hk : k.index < s.closures.size
    · exact hwhole.closed (.closure k) hk (.frame (s.closure k).frame)
        (List.mem_append_right _ List.mem_cons_self)
    · rw [Store.closure, Array.getElem?_eq_none (Nat.le_of_not_lt hk)]
      exact hframes
  · exact (List.map_id' _).symm

/-- **Any world of a text-driven host** with itself. -/
theorem Paired.start (x y : String) (recording : Bool) (limits : List Nat) {before : Script}
    (htext : ∀ c ∈ before, c.2.isTextual = true) {session : Session}
    (hs : session ∈ ((World.ofLimits recording limits).run before).2.sessions) :
    ∃ T, Paired x y T ((World.ofLimits recording limits).run before).2
      ((World.ofLimits recording limits).run before).2 := by
  have hfits := (Scene.reached_run recording limits before).fits.world
  obtain ⟨L, hsep, -⟩ := tidy_run (tidy_ofLimits recording limits) htext
  have hhas (session : Session) (hs : session ∈ _) := hfits.has session hs
  exact ⟨_, rfl, .start x y hsep hfits.whole (Nat.zero_lt_of_lt (hhas session hs)),
    fun session hs => Twinning.zone_start L (hhas session hs)⟩

/-- **Bound names do not matter.** Let a host run texts in any number of sessions and share values
between them. In one of the sources there is a `lambda` expression, where it is evaluated, whose
parameters are distinct symbols; `x` is one of them, and in its body `x` is neither quoted nor bound
again. Let `y` stand in its place in the parameter list and throughout the body, where `y` has not
been before. Neither is a reserved word. Then that source has the same answer, value or error, and
so does every command after it, whoever calls the procedure there, and however often. If there is a
text that reads so, then this is what performing it does. -/
theorem bound_names_do_not_matter {x y : String} (hx : isReserved x = false)
    (hy : isReserved y = false) (recording : Bool) (limits : List Nat) (before after : Script)
    (hbefore : ∀ c ∈ before, c.2.isTextual = true)
    (hafter : ∀ c ∈ after, c.2.isTextual = true ∧ c.2.isClose = false) {i : Nat} {session : Session}
    {source : String} {d d' : Datum} (q : Query) (source' : String) :
    let w := ((World.ofLimits recording limits).run before).2
    w.sessions[i]? = some session → parse session.limit source = .ok d →
    Datum.Renamed x y .expression d d' →
      (w.performRead i q source' d').1 = (w.perform (i, q.command source)).1 ∧
      ((w.performRead i q source' d').2.run after).1 =
        ((w.perform (i, q.command source)).2.run after).1 ∧
      (parse session.limit source' = .ok d' →
        w.perform (i, q.command source') = w.performRead i q source' d') := by
  intro w hi hparse hrenamed
  have hmem := List.mem_of_getElem? hi
  cases hopen : session.isOpen with
  | false =>
    -- nobody asks a session that has been closed
    have hnone : w.session? i = none := World.session?_of_closed hi hopen
    rw [World.perform_of_none hnone, World.performRead_of_none hnone]
    exact ⟨rfl, rfl, fun _ => World.perform_of_none hnone _⟩
  | true =>
  have hi := World.session?_eq_some.2 ⟨hi, hopen⟩
  obtain ⟨T, h⟩ := Paired.start x y recording limits hbefore hmem
  obtain ⟨T', h', hr⟩ := h.evaluateRead hx hy hmem source source' hrenamed.altered
  obtain ⟨hanswer, hpaired⟩ := h'.answered hr q
  have hrun := hpaired.run hx hy hafter
  refine ⟨?_, ?_, fun hparse' => World.perform_eq_performRead hi hparse' q⟩
  · rw [World.perform_eq_performRead hi hparse, World.performRead, World.performRead, hi]
    exact congrArg some hanswer.symm
  · rw [World.perform_eq_performRead hi hparse, World.performRead, World.performRead, hi]
    exact hrun.symm

/-- A counter that keeps its sum in a parameter. It is shared with another session, called from both
and called with too few arguments. -/
theorem bound_names_do_not_matter_to_counter :
    let w := World.ofLimits false [9, 9]
    let after : Script := [(0, .run "(define g (f 1))"), (0, .share "g" 1), (1, .run "(g 2)"),
      (0, .eval "(g 3)"), (0, .eval "(f)"), (0, .run "n")]
    ((w.perform (0, .run "(define f (lambda (k) (lambda (m) (begin (set! k (+ k m)) k))))")).2.run
        after).1 =
      ((w.perform (0, .run "(define f (lambda (n) (lambda (m) (begin (set! n (+ n m)) n))))")).2.run
        after).1 := by
  intro w after
  let symbol (name : String) (start stop : Nat) : Datum := .atom (.symbol name) ⟨start, stop⟩
  let body : Datum := .list [symbol "lambda" 23 29, .list [symbol "m" 31 32] ⟨30, 33⟩,
    .list [symbol "begin" 35 40, .list [symbol "set!" 42 46, symbol "n" 47 48,
      .list [symbol "+" 50 51, symbol "n" 52 53, symbol "m" 54 55] ⟨49, 56⟩] ⟨41, 57⟩,
      symbol "n" 58 59] ⟨34, 60⟩] ⟨22, 61⟩
  let lambda : Datum :=
    .list [symbol "lambda" 11 17, .list [symbol "n" 19 20] ⟨18, 21⟩, body] ⟨10, 62⟩
  let lambda' : Datum := .list [symbol "lambda" 11 17,
    .list (Datum.renameAll "n" "k" [symbol "n" 19 20]) ⟨18, 21⟩, body.rename "n" "k"] ⟨10, 62⟩
  let front : List Datum := [symbol "define" 1 7, symbol "f" 8 9]
  have hparse : parse 9 "(define f (lambda (n) (lambda (m) (begin (set! n (+ n m)) n))))" =
      .ok (.list (front ++ lambda :: []) ⟨0, 63⟩) := by decide +kernel
  have hparse' : parse 9 "(define f (lambda (k) (lambda (m) (begin (set! k (+ k m)) k))))" =
      .ok (.list (front ++ lambda' :: []) ⟨0, 63⟩) := by decide +kernel
  have hnames : [symbol "n" 19 20].map Datum.symbol? = ["n"].map some := rfl
  have hlambda : Datum.Renamed "n" "k" .expression lambda lambda' :=
    .lambda ⟨11, 17⟩ ⟨18, 21⟩ ⟨10, 62⟩ hnames (by decide) (by decide) (by decide)
      (by decide) (by decide)
  have hrole : Role.expression.item (Datum.headForm (front ++ lambda :: [])) front.length =
      .expression := by decide
  rw [← hrole] at hlambda
  have hsession : ((World.ofLimits false [9, 9]).run []).2.sessions[0]? = some ⟨⟨0⟩, 9, true⟩ := rfl
  obtain ⟨-, hrun, hread⟩ := bound_names_do_not_matter (x := "n") (y := "k") (by decide)
    (by decide) false [9, 9] [] after (List.forall_mem_nil _) (by decide) .line _ hsession hparse
    (.item ⟨0, 63⟩ hlambda)
  rw [← hread hparse'] at hrun
  exact hrun

end MiniScheme
