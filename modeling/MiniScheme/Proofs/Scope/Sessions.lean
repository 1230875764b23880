import MiniScheme.Proofs.Code.Immutable
import MiniScheme.Proofs.Scope.Evaluation

/-!
# Frames of sessions

Sessions run commands one after the other and share values, so closures of one session are called
from another and their frames are entered again. Whatever is run, as long as no session is closed,
frames keep their discipline: outer links stay and lead to a global frame, a call or `let` frame has
exactly the names it was made with, and a global frame loses none.

A global frame gets a name in two ways. A `define` form for the name is evaluated in it or in a
frame beneath it, by whichever session; or the host shares a value with the session under that
name.

## Results

* `World.Stands.perform`, `World.Stands.run`: one command and whole scripts lead to a later moment.
* `frames_keep_discipline`: what that means for frames, names and look-ups.
* `sharing_introduces_name`: `define` forms are not the only way.
-/

namespace MiniScheme

variable {F : FrameId → String → Bool}

/-- Evaluating the source in the session comes by a node for which `q` says so. -/
def World.Meets (w : World) (session : Session) (source : String)
    (q : Node → FrameId → Machine → Bool) : Prop :=
  ∃ d, parse session.limit source = .ok d ∧
    MiniScheme.Meets q session.limit session.limit ((w.store.load d).1.refs ++ w.roots)
      (w.store.load d).1 session.global (w.machine.reading source d)

/-- The command can give a global frame a name that `F` tells: it evaluates a `define` form for the
name in that frame or beneath it, or it shares a value under the name with the session of that
frame. -/
def World.Introduces (w : World) (F : FrameId → String → Bool) (c : Nat × Command) : Prop :=
  ∃ session, w.sessions[c.1]? = some session ∧
    ((∃ source, c.2.source? = some source ∧ w.Meets session source (definesOf F)) ∨
      ∃ name target other, c.2 = .share name target ∧ w.sessions[target]? = some other ∧
        F other.global name = true)

/-- The command leaves its session open. -/
def Command.keepsOpen : Command → Bool
  | .close => false
  | _ => true

/-- One name in one frame. -/
def oneName (g : FrameId) (name : String) : FrameId → String → Bool :=
  fun f other => f == g && other == name

/-- From one store to a later one, frames are kept and a name that is found from a frame is found
from it ever after. -/
structure Store.Discipline (s t : Store) : Prop extends Keeps s t where
  resolved : ∀ {f name}, s.HasFrame f → (s.lookup? f name).isSome = true →
    (t.lookup? f name).isSome = true

theorem Moment.discipline {w u : Moment F} (h : w ≤ u) : w.store.Discipline u.store :=
  ⟨h.2.toKeeps, fun hf hn => h.2.lookup? w.sound hf hn⟩

/-! ## Sources -/

/-- Reading a text leads to a later moment, and gives an expression. -/
theorem Moment.exists_load (w : Moment F) (d : Datum) :
    ∃ u : Moment F, w ≤ u ∧ u.store = (w.store.load d).2 ∧
      u.layout.Reads .expression (w.store.load d).1 := by
  have hgrows := Store.grows_load w.store d
  obtain ⟨hsep, hreads⟩ : Separated (fun _ _ => True) (w.layout.load w.store d) _ ∧ _ :=
    w.separated.load d fun _ _ _ => trivial
  obtain ⟨u, hu, hstore, hlayout⟩ := w.exists_next_of_size (w.separated.le_load d)
    (w.sound.load d) hsep (Store.later_of_eq hgrows.frames hgrows.closures) (by rw [hgrows.frames])
  exact ⟨u, hu, hstore, hlayout ▸ hreads⟩

namespace World

/-- The world is at the moment, and its sessions are open and have global frames. -/
structure Stands (w : World) (x : Moment F) : Prop where
  store : x.store = w.store
  isOpen : ∀ session ∈ w.sessions, session.isOpen = true
  globals : ∀ session ∈ w.sessions,
    x.store.HasFrame session.global ∧ (x.store.frame session.global).outer = none

variable {w : World} {x : Moment F}

theorem store_evaluate {session : Session} {source : String} {d : Datum}
    (h : parse session.limit source = .ok d) :
    (w.evaluate session source).2.store =
      (finalMachine (eval session.limit session.limit ((w.store.load d).1.refs ++ w.roots)
        (w.store.load d).1 session.global (w.machine.reading source d))).store := by
  rw [evaluate_of_ok h]
  generalize eval session.limit session.limit _ _ _ _ = r
  cases r <;> rfl

namespace Stands

theorem mono (h : w.Stands x) {w' : World} {y : Moment F} (hy : x ≤ y) (hstore : y.store = w'.store)
    (hsessions : w'.sessions = w.sessions) : w'.Stands y := by
  refine ⟨hstore, fun session hs => h.isOpen session (hsessions ▸ hs), fun session hs => ?_⟩
  obtain ⟨hframe, houter⟩ := h.globals session (hsessions ▸ hs)
  exact ⟨hy.2.hasFrame hframe, (hy.2.outer hframe).trans houter⟩

/-- **One source** leads to a later moment, if it comes by no `define` form for a name that `F`
tells. -/
theorem evaluate (h : w.Stands x) {session : Session} (hs : session ∈ w.sessions)
    {source : String} (hmeets : ¬w.Meets session source (definesOf F)) :
    ∃ y, x ≤ y ∧ y.store = (w.evaluate session source).2.store := by
  cases hparse : parse session.limit source with
  | error e =>
    refine ⟨x, le_rfl, h.store.trans ?_⟩
    rw [evaluate_of_error hparse]
    exact (Machine.store_note _ _).symm
  | ok d =>
    obtain ⟨y, hy, hstore, hreads⟩ := x.exists_load d
    rw [h.store] at hstore hreads
    obtain ⟨z, hz, hend⟩ := Moment.exists_eval (w := y) (m := w.machine.reading source d)
      hstore.symm (hy.2.hasFrame (h.globals session hs).1) (Store.known_load d _) hreads
      fun hm => hmeets ⟨d, hparse, hm⟩
    exact ⟨z, hy.trans hz, hend.trans (store_evaluate hparse).symm⟩

/-- **The moments of a source** lie between its start and its end. -/
theorem passed {x : Moment fun _ _ => false} (h : w.Stands x) {session : Session}
    (hs : session ∈ w.sessions) {source : String} {q : Node → FrameId → Machine → Bool}
    (hmeets : w.Meets session source q) :
    ∃ n f m, q n f m = true ∧ ∃ v y : Moment fun _ _ => false, v.store = m.store ∧ x ≤ v ∧ v ≤ y ∧
      y.store = (w.evaluate session source).2.store := by
  obtain ⟨d, hparse, hmeets⟩ := hmeets
  obtain ⟨y, hy, hstore, hreads⟩ := x.exists_load d
  rw [h.store] at hstore hreads
  obtain ⟨n, f, m, hq, v, z, hv, hyv, hvz, hend⟩ := Moment.exists_passed (w := y)
    (m := w.machine.reading source d) hstore.symm (hy.2.hasFrame (h.globals session hs).1)
    (Store.known_load d _) hreads hmeets
  exact ⟨n, f, m, hq, v, z, hv, hy.trans hyv, hvz, hend.trans (store_evaluate hparse).symm⟩

/-! ## Commands -/

/-- **One command** leads to a later moment, if it introduces no name that `F` tells. -/
theorem perform (h : w.Stands x) {c : Nat × Command} (htext : c.2.isTextual = true)
    (hopen : c.2.keepsOpen = true) (hnew : ¬w.Introduces F c) :
    ∃ y, x ≤ y ∧ (w.perform c).2.Stands y := by
  obtain ⟨i, c⟩ := c
  have heffect := w.perform_effect i htext
  generalize (w.perform (i, c)).2 = w' at heffect ⊢
  cases heffect with
  | none _ _ => exact ⟨x, le_rfl, h⟩
  | @evaluated _ session source _ hi hsource hsessions hstore =>
    have hmeets : ¬w.Meets session source (definesOf F) :=
      fun hm => hnew ⟨session, (session?_eq_some.1 hi).1, .inl ⟨source, hsource, hm⟩⟩
    obtain ⟨y, hy, hend⟩ := h.evaluate (mem_of_session? hi) hmeets
    exact ⟨y, hy, h.mono hy (hend.trans hstore.symm) hsessions⟩
  | @shared session other name target node hi ho hl =>
    -- the value was bound in one session, so it may be bound in another
    have hv : x.store.lookup? session.global name = some node := by
      rw [h.store]
      exact lookup?_of_lookup hl
    have hfree : F other.global name = false := by
      by_contra htold
      exact hnew ⟨session, (session?_eq_some.1 hi).1,
        .inr ⟨name, target, other, rfl, (session?_eq_some.1 ho).1, by simpa using htold⟩⟩
    obtain ⟨y, hy, hstore, -⟩ := x.exists_bind ⟨x.sound.lookup hv, x.separated.lookup hv⟩
      (.inr ⟨(h.globals other (mem_of_session? ho)).2, hfree⟩)
    exact ⟨y, hy, h.mono hy (hstore.trans (by rw [h.store]; rfl)) rfl⟩
  | closed _ => cases hopen

/-- **A whole script** leads to a later moment, if none of its commands introduces a name that `F`
tells. -/
theorem run (h : w.Stands x) {cs : Script}
    (hcs : ∀ c ∈ cs, c.2.isTextual = true ∧ c.2.keepsOpen = true)
    (hnew : ∀ early c late, cs = early ++ c :: late → ¬(w.run early).2.Introduces F c) :
    ∃ y, x ≤ y ∧ (w.run cs).2.Stands y := by
  induction cs generalizing w x with
  | nil => exact ⟨x, le_rfl, h⟩
  | cons c cs ih =>
    obtain ⟨⟨htext, hopen⟩, hcs⟩ := List.forall_mem_cons.1 hcs
    obtain ⟨y, hy, hstands⟩ := h.perform htext hopen (hnew [] c cs rfl)
    obtain ⟨z, hz, hend⟩ := ih hstands hcs fun early d late hsplit =>
      hnew (c :: early) d late (by rw [hsplit]; rfl)
    exact ⟨z, hy.trans hz, hend⟩

end Stands

/-- If no name is told then no command introduces one. -/
theorem not_introduces_nothing (w : World) (c : Nat × Command) :
    ¬w.Introduces (fun _ _ => false) c := by
  have hnone : definesOf (fun _ _ => false) = fun _ _ _ => false := by
    funext n f m
    unfold definesOf
    cases m.store.definition? n with
    | none => rfl
    | some name => rfl
  rintro ⟨session, -, ⟨source, -, d, -, mark, hne⟩ | ⟨name, target, other, -, -, hF⟩⟩
  · rw [hnone, evalUntil_never] at hne
    exact hne rfl
  · cases hF

/-! ## Sessions on which nothing has run yet -/

theorem Stands.openSession (h : w.Stands x) (limit : Nat) :
    ∃ y : Moment F, (w.openSession limit).Stands y := by
  obtain ⟨y, hy, hstore, hglobal⟩ := x.exists_newPopulated
  rw [h.store] at hstore hglobal
  refine ⟨y, hstore, List.forall_mem_append.2 ⟨h.isOpen, List.forall_mem_singleton.2 rfl⟩,
    fun session hs => ?_⟩
  rcases List.mem_append.1 hs with hold | hnew
  · obtain ⟨hframe, houter⟩ := h.globals session hold
    exact ⟨hy.2.hasFrame hframe, (hy.2.outer hframe).trans houter⟩
  · cases List.mem_singleton.1 hnew
    exact hglobal

theorem exists_stands_ofLimits (F : FrameId → String → Bool) (recording : Bool)
    (limits : List Nat) : ∃ x : Moment F, (ofLimits recording limits).Stands x := by
  have hempty : (empty recording).Stands (Moment.start : Moment F) := ⟨rfl, nofun, nofun⟩
  unfold ofLimits
  generalize empty recording = w, (Moment.start : Moment F) = x at hempty ⊢
  induction limits generalizing w x with
  | nil => exact ⟨x, hempty⟩
  | cons limit limits ih =>
    obtain ⟨y, hy⟩ := hempty.openSession limit
    exact ih _ y hy

/-- The moment that a script leads to, whatever names it introduces. -/
theorem exists_stands_run {x : Moment fun _ _ => false} (h : w.Stands x) {cs : Script}
    (hcs : ∀ c ∈ cs, c.2.isTextual = true ∧ c.2.keepsOpen = true) :
    ∃ y, x ≤ y ∧ (w.run cs).2.Stands y :=
  h.run hcs fun _ c _ _ => not_introduces_nothing _ c

end World

/-! ## The discipline -/

/-- **What it takes for a frame to get a name**: some command introduces it. -/
theorem exists_introduces {w : World} {g : FrameId} {name : String} {x : Moment (oneName g name)}
    (h : w.Stands x) {cs : Script} (hcs : ∀ c ∈ cs, c.2.isTextual = true ∧ c.2.keepsOpen = true)
    (hg : w.store.HasFrame g) (hold : name ∉ w.store.namesOf g)
    (hnew : name ∈ (w.run cs).2.store.namesOf g) :
    ∃ early c late, cs = early ++ c :: late ∧ (w.run early).2.Introduces (oneName g name) c := by
  by_contra hnone
  obtain ⟨y, hy, hend⟩ := h.run hcs fun early c late hsplit hi =>
    hnone ⟨early, c, late, hsplit, hi⟩
  rw [← h.store] at hg hold
  rw [← hend.store] at hnew
  exact hy.2.spared hg (by simp [oneName]) hold hnew

/-- **A moment in the middle of a script** lies between the start of its command and the end of the
script. -/
theorem discipline_of_meets {w : World} {x : Moment fun _ _ => false} (h : w.Stands x) {i : Nat}
    {c : Command} {late : Script}
    (hcs : ∀ d ∈ (i, c) :: late, d.2.isTextual = true ∧ d.2.keepsOpen = true) {session : Session}
    (hi : w.sessions[i]? = some session) {source : String} (hsource : c.source? = some source)
    {q : Node → FrameId → Machine → Bool} (hmeets : w.Meets session source q) :
    ∃ n f m, q n f m = true ∧ m.store.Scoped ∧ w.store.Discipline m.store ∧
      m.store.Discipline (w.run ((i, c) :: late)).2.store := by
  obtain ⟨⟨htext, -⟩, hlate⟩ := List.forall_mem_cons.1 hcs
  have hmem := List.mem_of_getElem? hi
  have hask : w.session? i = some session := World.session?_eq_some.2 ⟨hi, h.isOpen session hmem⟩
  obtain ⟨n, f, m, hq, v, y, hv, hxv, hvy, hend⟩ := h.passed hmem hmeets
  have hstands : (w.perform (i, c)).2.Stands y := by
    have heffect := w.perform_effect i htext
    generalize (w.perform (i, c)).2 = w' at heffect ⊢
    cases heffect with
    | none _ hnone =>
      rw [hnone session hask] at hsource
      cases hsource
    | @evaluated _ session' source' _ hi' hsource' hsessions hstore =>
      cases hask.symm.trans hi'
      cases hsource.symm.trans hsource'
      exact h.mono (hxv.trans hvy) (hend.trans hstore.symm) hsessions
    | shared => cases hsource
    | closed => cases hsource
  obtain ⟨z, hyz, hfinal⟩ := World.exists_stands_run hstands hlate
  have hstart := Moment.discipline hxv
  have hrest := Moment.discipline (hvy.trans hyz)
  rw [hv] at hstart hrest
  rw [h.store] at hstart
  rw [hfinal.store] at hrest
  exact ⟨n, f, m, hq, hv ▸ v.store_scoped, hstart, hrest⟩

/-- **Frame discipline.** Let any number of sessions work off a script, in which values may be
shared but no session is closed, and let the script go on. Then frames are kept: outer links stay
as they are, call and `let` frames keep exactly their names, global frames lose none, and a name
that was found from a frame is found from it. This holds from the state in between, and from every
moment at which a later command is to evaluate a node, so it holds of a frame from the moment that
its body is evaluated. At all these times every chain of outer links ends in a global frame, and the
names of a call or `let` frame are distinct and are the parameters of a closure over the frame
around it or the names of a `let` form. A frame gets a name only by a command that introduces it:
by a `define` form for the name that is evaluated in the frame or beneath it, or by sharing a value
under that name. -/
theorem frames_keep_discipline (recording : Bool) (limits : List Nat) (history future : Script)
    (hopen : ∀ c ∈ history ++ future, c.2.isTextual = true ∧ c.2.keepsOpen = true) :
    let w := ((World.ofLimits recording limits).run history).2
    let w' := (w.run future).2
    (w.store.Scoped ∧ w.store.Discipline w'.store) ∧
      (∀ early i c late session source q, future = early ++ (i, c) :: late →
        let v := (w.run early).2
        v.sessions[i]? = some session → c.source? = some source → v.Meets session source q →
        ∃ n f m, q n f m = true ∧ m.store.Scoped ∧ v.store.Discipline m.store ∧
          m.store.Discipline w'.store) ∧
      ∀ g name, w.store.HasFrame g → name ∉ w.store.namesOf g → name ∈ w'.store.namesOf g →
        ∃ early c late, future = early ++ c :: late ∧
          (w.run early).2.Introduces (oneName g name) c := by
  intro w w'
  obtain ⟨hhistory, hfuture⟩ := List.forall_mem_append.1 hopen
  obtain ⟨start, hstart⟩ := World.exists_stands_ofLimits (fun _ _ => false) recording limits
  obtain ⟨x, -, hx⟩ := World.exists_stands_run hstart hhistory
  refine ⟨⟨hx.store ▸ x.store_scoped, ?_⟩, ?_, ?_⟩
  · obtain ⟨y, hxy, hy⟩ := World.exists_stands_run hx hfuture
    have hdiscipline := Moment.discipline hxy
    rwa [hx.store, hy.store] at hdiscipline
  · intro early i c late session source q hsplit v hi hsource hmeets
    have hw' : w' = (v.run ((i, c) :: late)).2 := by
      rw [show w' = (w.run (early ++ (i, c) :: late)).2 from hsplit ▸ rfl, World.run_append]
    rw [hsplit] at hfuture
    obtain ⟨hearly, hlate⟩ := List.forall_mem_append.1 hfuture
    obtain ⟨y, -, hy⟩ := World.exists_stands_run hx hearly
    rw [hw']
    exact discipline_of_meets hy hlate hi hsource hmeets
  · intro g name hg hold hnew
    -- the same moment again, now with an eye on the name
    let x' : Moment (oneName g name) := ⟨x.store, x.layout, x.sound, x.separated, x.origin⟩
    have hx' : w.Stands x' := ⟨hx.store, hx.isOpen, hx.globals⟩
    exact exists_introduces hx' hfuture hg hold hnew

/-- Stopping the evaluation at the nodes that `q` tells turns a value into an error. -/
def World.comesBy (w : World) (session : Session) (source : String)
    (q : Node → FrameId → Machine → Bool) : Bool :=
  match parse session.limit source with
  | .error _ => false
  | .ok d =>
    let held := (w.store.load d).1.refs ++ w.roots
    let node := (w.store.load d).1
    let m := w.machine.reading source d
    match evalUntil q (.divisionByZero default) session.limit session.limit held node
        session.global m, eval session.limit session.limit held node session.global m with
    | .error _ _, .ok _ _ => true
    | _, _ => false

theorem World.meets_of_comesBy {w : World} {session : Session} {source : String}
    {q : Node → FrameId → Machine → Bool} (h : w.comesBy session source q = true) :
    w.Meets session source q := by
  unfold comesBy at h
  cases hparse : parse session.limit source with
  | error e =>
    rw [hparse] at h
    cases h
  | ok d =>
    rw [hparse] at h
    refine ⟨d, hparse, .divisionByZero default, fun heq => ?_⟩
    simp only [heq] at h
    revert h
    generalize eval session.limit session.limit _ _ _ _ = r
    intro h
    cases r <;> cases h

/-- A closure that one session makes in a `let` and another one calls. The call binds a name in the
global frame of the first session. The frame of the `let` is made by the other session; from the
moment that its body is evaluated it has one name, and it is the same frame in the end. -/
theorem frames_keep_discipline_of_shared_closure :
    let make := "(lambda (x) (let ((y x)) (lambda (z) (begin (define n z) (set! y z) (+ y x)))))"
    let history : Script := [(0, .eval ("(define f " ++ make ++ ")"))]
    let future : Script := [(0, .share "f" 1), (1, .eval "(define k (f 3))"), (1, .eval "(k 4)")]
    let w := ((World.ofLimits false [9, 9]).run history).2
    let w' := (w.run future).2
    let made : Node → FrameId → Machine → Bool := fun _ _ m => m.store.frames.size == 4 &&
      (m.store.frame ⟨3⟩).outer == some ⟨2⟩ && m.store.namesOf ⟨3⟩ == ["y"]
    (∀ c ∈ history ++ future, c.2.isTextual = true ∧ c.2.keepsOpen = true) ∧
      (w.run [(0, .share "f" 1)]).2.Meets ⟨⟨1⟩, 9, true⟩ "(define k (f 3))" made ∧
      (w'.store.frame ⟨3⟩).outer = some ⟨2⟩ ∧ w'.store.namesOf ⟨3⟩ = ["y"] ∧
      ∃ early c late, future = early ++ c :: late ∧
        (w.run early).2.Introduces (oneName ⟨0⟩ "n") c := by
  intro make history future w w' made
  have hopen : ∀ c ∈ history ++ future, c.2.isTextual = true ∧ c.2.keepsOpen = true := by decide
  have hmeets : (w.run [(0, .share "f" 1)]).2.Meets ⟨⟨1⟩, 9, true⟩ "(define k (f 3))" made :=
    World.meets_of_comesBy (by decide +kernel)
  obtain ⟨-, hmoments, hgains⟩ := frames_keep_discipline false [9, 9] history future hopen
  obtain ⟨n, f, m, hmade, -, -, hkept⟩ := hmoments [(0, .share "f" 1)] 1 (.eval "(define k (f 3))")
    [(1, .eval "(k 4)")] ⟨⟨1⟩, 9, true⟩ "(define k (f 3))" made rfl (by decide +kernel) rfl hmeets
  simp only [made, Bool.and_eq_true, beq_iff_eq] at hmade
  obtain ⟨⟨hsize, houter⟩, hnames⟩ := hmade
  have hframe : m.store.HasFrame ⟨3⟩ := by
    rw [Store.HasFrame, hsize]
    decide
  refine ⟨hopen, hmeets, (hkept.outer hframe).trans houter,
    (hkept.inner hframe houter).trans hnames, ?_⟩
  exact hgains ⟨0⟩ "n" (by decide +kernel) (by decide +kernel) (by decide +kernel)

/-- **Sharing a value introduces its name** without any `define` form: what is said of `define`
forms and sharing together does not hold of `define` forms alone. -/
theorem sharing_introduces_name :
    ¬∀ (recording : Bool) (limits : List Nat) (history future : Script),
      (∀ c ∈ history ++ future, c.2.isTextual = true ∧ c.2.keepsOpen = true) →
      let w := ((World.ofLimits recording limits).run history).2
      ∀ g name, w.store.HasFrame g → name ∉ w.store.namesOf g →
        name ∈ (w.run future).2.store.namesOf g →
        ∃ early i c late session source, future = early ++ (i, c) :: late ∧
          (w.run early).2.sessions[i]? = some session ∧ c.source? = some source ∧
          (w.run early).2.Meets session source (definesOf (oneName g name)) := by
  intro h
  obtain ⟨early, i, c, late, session, source, hsplit, -, hsource, -⟩ :=
    h false [9, 9] [(0, .eval "(define a 1)")] [(0, .share "a" 1)] (by decide) ⟨1⟩ "a"
      (by decide +kernel) (by decide +kernel) (by decide +kernel)
  have hmem : (i, c) ∈ [(0, Command.share "a" 1)] := by
    rw [hsplit]
    simp
  cases List.mem_singleton.1 hmem
  cases hsource

end MiniScheme
