import MiniScheme.Proofs.Isolation.Run
import MiniScheme.Proofs.Script

/-!
# Sessions are isolated

Sessions share one store, and as long as no value is bound across them none can tell. For each
session the world is compared with one in which it is alone: its own objects match those of the
session in the common store, and all other objects there belong to other sessions.

`Apart` is that invariant. A command to one session extends the matching of that session and
leaves the other ones as they are, since evaluation keeps what is foreign.

## Results

* `Apart.perform`: one command.
* `Apart.run`: a whole script.
* `sessions_are_isolated`: every session answers as if it were alone.
-/

namespace MiniScheme

/-! ## What a host is shown -/

/-- The results are equal up to the matching. -/
inductive Matching.Results (ρ : Matching) : Except Error Node → Except Error Node → Prop
  | ok {v v' : Node} (hv : ρ.Nodes v v') : Results ρ (.ok v) (.ok v')
  | read (e : ReadError) : Results ρ (.error (.read e)) (.error (.read e))
  | eval {x x' : EvalError} (hx : ρ.Errors x x') :
      Results ρ (.error (.eval x)) (.error (.eval x'))

namespace Matched

variable {ρ : Matching} {s t : Store} (h : Matched ρ s t) {r r' : Except Error Node}

include h

theorem seenAlike (hr : ρ.Results r r') : s.SeenAlike t r r' := by
  cases hr with
  | ok hv => exact .ok (h.shown hv)
  | read e => exact .read s t e
  | eval hx =>
    obtain ⟨hkind, hspan, hlabel⟩ := hx.agree
    exact .error rfl hkind (h.message hx) (congrArg some hspan) hlabel

end Matched

theorem Session.conclude_alike {e : Embedding} {r r' : EStateM.Result EvalError Machine Node}
    (h : ownRun.Alike e ownRun.value r r') :
    ∃ e', e ≤ e' ∧ Embeds e' (conclude r).2.store (conclude r').2.store ∧
      e'.same.Results (conclude r).1 (conclude r').1 := by
  cases r with
  | ok v m =>
    obtain ⟨v', m', e', rfl, hle, h', hv⟩ := h.of_ok fun _ => id
    exact ⟨e', hle, h', .ok hv⟩
  | error x m =>
    obtain hf | ⟨x', m', e', rfl, hle, h', hx⟩ := h.of_error fun _ => id
    · exact hf.elim
    · exact ⟨e', hle, h', .eval hx⟩

/-- **One source**, evaluated by a session alone and by the same session among others. -/
theorem Session.evaluate_alike {e : Embedding} {m m' : Machine} {own session : Session}
    {held held' : List Ref} (h : Embeds e m.store m'.store) (hh : Embeds.Held e held held')
    (hf : e.same (.frame own.global) (.frame session.global)) (hlimit : own.limit = session.limit)
    (source : String) :
    ∃ e', e ≤ e' ∧
      Embeds e' (own.evaluate held source m).2.store (session.evaluate held' source m').2.store ∧
      e'.same.Results (own.evaluate held source m).1 (session.evaluate held' source m').1 := by
  unfold Session.evaluate
  cases hparse : parse session.limit source with
  | error x =>
    rw [evaluateWith_of_error hparse, evaluateWith_of_error (hlimit ▸ hparse)]
    refine ⟨e, le_rfl, ?_, .read x⟩
    rw [Machine.store_note, Machine.store_note]
    exact h
  | ok d =>
    rw [evaluateWith_of_ok hparse, evaluateWith_of_ok (hlimit ▸ hparse), hlimit]
    obtain ⟨e₁, hle₁, h₁, hn⟩ := h.load d
    have hheld : Embeds.Held e₁ ((m.store.load d).1.refs ++ held)
        ((m'.store.load d).1.refs ++ held') := (hh.mono hle₁).append hn.value.refs
    have hmachine : ownRun.machine e₁ (m.reading source d) (m'.reading source d) := h₁
    obtain ⟨e₂, hle₂, h₂, hr⟩ := conclude_alike (ownRun.evaluators session.limit session.limit
      hmachine hheld (hle₁.1 _ _ hf) hn)
    exact ⟨e₂, hle₁.trans hle₂, h₂, hr⟩

/-! ## Worlds -/

/-- The world `alone i` is the session at index `i` of `w` on a store of its own: it matches into
the store of `w` by `ρ i`, and every object there belongs to exactly one session. -/
structure Apart (alone : Nat → World) (w : World) (ρ : Nat → Matching) : Prop where
  session : ∀ {i session}, w.sessions[i]? = some session → session.isOpen = true ∧
    ∃ own, (alone i).sessions = [own] ∧ own.isOpen = true ∧ own.limit = session.limit ∧
      ρ i (.frame own.global) (.frame session.global)
  matched : ∀ {i}, i < w.sessions.length → Matched (ρ i) (alone i).store w.store
  cover : ∀ {r'}, w.store.Has r' → ∃ i r, i < w.sessions.length ∧ ρ i r r'
  apart : ∀ {i j r q r'}, i < w.sessions.length → j < w.sessions.length → ρ i r r' → ρ j q r' →
    i = j
  settledLeft : ∀ {i}, i < w.sessions.length → (alone i).store.Settled
  settledRight : w.store.Settled

/-- A matching goes on as long as its objects in the larger store stay as they are. -/
theorem Matched.keep {ρ : Matching} {s t t' : Store} (h : Matched ρ s t)
    (hkeep : ∀ {r r'}, ρ r r' → t'.Has r' ∧ t.SameAt t' r') : Matched ρ s t' where
  has hr := ⟨(h.has hr).1, (hkeep hr).1⟩
  contents hr := (h.contents hr).congr (.refl s _) (hkeep hr).2
  unique := h.unique
  total := h.total

namespace Apart

variable {alone : Nat → World} {w : World} {ρ : Nat → Matching} {i : Nat}

/-- The session at index `i` in the world. -/
def embedding (w : World) (ρ : Nat → Matching) (i : Nat) : Embedding :=
  ⟨ρ i, fun r' => ∃ j r, j < w.sessions.length ∧ j ≠ i ∧ ρ j r r', w.store, fun _ => False⟩

theorem embeds (h : Apart alone w ρ) (hi : i < w.sessions.length) :
    Embeds (embedding w ρ i) (alone i).store w.store where
  toMatched := h.matched hi
  cover {r'} hr' := by
    obtain ⟨j, r, hj, hr⟩ := h.cover hr'
    by_cases hji : j = i
    · subst hji
      exact .inl ⟨r, hr⟩
    · exact .inr ⟨j, r, hj, hji, hr⟩
  apart := by
    rintro r r' hr ⟨j, q, hj, hji, hq⟩
    exact hji (h.apart hj hi hq hr)
  kept := by
    rintro r' ⟨j, q, hj, -, hq⟩
    exact ⟨((h.matched hj).has hq).2, .refl _ _⟩
  isolated := by
    rintro r' q' ⟨j, r, hj, hji, hr⟩ hq'
    obtain ⟨q, -, hq⟩ := (Embeds.forall_of_rel ((h.matched hj).contents hr).references).2 q' hq'
    exact .inl ⟨j, q, hj, hji, hq⟩
  inside := False.elim
  settledLeft := h.settledLeft hi
  settledRight := h.settledRight

theorem roots_alone {w : World} {own : Session} (hs : w.sessions = [own])
    (ho : own.isOpen = true) : w.roots = [.frame own.global] := by
  unfold World.roots
  simp [hs, ho]

/-- The global frames of other sessions are foreign. -/
theorem held (h : Apart alone w ρ) {session : Session} (hi : w.sessions[i]? = some session) :
    Embeds.Held (embedding w ρ i) (alone i).roots w.roots := by
  obtain ⟨hopen, own, hs, ho, -, hglobal⟩ := h.session hi
  rw [roots_alone hs ho]
  constructor
  · intro r hr
    obtain rfl := List.mem_singleton.1 hr
    exact ⟨_, hglobal, .inl (World.mem_roots.2 ⟨i, session, hi, hopen, rfl⟩)⟩
  · intro r' hr'
    obtain ⟨j, other, hj, -, rfl⟩ := World.mem_roots.1 hr'
    by_cases hji : j = i
    · subst hji
      cases hi.symm.trans hj
      exact .inl ⟨_, List.mem_singleton.2 rfl, hglobal⟩
    · obtain ⟨-, own', -, -, -, hother⟩ := h.session hj
      exact .inr ⟨j, _, (List.getElem?_eq_some_iff.1 hj).1, hji, hother⟩
  · exact fun _ => False.elim

/-- **A step of one session** that stays inside keeps all sessions apart. -/
theorem step (h : Apart alone w ρ) (hi : i < w.sessions.length) {e : Embedding} {a w' : World}
    (hle : embedding w ρ i ≤ e) (he : Embeds e a.store w'.store)
    (ha : a.sessions = (alone i).sessions) (hw : w'.sessions = w.sessions) :
    Apart (Function.update alone i a) w' (Function.update ρ i e.same) := by
  have hforeign {j : Nat} {r r' : Ref} (hj : j < w.sessions.length) (hji : j ≠ i)
      (hr : ρ j r r') : e.foreign r' := by
    rw [hle.2.1]
    exact ⟨j, r, hj, hji, hr⟩
  have hkept {j : Nat} {r r' : Ref} (hj : j < w.sessions.length) (hji : j ≠ i)
      (hr : ρ j r r') : w'.store.Has r' ∧ w.store.SameAt w'.store r' := by
    have hk := he.kept (hforeign hj hji hr)
    rwa [hle.2.2.1] at hk
  refine ⟨?_, ?_, ?_, ?_, ?_, he.settledRight⟩
  · intro j session hj
    rw [hw] at hj
    by_cases hji : j = i
    · subst hji
      obtain ⟨hopen, own, hs, ho, hlimit, hglobal⟩ := h.session hj
      rw [Function.update_self, Function.update_self, ha]
      exact ⟨hopen, own, hs, ho, hlimit, hle.1 _ _ hglobal⟩
    · rw [Function.update_of_ne hji, Function.update_of_ne hji]
      exact h.session hj
  · intro j hj
    rw [hw] at hj
    by_cases hji : j = i
    · subst hji
      rw [Function.update_self, Function.update_self]
      exact he.toMatched
    · rw [Function.update_of_ne hji, Function.update_of_ne hji]
      exact (h.matched hj).keep (hkept hj hji)
  · intro r' hr'
    rw [hw]
    rcases he.cover hr' with ⟨r, hr⟩ | hf
    · exact ⟨i, r, hi, by rwa [Function.update_self]⟩
    · rw [hle.2.1] at hf
      obtain ⟨j, r, hj, hji, hr⟩ := hf
      exact ⟨j, r, hj, by rwa [Function.update_of_ne hji]⟩
  · intro j k r q r' hj hk hr hq
    rw [hw] at hj hk
    by_cases hji : j = i
    · by_cases hki : k = i
      · rw [hji, hki]
      · rw [hji, Function.update_self] at hr
        rw [Function.update_of_ne hki] at hq
        exact absurd (hforeign hk hki hq) (he.apart hr)
    · by_cases hki : k = i
      · rw [hki, Function.update_self] at hq
        rw [Function.update_of_ne hji] at hr
        exact absurd (hforeign hj hji hr) (he.apart hq)
      · rw [Function.update_of_ne hji] at hr
        rw [Function.update_of_ne hki] at hq
        exact h.apart hj hk hr hq
  · intro j hj
    rw [hw] at hj
    by_cases hji : j = i
    · rw [hji, Function.update_self]
      exact he.settledLeft
    · rw [Function.update_of_ne hji]
      exact h.settledLeft hj

/-! ## Commands -/

theorem evaluate (h : Apart alone w ρ) {session : Session} (hi : w.sessions[i]? = some session)
    {own : Session} (hs : (alone i).sessions = [own]) (source : String) :
    ∃ e, embedding w ρ i ≤ e ∧
      Embeds e ((alone i).evaluate own source).2.store (w.evaluate session source).2.store ∧
      e.same.Results ((alone i).evaluate own source).1 (w.evaluate session source).1 := by
  obtain ⟨-, own', hs', -, hlimit, hglobal⟩ := h.session hi
  cases hs.symm.trans hs'
  have hlt := (List.getElem?_eq_some_iff.1 hi).1
  exact Session.evaluate_alike (h.embeds hlt) (h.held hi) hglobal hlimit source

theorem lookup_alike (h : Apart alone w ρ) {session : Session}
    (hi : w.sessions[i]? = some session) {own : Session} (hs : (alone i).sessions = [own])
    (name : String) (span : Span) :
    (ρ i).Results ((alone i).lookup own name span) (w.lookup session name span) := by
  obtain ⟨-, own', hs', -, -, hglobal⟩ := h.session hi
  cases hs.symm.trans hs'
  have hl := (h.matched (List.getElem?_eq_some_iff.1 hi).1).lookup? hglobal name
  unfold World.lookup
  revert hl
  generalize (alone i).store.lookup? own.global name = o
  generalize w.store.lookup? session.global name = o'
  rintro (⟨hv⟩ | _)
  · exact .ok hv
  · exact .eval (.plain rfl)

/-- **One command.** It is answered as if the session were alone, and the sessions stay apart. -/
theorem perform (h : Apart alone w ρ) (hi : i < w.sessions.length) {c : Command}
    (hc : c.isOwn = true) :
    (w.perform (i, c)).1 = ((alone i).perform (0, c)).1 ∧
      (w.perform (i, c)).2.sessions = w.sessions ∧
      ∃ ρ', Apart (Function.update alone i ((alone i).perform (0, c)).2)
        (w.perform (i, c)).2 ρ' := by
  have hsome := List.getElem?_eq_getElem hi
  obtain ⟨hopen, own, hs, ho, hlimit, hglobal⟩ := h.session hsome
  have hask : w.session? i = some w.sessions[i] := World.session?_eq_some.2 ⟨hsome, hopen⟩
  have hown : (alone i).session? 0 = some own :=
    World.session?_eq_some.2 ⟨by rw [hs]; rfl, ho⟩
  have hm := h.matched hi
  have hsame : Apart (Function.update alone i (alone i)) w ρ := by
    rwa [Function.update_eq_self]
  -- the commands that evaluate a source differ in what the host is shown of the result
  have hevaluated {source : String} {a w' : World}
      (ha : a.sessions = (alone i).sessions ∧
        a.store = ((alone i).evaluate own source).2.store)
      (hw : w'.sessions = w.sessions ∧ w'.store = (w.evaluate w.sessions[i] source).2.store) :
      ∃ ρ', Apart (Function.update alone i a) w' ρ' := by
    obtain ⟨e, hle, he, -⟩ := h.evaluate hsome hs source
    exact ⟨_, h.step hi hle (by rwa [ha.2, hw.2]) ha.1 hw.1⟩
  cases c with
  | run source =>
    obtain ⟨e, -, he, hr⟩ := h.evaluate hsome hs source
    rw [World.perform_run hask, World.perform_run hown]
    refine ⟨?_, (World.runLine_effect w _ source).1,
      hevaluated ((alone i).runLine_effect own source) (w.runLine_effect _ source)⟩
    rw [World.runLine_eq, World.runLine_eq, (he.seenAlike hr).answer_eq]
  | eval source =>
    obtain ⟨e, -, he, hr⟩ := h.evaluate hsome hs source
    rw [World.perform_eval hask, World.perform_eval hown]
    exact ⟨by rw [(he.seenAlike hr).outcome_eq], rfl, hevaluated ⟨rfl, rfl⟩ ⟨rfl, rfl⟩⟩
  | render source text =>
    obtain ⟨e, -, he, hr⟩ := h.evaluate hsome hs source
    rw [World.perform_render hask, World.perform_render hown]
    exact ⟨by rw [(he.seenAlike hr).rendering_eq text], rfl, hevaluated ⟨rfl, rfl⟩ ⟨rfl, rfl⟩⟩
  | contains name =>
    rw [World.perform_contains hask, World.perform_contains hown]
    exact ⟨by rw [hm.contains_eq hglobal], rfl, ρ, hsame⟩
  | get name span =>
    rw [World.perform_get hask, World.perform_get hown]
    have hseen := hm.seenAlike (h.lookup_alike hsome hs name span)
    exact ⟨by rw [hseen.outcome_eq], rfl, ρ, hsame⟩
  | limit =>
    rw [World.perform_limit hask, World.perform_limit hown]
    exact ⟨by rw [hlimit], rfl, ρ, hsame⟩
  | globals =>
    rw [World.perform_globals hask, World.perform_globals hown]
    exact ⟨by rw [hm.frameText hglobal], rfl, ρ, hsame⟩
  | define name spec => cases hc
  | share name target => cases hc
  | close => cases hc

end Apart

/-! ## Scripts -/

/-- The commands of a script to one session, for a world in which it is alone. -/
def Script.own (i : Nat) (cs : Script) : Script :=
  cs.filterMap fun c => if c.1 = i then some (0, c.2) else none

/-- The answers to the commands of a script to one session. -/
def Script.answersTo (i : Nat) (cs : Script) (answers : List (Option Answer)) :
    List (Option Answer) :=
  (cs.zip answers).filterMap fun c => if c.1.1 = i then some c.2 else none

/-- **A whole script.** -/
theorem Apart.run {alone : Nat → World} {w : World} {ρ : Nat → Matching} {cs : Script}
    (h : Apart alone w ρ) (hcs : ∀ c ∈ cs, c.2.isOwn = true) {i : Nat}
    (hi : i < w.sessions.length) :
    Script.answersTo i cs (w.run cs).1 = ((alone i).run (Script.own i cs)).1 := by
  induction cs generalizing alone w ρ with
  | nil => rfl
  | cons c cs ih =>
    obtain ⟨j, c⟩ := c
    obtain ⟨hc, hrest⟩ := List.forall_mem_cons.1 hcs
    simp only [World.run, Script.answersTo, Script.own, List.zip_cons_cons, List.filterMap_cons]
    by_cases hj : j < w.sessions.length
    · obtain ⟨hanswer, hsessions, ρ', hnext⟩ := h.perform hj hc
      have hothers := ih hnext hrest (hsessions ▸ hi)
      by_cases hji : j = i
      · subst hji
        rw [Function.update_self] at hothers
        simp only [if_true, World.run, hanswer]
        exact congrArg _ hothers
      · rw [Function.update_of_ne (Ne.symm hji)] at hothers
        simp only [if_neg hji]
        exact hothers
    · have hji : j ≠ i := by
        rintro rfl
        exact hj hi
      have hnone := World.session?_of_length_le (Nat.le_of_not_lt hj)
      simp only [if_neg hji, World.perform_of_none hnone]
      exact ih h hrest hi

/-! ## Sessions on which nothing has run yet -/

/-- The one object of a session that was just opened. -/
def onlyFrame (f f' : FrameId) : Matching := fun r r' => r = .frame f ∧ r' = .frame f'

theorem primitives_entries (ρ : Matching) :
    List.Forall₂ ρ.Entries Store.primitiveBindings.entries Store.primitiveBindings.entries := by
  refine Matching.entries_insertAll (List.forall₂_same.2 fun e he => ?_) .nil
  obtain ⟨p, -, rfl⟩ := List.mem_map.1 he
  exact ⟨rfl, .primitive p, rfl⟩

theorem matched_newPopulated (t : Store) :
    Matched (onlyFrame ⟨0⟩ t.newPopulated.1) Store.empty.newPopulated.2 t.newPopulated.2 where
  has := by
    rintro r r' ⟨rfl, rfl⟩
    exact ⟨Nat.zero_lt_one, ((t.adds_newFrame _ _).has _).2 (.inr rfl)⟩
  contents := by
    rintro r r' ⟨rfl, rfl⟩
    unfold Store.newPopulated
    have hfirst : (⟨0⟩ : FrameId) = (Store.empty.newFrame none Store.primitiveBindings).1 := rfl
    rw [Matching.contents_frame, Store.frame_newFrame, Store.frame_newFrame, if_pos rfl,
      if_pos hfirst]
    exact ⟨⟨.none, primitives_entries _⟩, nofun, nofun⟩
  unique := by
    rintro r r' q q' ⟨rfl, rfl⟩ ⟨rfl, rfl⟩
    exact ⟨fun _ => rfl, fun _ => rfl⟩
  total := by
    intro r hr
    rcases ((Store.empty.adds_newFrame _ _).has r).1 hr with hold | rfl
    · cases r <;> exact absurd hold (Nat.not_lt_zero _)
    · exact ⟨_, rfl, rfl⟩

theorem settled_empty : Store.empty.Settled := by
  intro o k ho
  cases o <;> exact absurd ho (Nat.not_lt_zero _)

/-- One more session stays apart from those that are there. -/
theorem Apart.openSession {alone : Nat → World} {w : World} {ρ : Nat → Matching}
    (h : Apart alone w ρ) (recording : Bool) (limit : Nat) :
    Apart (Function.update alone w.sessions.length (World.ofLimits recording [limit]))
      (w.openSession limit)
      (Function.update ρ w.sessions.length (onlyFrame ⟨0⟩ w.store.newPopulated.1)) := by
  have hadds : w.store.Adds (w.openSession limit).store (.frame w.store.newPopulated.1) :=
    w.store.adds_newFrame none Store.primitiveBindings
  have hlength : (w.openSession limit).sessions.length = w.sessions.length + 1 := by
    simp [World.openSession]
  have hold {j : Nat} (hj : j < w.sessions.length) : j ≠ w.sessions.length := Nat.ne_of_lt hj
  have hcases {j : Nat} (hj : j < (w.openSession limit).sessions.length) :
      j < w.sessions.length ∨ j = w.sessions.length := by omega
  have hnew {j : Nat} {r r' : Ref} (hj : j < w.sessions.length) (hr : ρ j r r') :
      r' ≠ .frame w.store.newPopulated.1 := by
    rintro rfl
    exact hadds.new ((h.matched hj).has hr).2
  refine ⟨?_, ?_, ?_, ?_, ?_, hadds.settled_of h.settledRight⟩
  · intro j session hj
    rcases hcases (List.getElem?_eq_some_iff.1 hj).1 with hlt | rfl
    · rw [Function.update_of_ne (hold hlt), Function.update_of_ne (hold hlt)]
      refine h.session ?_
      rwa [World.openSession, List.getElem?_append_left hlt] at hj
    · rw [Function.update_self, Function.update_self]
      simp only [World.openSession, List.getElem?_concat_length] at hj
      cases hj
      exact ⟨rfl, ⟨⟨0⟩, limit, true⟩, rfl, rfl, rfl, rfl, rfl⟩
  · intro j hj
    rcases hcases hj with hlt | rfl
    · rw [Function.update_of_ne (hold hlt), Function.update_of_ne (hold hlt)]
      refine (h.matched hlt).keep fun hr => ?_
      have hhas := ((h.matched hlt).has hr).2
      exact ⟨(hadds.has _).2 (.inl hhas), hadds.same _ hhas⟩
    · rw [Function.update_self, Function.update_self]
      exact matched_newPopulated w.store
  · intro r' hr'
    rw [hlength]
    rcases (hadds.has r').1 hr' with hhas | rfl
    · obtain ⟨j, r, hj, hr⟩ := h.cover hhas
      exact ⟨j, r, by omega, by rwa [Function.update_of_ne (hold hj)]⟩
    · refine ⟨w.sessions.length, .frame ⟨0⟩, by omega, ?_⟩
      rw [Function.update_self]
      exact ⟨rfl, rfl⟩
  · intro j k r q r' hj hk hr hq
    rcases hcases hj with hj | rfl <;> rcases hcases hk with hk | rfl
    · rw [Function.update_of_ne (hold hj)] at hr
      rw [Function.update_of_ne (hold hk)] at hq
      exact h.apart hj hk hr hq
    · rw [Function.update_of_ne (hold hj)] at hr
      rw [Function.update_self] at hq
      exact absurd hq.2 (hnew hj hr)
    · rw [Function.update_self] at hr
      rw [Function.update_of_ne (hold hk)] at hq
      exact absurd hr.2 (hnew hk hq)
    · rfl
  · intro j hj
    rcases hcases hj with hlt | rfl
    · rw [Function.update_of_ne (hold hlt)]
      exact h.settledLeft hlt
    · rw [Function.update_self]
      exact (Store.empty.adds_newFrame none Store.primitiveBindings).settled_of settled_empty

theorem apart_ofLimits (recording recording' : Bool) (limits : List Nat) :
    (World.ofLimits recording limits).sessions.length = limits.length ∧
      ∃ alone ρ, Apart alone (World.ofLimits recording limits) ρ ∧
        ∀ i limit, limits[i]? = some limit → alone i = World.ofLimits recording' [limit] := by
  induction limits using List.reverseRecOn with
  | nil =>
    refine ⟨rfl, fun _ => World.empty recording', fun _ _ _ => False, ?_, nofun⟩
    refine ⟨nofun, nofun, ?_, nofun, nofun, settled_empty⟩
    intro r' hr'
    cases r' <;> exact absurd hr' (Nat.not_lt_zero _)
  | append_singleton limits limit ih =>
    obtain ⟨hlength, alone, ρ, h, halone⟩ := ih
    have hopen : World.ofLimits recording (limits ++ [limit]) =
        (World.ofLimits recording limits).openSession limit := by
      simp [World.ofLimits]
    rw [hopen]
    refine ⟨by simp [World.openSession, hlength], _, _, h.openSession recording' limit, ?_⟩
    intro i l hl
    by_cases hi : i < limits.length
    · rw [Function.update_of_ne (by omega)]
      exact halone i l (by rwa [List.getElem?_append_left hi] at hl)
    · have hlt := (List.getElem?_eq_some_iff.1 hl).1
      rw [List.length_append, List.length_singleton] at hlt
      obtain rfl : i = limits.length := by omega
      rw [List.getElem?_concat_length] at hl
      cases hl
      rw [hlength, Function.update_self]

/-- **Sessions are isolated.** Take any number of sessions with any limits of nesting, and any
script of commands to them that binds no value of one session in another. The answers to the
commands of one session are those it gives to its own commands when it is alone, on a store of
its own. -/
theorem sessions_are_isolated (recording recording' : Bool) (limits : List Nat) (script : Script)
    (hown : ∀ c ∈ script, c.2.isOwn = true) {i limit : Nat} (hi : limits[i]? = some limit) :
    Script.answersTo i script ((World.ofLimits recording limits).run script).1 =
      ((World.ofLimits recording' [limit]).run (Script.own i script)).1 := by
  obtain ⟨hlength, alone, ρ, h, halone⟩ := apart_ofLimits recording recording' limits
  have hlt : i < (World.ofLimits recording limits).sessions.length := by
    rw [hlength]
    exact (List.getElem?_eq_some_iff.1 hi).1
  rw [h.run hown hlt, halone i limit hi]

/-- Two sessions that use one name for a ring of pairs and for a number. -/
theorem sessions_are_isolated_beside_namesake :
    let script : Script := [(0, .run "(define x (quote (1 2)))"), (1, .run "(define x 5)"),
      (0, .run "(set-cdr! x x)"), (1, .eval "(define f (lambda (y) (begin (set! x y) x)))"),
      (0, .run "x"), (1, .run "(f 8)"), (0, .globals), (1, .get "x" default), (0, .run "f"),
      (1, .get "f" default), (1, .contains "y"), (1, .globals)]
    (∀ c ∈ script, c.2.isOwn = true) ∧
      Script.answersTo 1 script ((World.ofLimits true [9, 7]).run script).1 =
        ((World.ofLimits false [7]).run (Script.own 1 script)).1 := by
  intro script
  have hown : ∀ c ∈ script, c.2.isOwn = true := by decide
  exact ⟨hown, sessions_are_isolated true false [9, 7] script hown rfl⟩

end MiniScheme
