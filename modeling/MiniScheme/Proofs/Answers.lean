import MiniScheme.Proofs.Rereading
import MiniScheme.Proofs.Symbols
import MiniScheme.Proofs.Unfolding

/-!
# What the answer to a source tells

The one-line answer to a source is the printed value, or the kind of the error, a colon, a space
and the message. A host that sees only the line can tell which of the two it is. Most values give
themselves away by their first character. A symbol is printed as its bare name, which may well be
`TypeError:`, but it has no space in it, since the reader ends a symbol there and evaluation makes
no new ones.

## Results

* `World.unspaced_run`: no symbol of a store has a space in its name.
* `answers_tell_failures`: an answer starts with a kind of error if and only if there was one.
-/

namespace MiniScheme

/-! ## Symbols without spaces -/

namespace World

variable {w : World}

/-- **One source**: the store and the value, if there is one. -/
theorem unspaced_evaluate (h : w.store.Avoids ' ') (session : Session) (source : String) :
    (w.evaluate session source).2.store.Avoids ' ' ∧
      ∀ v, (w.evaluate session source).1 = .ok v → v.Avoids ' ' := by
  obtain ⟨hstore, hvalue, -⟩ := avoids_evaluate (by decide) h session source fun _ => by decide
  exact ⟨hstore, hvalue⟩

/-- **One command** of a text-driven host. -/
theorem unspaced_perform (h : w.store.Avoids ' ') {c : Nat × Command}
    (hc : c.2.isTextual = true) : (w.perform c).2.store.Avoids ' ' := by
  obtain ⟨i, c⟩ := c
  have heffect := w.perform_effect i hc
  generalize (w.perform (i, c)).2 = w' at heffect ⊢
  cases heffect with
  | none => exact h
  | @evaluated _ session source _ _ _ _ hstore =>
    rw [hstore]
    exact (unspaced_evaluate h session source).1
  | shared _ _ hl => exact h.bind _ _ (h.lookup (lookup?_of_lookup hl))
  | closed => exact h.release _ _

/-- **A whole script** of a text-driven host. -/
theorem unspaced_run (recording : Bool) (limits : List Nat) {history : Script}
    (htext : ∀ c ∈ history, c.2.isTextual = true) :
    ((ofLimits recording limits).run history).2.store.Avoids ' ' := by
  exact run_induction (P := fun w => w.store.Avoids ' ') (avoids_ofLimits recording limits)
    fun w c hc h => unspaced_perform h (htext c hc)

end World

/-! ## Printed values -/

/-- The line starts with one of the kinds of errors, a colon and a space. -/
def StartsAsError (line : String) : Prop :=
  ∃ kind : ErrorKind, (kind.text ++ ": ").toList <+: line.toList

/-- Such a line starts with a capital letter, and there is a space in it. -/
theorem StartsAsError.chars {line : String} (h : StartsAsError line) :
    ∃ c cs, line.toList = c :: cs ∧ c.isUpper = true ∧ ' ' ∈ line.toList := by
  obtain ⟨kind, rest, hrest⟩ := h
  rw [← hrest]
  cases kind <;> exact ⟨_, _, rfl, by decide, List.mem_append_left _ (by decide)⟩

theorem not_isUpper_of_isDigit {c : Char} (h : c.isDigit = true) : c.isUpper = false := by
  simp only [Char.isDigit, Bool.and_eq_true, decide_eq_true_eq] at h
  refine decide_eq_false ?_
  grind

theorem Store.chars_leaf (s : Store) {v : Value} (h : ∀ c, v ≠ .pair c) :
    s.chars v = s.leafChars v :=
  (Unfolds.leaf h).chars_eq

/-- **What a value starts with**, if it is no symbol: a parenthesis, a number sign, a minus or a
digit. -/
theorem Store.head_chars (s : Store) {v : Value} (h : v.symbol? = none) :
    ∃ c cs, s.chars v = c :: cs ∧ c.isUpper = false := by
  by_cases hpair : ∃ c, v = .pair c
  · obtain ⟨c, rfl⟩ := hpair
    obtain ⟨u, hu, -⟩ := s.exists_unfolds [] (.pair c)
    rw [hu.chars_eq]
    cases hu with
    | leaf hv => exact absurd rfl (hv c)
    | cycle hc => cases hc
    | pair => exact ⟨_, _, rfl, by decide⟩
  rw [s.chars_leaf fun c hc => hpair ⟨c, hc⟩]
  match v with
  | .atom (.symbol name) => cases h
  | .pair c => exact (hpair ⟨c, rfl⟩).elim
  | .atom (.integer n) =>
    obtain ⟨c, cs, hcs⟩ := List.exists_cons_of_ne_nil (Atom.readable_integer n).ne_nil
    have hc : c ∈ Decimal.write n.toInt := by
      rw [show Decimal.write n.toInt = c :: cs from hcs]
      exact List.mem_cons_self
    refine ⟨c, cs, hcs, ?_⟩
    rcases Decimal.mem_write hc with rfl | hc
    · decide
    · exact not_isUpper_of_isDigit hc
  | .procedure (.closure k) =>
    unfold leafChars procedureChars
    dsimp only
    cases (s.closure k).name with
    | none => exact ⟨_, _, rfl, by decide⟩
    | some name => exact ⟨_, _, rfl, by decide⟩
  | .atom (.boolean true) | .atom (.boolean false) | .nil | .procedure (.primitive _)
  | .unspecified => exact ⟨_, _, rfl, by decide⟩

/-- **No printed value looks like an error.** -/
theorem Node.Avoids.not_startsAsError {n : Node} (h : n.Avoids ' ') (s : Store) :
    ¬StartsAsError (s.text n.value) := by
  intro herror
  obtain ⟨c, cs, hline, hupper, hspace⟩ := herror.chars
  rw [Store.text, String.toList_ofList] at hline hspace
  cases hsymbol : n.value.symbol? with
  | none =>
    obtain ⟨d, ds, hchars, hd⟩ := s.head_chars hsymbol
    rw [hchars] at hline
    cases hline
    rw [hd] at hupper
    cases hupper
  | some name =>
    have hchars : s.chars n.value = name.toList := by
      rw [Value.eq_of_symbol? hsymbol]
      exact s.chars_leaf fun _ => Value.noConfusion
    rw [hchars] at hspace
    exact h name hsymbol hspace

/-- **An answer tells whether there was an error.** Let the host run any texts in any sessions,
share values between them and close them, but make no values itself. Then the answer to the next
source starts with the name of a kind of error, a colon and a space if and only if its evaluation
fails. -/
theorem answers_tell_failures (recording : Bool) (limits : List Nat) (history : Script)
    (htext : ∀ c ∈ history, c.2.isTextual = true) (session : Session) (source : String) :
    let w := ((World.ofLimits recording limits).run history).2
    StartsAsError (w.runLine session source).1 ↔ ∃ e, (w.evaluate session source).1 = .error e := by
  intro w
  rw [World.runLine_eq]
  have hvalue := (World.unspaced_evaluate (World.unspaced_run recording limits htext) session
    source).2
  constructor
  · intro hstart
    cases hresult : (w.evaluate session source).1 with
    | error e => exact ⟨e, rfl⟩
    | ok v =>
      rw [hresult] at hstart
      exact ((hvalue v hresult).not_startsAsError _ hstart).elim
  · rintro ⟨e, he⟩
    rw [he]
    refine ⟨e.kind, (e.message (w.evaluate session source).2.store).toList, ?_⟩
    simp only [Store.answer, Error.line, String.toList_append]

/-- A symbol that is spelt like the start of an error, from a procedure of another session, and an
error of that kind. -/
theorem answers_tell_failures_beside_namesake :
    let history : Script := [(0, .run "(define f (lambda (x) (quote TypeError:)))"),
      (0, .share "f" 1), (0, .close)]
    let w := ((World.ofLimits false [9, 9]).run history).2
    let session : Session := ⟨⟨1⟩, 9, true⟩
    session ∈ w.sessions ∧
      ((w.runLine session "(f 1)").1 = "TypeError:" ∧
        ¬StartsAsError (w.runLine session "(f 1)").1) ∧
      StartsAsError (w.runLine session "(car (f 1))").1 := by
  intro history w session
  have htells := answers_tell_failures false [9, 9] history (by decide) session
  have hvalue : (w.evaluate session "(f 1)").1.isOk = true := by decide +kernel
  have herror : (w.evaluate session "(car (f 1))").1.isOk = false := by decide +kernel
  refine ⟨by decide +kernel, ⟨by decide +kernel, fun h => ?_⟩, (htells "(car (f 1))").2 ?_⟩
  · obtain ⟨e, he⟩ := (htells "(f 1)").1 h
    rw [show (w.evaluate session "(f 1)").1 = .error e from he] at hvalue
    cases hvalue
  · change ∃ e, (w.evaluate session "(car (f 1))").1 = .error e
    cases hresult : (w.evaluate session "(car (f 1))").1 with
    | error e => exact ⟨e, rfl⟩
    | ok v =>
      rw [hresult] at herror
      cases herror

end MiniScheme
