import Mathlib.Data.List.TakeWhile
import MiniScheme.Proofs.Rereading
import MiniScheme.Proofs.Symbols
import MiniScheme.Proofs.Unfolding
import MiniScheme.Proofs.Utf8
import MiniScheme.Session.Bytes

/-!
# The byte boundary

A host that runs programs as bytes gets what it would get from running them as texts. An answer ends
before its first zero byte, so this asks that no answer has one: no program can have one, names come
from programs, and everything else that is printed is fixed or made of digits.

## Results

* `Store.Avoids.nulFree_text`, `EvalError.nulFree_message`, `nulFree_of_parse_error`: what is
  printed.
* `World.nulFree_runLine`: one program.
* `byte_boundary_is_exact`: any sequence of calls.
-/

namespace MiniScheme

/-! ## Texts without a zero character -/

/-- The text has no zero character. -/
def NulFree (text : String) : Prop := '\x00' ∉ text.toList

instance (text : String) : Decidable (NulFree text) := inferInstanceAs (Decidable (_ ∉ _))

theorem NulFree.append {a b : String} (ha : NulFree a) (hb : NulFree b) : NulFree (a ++ b) := by
  simp only [NulFree, String.toList_append, List.mem_append, not_or]
  exact ⟨ha, hb⟩

theorem nulFree_ofList {cs : List Char} (h : '\x00' ∉ cs) : NulFree (String.ofList cs) := by
  rwa [NulFree, String.toList_ofList]

theorem nul_not_digit {c : Char} (h : c.isDigit = true) : c ≠ '\x00' := by
  rintro rfl
  cases h

theorem nulFree_repr (n : Nat) : NulFree n.repr := by
  intro hmem
  rw [Nat.repr, String.toList_ofList] at hmem
  exact nul_not_digit (Nat.isDigit_of_mem_toDigits (by decide) (by decide) hmem) rfl

theorem Span.nulFree_text (s : Span) : NulFree s.text := by
  have hdots : NulFree ".." := by decide
  exact ((nulFree_repr s.start).append hdots).append (nulFree_repr s.stop)

theorem ErrorKind.nulFree_text (kind : ErrorKind) : NulFree kind.text := by
  cases kind <;> decide

theorem Value.nulFree_typeName (v : Value) : NulFree v.typeName := by
  have hall : ∀ name ∈ ["integer", "boolean", "symbol", "nil", "pair", "procedure", "unspecified"],
      NulFree name := by decide
  refine hall _ ?_
  rcases v with (_ | _ | _) | _ | _ | _ | _ <;> simp [typeName, Atom.typeName]

theorem Primitive.nulFree_name (p : Primitive) : NulFree p.name := by
  have hall : ∀ p ∈ all, NulFree p.name := by decide
  exact hall p p.mem_all

/-! ## Values -/

section

variable {s : Store} {v : Value} {span : Span}

theorem Atom.nul_not_mem_chars {a : Atom} (h : Node.Avoids '\x00' ⟨.atom a, span⟩) :
    '\x00' ∉ a.chars := by
  intro hmem
  cases a with
  | integer n =>
    rcases Decimal.mem_write hmem with hminus | hdigit
    · exact absurd hminus (by decide)
    · exact nul_not_digit hdigit rfl
  | boolean b => cases b <;> exact absurd hmem (by decide)
  | symbol name => exact h name rfl hmem

namespace Store.Avoids

/-- Fixed texts, and the names of primitives and closures, have no zero character. -/
theorem nul_not_mem_procedureChars (hs : s.Avoids '\x00') (p : Procedure) :
    '\x00' ∉ s.procedureChars p := by
  have hclosing : '\x00' ∉ ['>'] := by decide
  cases p with
  | primitive p =>
    have hopening : '\x00' ∉ "#<primitive:".toList := by decide
    exact List.not_mem_append (List.not_mem_append hopening p.nulFree_name) hclosing
  | closure k =>
    unfold procedureChars
    dsimp only
    cases hk : (s.closure k).name with
    | none => decide
    | some name =>
      have hopening : '\x00' ∉ "#<procedure:".toList := by decide
      exact List.not_mem_append (List.not_mem_append hopening (hs.name hk)) hclosing

theorem nul_not_mem_leafChars (hs : s.Avoids '\x00') (hv : Node.Avoids '\x00' ⟨v, span⟩) :
    '\x00' ∉ s.leafChars v := by
  cases v with
  | atom a => exact Atom.nul_not_mem_chars hv
  | nil => exact (by decide : '\x00' ∉ ['(', ')'])
  | pair c => exact List.not_mem_nil
  | procedure p => exact hs.nul_not_mem_procedureChars p
  | unspecified => exact (by decide : '\x00' ∉ "#<unspecified>".toList)

/-- The text of an unfolding has no zero character. -/
theorem nul_not_mem_unfolding (hs : s.Avoids '\x00') {path : List CellId} {u : Unfolding}
    (hu : s.Unfolds path v u) (hv : Node.Avoids '\x00' ⟨v, default⟩) :
    '\x00' ∉ u.chars s ∧ '\x00' ∉ u.tailChars s := by
  induction hu with
  | @leaf path v _ =>
    have hleaf := hs.nul_not_mem_leafChars hv
    refine ⟨hleaf, ?_⟩
    cases v with
    | nil => exact (by decide : '\x00' ∉ [')'])
    | atom | pair | procedure | unspecified => simp [Unfolding.tailChars, hleaf]
  | cycle _ =>
    have hmark : '\x00' ∉ cycleMark := by decide
    exact ⟨hmark, by simp [Unfolding.tailChars, hmark]⟩
  | @pair path c _ _ _ _ _ ihcar ihcdr =>
    obtain ⟨hcar, -⟩ := ihcar (hs.cell c .car)
    obtain ⟨-, hcdr⟩ := ihcdr (hs.cell c .cdr)
    simp [Unfolding.chars, Unfolding.tailChars, hcar, hcdr]

/-- **A printed value** has no zero character. -/
theorem nulFree_text (hs : s.Avoids '\x00') (hv : Node.Avoids '\x00' ⟨v, span⟩) :
    NulFree (s.text v) := by
  obtain ⟨u, hu, -⟩ := s.exists_unfolds [] v
  rw [hu.text_eq]
  exact nulFree_ofList (hs.nul_not_mem_unfolding hu hv).1

end Store.Avoids

end

/-! ## Errors -/

theorem Arity.nulFree_text (a : Arity) : NulFree a.text := by
  have hcount (n : Nat) : NulFree (countText n) := by
    have hone : NulFree "1 argument" := by decide
    have hmany : NulFree " arguments" := by decide
    unfold countText
    split
    · exact hone
    · exact (nulFree_repr n).append hmany
  have hexactly : NulFree "exactly " := by decide
  have hleast : NulFree "at least " := by decide
  cases a with
  | exactly n => exact hexactly.append (hcount n)
  | atLeast n => exact hleast.append (hcount n)
  | parameters n => exact hcount n

theorem Expected.nulFree_text (x : Expected) : NulFree x.text := by
  cases x <;> decide

theorem Form.nulFree_keyword (form : Form) : NulFree form.keyword := by
  cases form <;> decide

theorem Wanted.nulFree_text (wanted : Wanted) : NulFree wanted.text := by
  cases wanted <;> decide

theorem Fault.nulFree_text {fault : Fault} {span : Span}
    (h : (EvalError.malformed fault span).Avoids '\x00') : NulFree fault.text := by
  have hquote : NulFree "'" := by decide
  cases fault with
  | duplicateParameter name =>
    have hduplicate : NulFree "duplicate parameter '" := by decide
    exact (hduplicate.append (h name List.mem_cons_self)).append hquote
  | duplicateBinding name =>
    have hduplicate : NulFree "duplicate binding '" := by decide
    exact (hduplicate.append (h name List.mem_cons_self)).append hquote
  | nameAndValue form => exact form.nulFree_keyword.append (by decide)
  | notASymbol form found =>
    have hexpects : NulFree " expects a symbol, but got " := by decide
    exact (form.nulFree_keyword.append hexpects).append found.nulFree_typeName
  | improperList | quoteOperands | conditionalOperands | lambdaOperands | parameterList
  | bindOperands | bindBody | bindingList | bindingShape | sequenceEmpty | clausesEmpty
  | clauseShape | misplacedElse => decide

/-- **The message of an evaluation** has no zero character. -/
theorem EvalError.nulFree_message {s : Store} {e : EvalError} (hs : s.Avoids '\x00')
    (he : e.Avoids '\x00') : NulFree (e.message s) := by
  have hquote : NulFree "'" := by decide
  have hgot : NulFree ", got " := by decide
  cases e with
  | unbound name span =>
    have hunbound : NulFree "unbound variable '" := by decide
    exact (hunbound.append (he name List.mem_cons_self)).append hquote
  | arity procedure expected actual span =>
    have hprocedure : NulFree "procedure '" := by decide
    have hexpects : NulFree "' expects " := by decide
    exact ((((hprocedure.append (he procedure List.mem_cons_self)).append hexpects).append
      expected.nulFree_text).append hgot).append (nulFree_repr actual)
  | mismatch operator expected found position span =>
    have hexpects : NulFree " expects " := by decide
    have hargument : NulFree " for argument " := by decide
    exact (((((operator.nulFree_name.append hexpects).append expected.nulFree_text).append
      hargument).append (nulFree_repr position)).append hgot).append found.nulFree_typeName
  | notAProcedure found span =>
    have hexpected : NulFree "expected a procedure, but got: " := by decide
    have hfound : Node.Avoids '\x00' ⟨found, span⟩ := fun name hname =>
      he name (Option.mem_toList.2 hname)
    exact hexpected.append (hs.nulFree_text hfound)
  | malformed fault span =>
    have hinvalid : NulFree "invalid special form: " := by decide
    exact hinvalid.append (Fault.nulFree_text he)
  | divisionByZero span => exact (by decide : NulFree "division by zero")
  | overflow operator span =>
    have hoverflow : NulFree "integer overflow in '" := by decide
    exact (hoverflow.append (Primitive.arithmetic operator).nulFree_name).append hquote
  | depthExceeded limit span =>
    have hdepth : NulFree "recursion depth limit of " := by decide
    exact (hdepth.append (nulFree_repr limit)).append (by decide)

/-- The errors that the reader has about tokens. -/
inductive ReadError.About (ts : List Token) : ReadError → Prop
  | unexpected {t : Token} (wanted : Wanted) (h : t ∈ ts) : About ts (.unexpected t wanted)
  | endOfInput (wanted : Wanted) : About ts (.endOfInput wanted)
  | tooDeep (limit : Nat) (span : Span) : About ts (.tooDeep limit span)

theorem ReadError.About.mono {ts us : List Token} {e : ReadError} (h : e.About ts)
    (hsub : ts ⊆ us) : e.About us := by
  cases h with
  | unexpected wanted ht => exact .unexpected wanted (hsub ht)
  | endOfInput wanted => exact .endOfInput wanted
  | tooDeep limit span => exact .tooDeep limit span

theorem about_of_readWith {limit : Nat} {stack : List OpenList} {ts rest : List Token}
    {e : ReadError} (h : readWith limit stack ts = (.error e, rest)) : e.About ts := by
  fun_induction readWith limit stack ts with
  | case1 | case2 =>
    cases h
    exact .endOfInput _
  | case4 =>
    cases h
    exact .tooDeep _ _
  | case5 =>
    cases h
    exact .unexpected _ List.mem_cons_self
  | case6 | case8 => cases h
  | case3 | case7 | case9 =>
    rename_i ih
    exact (ih h).mono (List.subset_cons_self _ _)

theorem about_of_readOnly {limit : Nat} {ts : List Token} {e : ReadError}
    (h : readOnly limit ts = .error e) : e.About ts := by
  unfold readOnly at h
  rw [readDatum_eq] at h
  split at h
  · cases h
  · rename_i d t rest hread
    cases h
    have hstart : Reading limit [] [] := rfl
    obtain ⟨used, rfl, -⟩ := spells_of_readWith hstart hread
    exact .unexpected _ (List.mem_append_right used List.mem_cons_self)
  · rename_i e rest hread
    cases h
    exact about_of_readWith hread

theorem Token.Avoids.nulFree_text {t : Token} (h : t.Avoids '\x00') : NulFree t.kind.text := by
  cases hkind : t.kind with
  | opening => decide
  | closing => decide
  | atom a =>
    have ha : Node.Avoids '\x00' ⟨.atom a, t.span⟩ := by
      intro name hname
      cases a with
      | symbol _ =>
        cases hname
        exact h _ hkind
      | integer | boolean => cases hname
    exact nulFree_ofList (Atom.nul_not_mem_chars ha)

/-- **The message of the reader** has no zero character if the text has none. -/
theorem nulFree_of_parse_error {limit : Nat} {source : String} {e : ReadError}
    (h : parse limit source = .error e) (hsource : NulFree source) : NulFree e.message := by
  have hfree : '\x00' ∈ source.toList → isAtomChar '\x00' = false := fun hmem => absurd hmem hsource
  unfold parse at h
  split at h
  · rename_i e' hlex
    cases h
    obtain ⟨before, run, after, ho, rfl, -⟩ := isFirstOversized_of_tokenize hlex
    have hrun : '\x00' ∉ run := fun hmem => hsource (by rw [ho.text]; simp [hmem])
    have hrange : NulFree "integer literal out of range: '" := by decide
    exact (hrange.append (nulFree_ofList hrun)).append (by decide)
  · rename_i ts hlex
    have hexpected : NulFree ", expected " := by decide
    cases about_of_readOnly h with
    | @unexpected t wanted hmem =>
      have ht := tokens_avoid hlex hfree t hmem
      have hunexpected : NulFree "unexpected token '" := by decide
      have hat : NulFree "' at " := by decide
      exact ((((hunexpected.append ht.nulFree_text).append hat).append t.span.nulFree_text).append
        hexpected).append wanted.nulFree_text
    | endOfInput wanted =>
      have hend : NulFree "unexpected end of input, expected " := by decide
      exact hend.append wanted.nulFree_text
    | tooDeep limit span =>
      have hnested : NulFree "expression nested deeper than " := by decide
      exact (hnested.append (nulFree_repr limit)).append (by decide)

/-! ## One program -/

namespace World

variable {w : World} {session : Session} {source : String}

/-- The reader's errors are those of the text. -/
theorem parse_of_evaluate {e : ReadError} (h : (w.evaluate session source).1 = .error (.read e)) :
    parse session.limit source = .error e := by
  cases hparse : parse session.limit source with
  | error e' =>
    rw [evaluate_of_error hparse] at h
    cases h
    rfl
  | ok d =>
    rw [evaluate_of_ok hparse] at h
    revert h
    generalize eval session.limit session.limit _ _ _ _ = r
    cases r <;> exact fun h => by cases h

/-- **One program** without a zero character has such an answer, and leaves such names. -/
theorem nulFree_runLine (h : w.store.Avoids '\x00') (session : Session) (hsource : NulFree source) :
    NulFree (w.runLine session source).1 ∧ (w.runLine session source).2.store.Avoids '\x00' := by
  obtain ⟨hstore, hvalue, herror⟩ := avoids_evaluate (by decide) h session source
    fun hmem => absurd hmem hsource
  refine ⟨?_, by rwa [(runLine_effect w session source).2]⟩
  rw [runLine_eq]
  cases hresult : (w.evaluate session source).1 with
  | ok v => exact hstore.nulFree_text (hvalue v hresult)
  | error e =>
    have hcolon : NulFree ": " := by decide
    refine (e.kind.nulFree_text.append hcolon).append ?_
    cases e with
    | read e => exact nulFree_of_parse_error (parse_of_evaluate hresult) hsource
    | eval e => exact EvalError.nulFree_message hstore (herror e hresult)

end World

/-! ## Bytes -/

theorem zero_not_mem_terminated (bytes : List UInt8) : 0 ∉ terminated bytes := by
  intro hmem
  have hne := List.mem_takeWhile_imp hmem
  simp at hne

/-- Nothing is cut off from bytes without a zero byte. -/
theorem terminated_eq {bytes : List UInt8} (h : 0 ∉ bytes) : terminated bytes = bytes := by
  refine List.takeWhile_eq_self_iff.2 fun b hb => ?_
  rw [bne_iff_ne]
  rintro rfl
  exact h hb

namespace Utf8

theorem Fault.nulFree_text (fault : Fault) : NulFree fault.text := by
  have hindex : NulFree " bytes from index " := by decide
  have hinvalid : NulFree "invalid utf-8 sequence of " := by decide
  have hincomplete : NulFree "incomplete utf-8 byte sequence from index " := by decide
  cases fault with
  | invalid length index =>
    exact ((hinvalid.append (nulFree_repr length)).append hindex).append (nulFree_repr index)
  | incomplete index => exact hincomplete.append (nulFree_repr index)

end Utf8

theorem nulFree_notText (fault : Utf8.Fault) : NulFree (notText fault) := by
  have hinput : NulFree ": input is not valid UTF-8 (" := by decide
  exact ((ErrorKind.malformed.nulFree_text.append hinput).append fault.nulFree_text).append
    (by decide)

/-- **There is an answer to every program**: nothing that the cut leaves is a zero byte. -/
theorem answerBytes_eq (text : String) :
    answerBytes text = some (terminated (Utf8.encode text.toList)) := by
  refine if_neg fun hzero => ?_
  exact zero_not_mem_terminated _ (List.contains_iff_mem.1 hzero)

/-- A text without a zero character comes out whole. -/
theorem answerBytes_of_nulFree {text : String} (h : NulFree text) :
    answerBytes text = some (Utf8.encode text.toList) := by
  rw [answerBytes_eq, terminated_eq (mt Utf8.zero_mem_encode.1 h)]

namespace World

variable {w : World}

/-- One call of the boundary: a session and the bytes of a program, either of which may be
missing. -/
abbrev Call := Option Session × Option (List UInt8)

/-- The world after several calls. -/
def afterCalls (w : World) (calls : List Call) : World :=
  calls.foldl (fun w call => (w.runBytes call.1 call.2).2) w

/-- **A program in bytes** is answered as the text that they encode. -/
theorem runBytes_encode (h : w.store.Avoids '\x00') (session : Session) {text : String}
    (htext : NulFree text) :
    w.runBytes (some session) (some (Utf8.encode text.toList)) =
      (some (Utf8.encode (w.runLine session text).1.toList), (w.runLine session text).2) := by
  have hanswer := (nulFree_runLine h session htext).1
  have hbytes := terminated_eq (mt Utf8.zero_mem_encode.1 htext)
  simp only [runBytes, hbytes, Utf8.decode_encode, String.ofList_toList,
    answerBytes_of_nulFree hanswer]

/-- Bytes that encode no text run nothing. -/
theorem runBytes_of_error (session : Session) {bytes : List UInt8} {fault : Utf8.Fault}
    (h : Utf8.decode (terminated bytes) = .error fault) :
    w.runBytes (some session) (some bytes) =
      (some (Utf8.encode (notText fault).toList), w) := by
  simp only [runBytes, h, answerBytes_of_nulFree (nulFree_notText fault)]

/-- **One call** brings no zero character in. -/
theorem avoids_runBytes (h : w.store.Avoids '\x00') (call : Call) :
    (w.runBytes call.1 call.2).2.store.Avoids '\x00' := by
  match call with
  | (none, _) | (some _, none) => exact h
  | (some session, some bytes) =>
    cases hdecode : Utf8.decode (terminated bytes) with
    | error fault =>
      rw [runBytes_of_error session hdecode]
      exact h
    | ok cs =>
      have hcs : NulFree (String.ofList cs) := by
        refine nulFree_ofList (mt Utf8.zero_mem_encode.2 ?_)
        rw [← Utf8.decode_eq_ok_iff.1 hdecode]
        exact zero_not_mem_terminated bytes
      have hrun := (nulFree_runLine h session hcs).2
      simpa only [runBytes, hdecode] using hrun

theorem avoids_afterCalls (h : w.store.Avoids '\x00') (calls : List Call) :
    (w.afterCalls calls).store.Avoids '\x00' := by
  induction calls generalizing w with
  | nil => exact h
  | cons call calls ih => exact ih (avoids_runBytes h call)

end World

/-- **The byte boundary is exact.** After any calls on sessions in which the host has bound nothing
itself, there is no answer if and only if the session or the program is missing. A program whose
bytes encode a text is answered with all bytes of the one-line answer to that text, and leaves the
same world behind. Any other bytes are answered with an error that names the length of their longest
part from the start that is a text, and run nothing. -/
theorem byte_boundary_is_exact (recording : Bool) (limits : List Nat) (calls : List World.Call) :
    let w := (World.ofLimits recording limits).afterCalls calls
    (∀ session program,
      (w.runBytes session program).1 = none ↔ session = none ∨ program = none) ∧
    (∀ (session : Session) (bytes : List UInt8) (text : String), 0 ∉ bytes →
      bytes = Utf8.encode text.toList →
      w.runBytes (some session) (some bytes) =
        (some (Utf8.encode (w.runLine session text).1.toList), (w.runLine session text).2)) ∧
    ∀ (session : Session) (bytes : List UInt8), 0 ∉ bytes →
      (∀ text : String, bytes ≠ Utf8.encode text.toList) →
      ∃ fault, w.runBytes (some session) (some bytes) =
          (some (Utf8.encode (notText fault).toList), w) ∧ Utf8.Explains bytes fault := by
  intro w
  have hw : w.store.Avoids '\x00' :=
    World.avoids_afterCalls (World.avoids_ofLimits recording limits) calls
  refine ⟨fun session program => ?_, fun session bytes text hzero hbytes => ?_,
    fun session bytes hzero hbytes => ?_⟩
  · match session, program with
    | none, _ | some _, none => simp [World.runBytes]
    | some session, some bytes =>
      simp only [World.runBytes, answerBytes_eq, reduceCtorEq, or_self, iff_false]
      split <;> exact nofun
  · subst hbytes
    exact World.runBytes_encode hw session (mt Utf8.zero_mem_encode.2 hzero)
  · cases hdecode : Utf8.decode bytes with
    | ok cs =>
      refine absurd (Utf8.decode_eq_ok_iff.1 hdecode) ?_
      simpa using hbytes (String.ofList cs)
    | error fault =>
      refine ⟨fault, World.runBytes_of_error session ?_, Utf8.explains_of_decode hdecode⟩
      rw [terminated_eq hzero, hdecode]

end MiniScheme
