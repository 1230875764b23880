import MiniScheme.Datum.Reader

/-!
# The reader as a walk with a stack

A recursive descent keeps the lists that it is inside of in its pending calls. `readWith` has them
in a stack instead and goes over the tokens once: a parenthesis opens a list unless that would nest
deeper than the limit, a closing one ends the innermost list and makes it an item of the list around
it. What can be said of the tokens at one moment of the walk is said of the stack.

## Results

* `readExpr_eq`, `readItems_eq`: a call of the reader, from any stack of lists around it.
* `readDatum_eq`: the two readers agree.
-/

namespace MiniScheme

/-- A list that has been opened and not closed: the range of its parenthesis and its items so
far, the newest first. -/
structure OpenList where
  span : Span
  items : List Datum

namespace OpenList

/-- One more item. -/
def add (o : OpenList) (d : Datum) : OpenList := { o with items := d :: o.items }

/-- The list, ended by a parenthesis at `stop`. -/
def close (o : OpenList) (stop : Span) : Datum := .list o.items.reverse (o.span.merge stop)

end OpenList

/-- Reads on until a datum is complete with no list open. The answer comes with the tokens that
were not consumed. -/
def readWith (limit : Nat) : List OpenList → List Token → Except ReadError Datum × List Token
  | [], [] => (.error (.endOfInput .expression), [])
  | _ :: _, [] => (.error (.endOfInput .closing), [])
  | stack, t :: ts =>
    match t.kind, stack with
    | .opening, stack =>
      if stack.length < limit then readWith limit (⟨t.span, []⟩ :: stack) ts
      else (.error (.tooDeep limit t.span), ts)
    | .closing, [] => (.error (.unexpected t .start), ts)
    | .closing, [o] => (.ok (o.close t.span), ts)
    | .closing, o :: p :: stack => readWith limit (p.add (o.close t.span) :: stack) ts
    | .atom a, [] => (.ok (.atom a t.span), ts)
    | .atom a, o :: stack => readWith limit (o.add (.atom a t.span) :: stack) ts

namespace Datum

/-- What the reader does with a datum that is complete: it is the answer, or the next item of the
innermost open list. -/
def deliver (limit : Nat) (d : Datum) :
    List OpenList → List Token → Except ReadError Datum × List Token
  | [], ts => (.ok d, ts)
  | o :: stack, ts => readWith limit (o.add d :: stack) ts

theorem readWith_atom (limit : Nat) (stack : List OpenList) (a : Atom) (span : Span)
    (ts : List Token) :
    readWith limit stack (⟨.atom a, span⟩ :: ts) = deliver limit (.atom a span) stack ts := by
  cases stack with
  | nil => rfl
  | cons o stack => rfl

theorem readWith_closing (limit : Nat) (o : OpenList) (stack : List OpenList) (span : Span)
    (ts : List Token) :
    readWith limit (o :: stack) (⟨.closing, span⟩ :: ts) =
      deliver limit (o.close span) stack ts := by
  cases stack with
  | nil => rfl
  | cons p stack => rfl

end Datum

/-! ## The two readers -/

/-- How the walk goes on after a call of the reader: with the datum, or not at all. -/
def resume (limit : Nat) (stack : List OpenList) :
    Except ReadError Datum × List Token → Except ReadError Datum × List Token
  | (.ok d, ts) => d.deliver limit stack ts
  | (.error e, ts) => (.error e, ts)

mutual

/-- **A call of the reader** for an expression inside the lists of the stack. A closing parenthesis
starts an expression only where no list is open. -/
theorem readExpr_eq (limit : Nat) (stack : List OpenList) (t : Token) (ts : List Token)
    (ht : t.kind = .closing → stack = []) :
    readWith limit stack (t :: ts) =
      resume limit stack (readExpr limit stack.length t ts).1 := by
  obtain ⟨kind, span⟩ := t
  cases kind with
  | opening =>
    rw [readExpr]
    exact readList_eq limit stack span ts
  | closing =>
    obtain rfl := ht rfl
    rw [readExpr]
    rfl
  | atom a =>
    rw [readExpr, Datum.readWith_atom]
    rfl
termination_by 3 * ts.length + 2

/-- A call for a list after its parenthesis. -/
theorem readList_eq (limit : Nat) (stack : List OpenList) (opened : Span) (ts : List Token) :
    readWith limit stack (⟨.opening, opened⟩ :: ts) =
      resume limit stack (readList limit (stack.length + 1) opened ts).1 := by
  rw [readList]
  by_cases hroom : stack.length < limit
  · rw [if_neg (by omega)]
    simp only [readWith, if_pos hroom]
    exact readItems_eq limit stack opened [] ts
  · rw [if_pos (by omega)]
    simp only [readWith, if_neg hroom]
    rfl
termination_by 3 * ts.length + 1

/-- **A call for the rest of a list**, the innermost of those that are open. -/
theorem readItems_eq (limit : Nat) (stack : List OpenList) (opened : Span) (items : List Datum)
    (ts : List Token) :
    readWith limit (⟨opened, items⟩ :: stack) ts =
      resume limit stack (readItems limit (stack.length + 1) opened items ts).1 := by
  cases ts with
  | nil =>
    rw [readItems]
    rfl
  | cons t ts =>
    rw [readItems]
    split
    · rename_i hclosing
      obtain ⟨kind, span⟩ := t
      obtain rfl : kind = .closing := hclosing
      exact Datum.readWith_closing limit ⟨opened, items⟩ stack span ts
    · rename_i hother
      have hfirst := readExpr_eq limit (⟨opened, items⟩ :: stack) t ts fun h => absurd h hother
      rw [List.length_cons] at hfirst
      rw [hfirst]
      split
      · rename_i d rest h hread
        have _ : rest.length ≤ ts.length := h
        rw [hread]
        exact readItems_eq limit stack opened (d :: items) rest
      · rename_i e rest hrest hread
        rw [hread]
        rfl
termination_by 3 * ts.length

end

/-- **The two readers agree.** -/
theorem readDatum_eq (limit : Nat) (ts : List Token) :
    readDatum limit ts = readWith limit [] ts := by
  cases ts with
  | nil => rfl
  | cons t ts =>
    rw [readExpr_eq limit [] t ts fun _ => rfl, readDatum]
    rcases (readExpr limit ([] : List OpenList).length t ts).1 with ⟨d | e, rest⟩ <;> rfl

end MiniScheme
