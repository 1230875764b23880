import MiniScheme.Datum
import MiniScheme.Token.Lexer

/-!
# From tokens to data

The reader is a recursive descent over the tokens. An opening parenthesis starts a list, whose
items are gathered one after the other; only nesting recurses, and it is counted on the way down.
A failure ends all the reads it happened in. Each read hands back the tokens it has not consumed,
and there are never more of them than before, which is why it ends.

* `readExpr` (`parse_expr_with_token`) reads the expression that starts with a given token, with
  `readAtom` (`parse_atom`), `readList` and `readItems` (`parse_list` and its loop) for its two
  kinds.
* `readDatum` (`parse_expr`) reads one datum; a failed read has consumed the tokens up to and
  including the one it failed on.
* `readOnly` (`parse`) reads one datum and demands that nothing follows, `parse` does so for a text
  (`parse_str_with_max_depth`).
-/

namespace MiniScheme

/-- What the reader was looking for. -/
inductive Wanted where
  /-- any expression -/
  | expression
  /-- the start of an expression -/
  | start
  /-- an atom and nothing else -/
  | atom
  /-- the end of the innermost list -/
  | closing
  /-- nothing more -/
  | nothing
deriving DecidableEq, Repr

/-- The thing that was looked for, in words. -/
def Wanted.text : Wanted → String
  | expression => "an expression"
  | start => "an atom or '('"
  | atom => "an atom (symbol, integer, boolean)"
  | closing => "')'"
  | nothing => "end of input"

/-- The ways in which a text fails to be one expression. -/
inductive ReadError where
  | lexical (e : LexError)
  | unexpected (found : Token) (wanted : Wanted)
  | endOfInput (wanted : Wanted)
  | tooDeep (limit : Nat) (span : Span)
deriving DecidableEq, Repr

namespace ReadError

/-- Where the error is; an input that ends early has no place to point at. -/
def span? : ReadError → Option Span
  | lexical e => some e.span
  | unexpected t _ => some t.span
  | endOfInput _ => none
  | tooDeep _ s => some s

/-- What went wrong, in words. -/
def message : ReadError → String
  | lexical e => e.message
  | unexpected t w =>
    "unexpected token '" ++ t.kind.text ++ "' at " ++ t.span.text ++ ", expected " ++ w.text
  | endOfInput w => "unexpected end of input, expected " ++ w.text
  | tooDeep limit _ => "expression nested deeper than " ++ toString limit ++ " levels"

end ReadError

/-- The result of a read, and the tokens it has left of `ts`. -/
abbrev ReadOf (ts : List Token) :=
  { r : Except ReadError Datum × List Token // r.2.length ≤ ts.length }

/-- The datum that a token is by itself. -/
def readAtom (t : Token) : Except ReadError Datum :=
  match t.kind with
  | .atom a => .ok (.atom a t.span)
  | .opening | .closing => .error (.unexpected t .atom)

mutual

/-- Reads the expression that starts with `t`, inside `depth` lists. -/
def readExpr (limit depth : Nat) (t : Token) (ts : List Token) : ReadOf ts :=
  match t.kind with
  | .opening => readList limit (depth + 1) t.span ts
  | .closing => ⟨(.error (.unexpected t .start), ts), Nat.le_refl _⟩
  | .atom _ => ⟨(readAtom t, ts), Nat.le_refl _⟩
termination_by 3 * ts.length + 2

/-- Reads a list after its opening parenthesis, the innermost of `depth` lists. -/
def readList (limit depth : Nat) (opened : Span) (ts : List Token) : ReadOf ts :=
  if limit < depth then ⟨(.error (.tooDeep limit opened), ts), Nat.le_refl _⟩
  else readItems limit depth opened [] ts
termination_by 3 * ts.length + 1

/-- Reads the rest of a list, `items` being its items so far, the newest first. -/
def readItems (limit depth : Nat) (opened : Span) (items : List Datum) (ts : List Token) :
    ReadOf ts :=
  match ts with
  | [] => ⟨(.error (.endOfInput .closing), []), Nat.le_refl _⟩
  | t :: ts =>
    if t.kind = .closing then
      ⟨(.ok (.list items.reverse (opened.merge t.span)), ts), Nat.le_succ _⟩
    else
      match readExpr limit depth t ts with
      | ⟨(.ok d, rest), h⟩ =>
        have _ : rest.length ≤ ts.length := h
        let ⟨r, hr⟩ := readItems limit depth opened (d :: items) rest
        ⟨r, Nat.le_succ_of_le (Nat.le_trans hr h)⟩
      | ⟨(.error e, rest), h⟩ => ⟨(.error e, rest), Nat.le_succ_of_le h⟩
termination_by 3 * ts.length

end

/-- Reads one datum and gives the tokens that are left. -/
def readDatum (limit : Nat) : List Token → Except ReadError Datum × List Token
  | [] => (.error (.endOfInput .expression), [])
  | t :: ts => (readExpr limit 0 t ts).1

/-- Reads one datum that has to use up all tokens. -/
def readOnly (limit : Nat) (tokens : List Token) : Except ReadError Datum :=
  match readDatum limit tokens with
  | (.ok d, []) => .ok d
  | (.ok _, t :: _) => .error (.unexpected t .nothing)
  | (.error e, _) => .error e

/-- Reads up to `count` data one after the other, going on after failures, and gives the tokens
that are left. -/
def readMany (limit : Nat) : Nat → List Token → List (Except ReadError Datum) × List Token
  | 0, tokens => ([], tokens)
  | count + 1, tokens =>
    let (first, rest) := readDatum limit tokens
    let (others, left) := readMany limit count rest
    (first :: others, left)

/-- The one expression of a text, nested at most `limit` lists deep. -/
def parse (limit : Nat) (source : String) : Except ReadError Datum :=
  match tokenize source with
  | .error e => .error (.lexical e)
  | .ok tokens => readOnly limit tokens

end MiniScheme
