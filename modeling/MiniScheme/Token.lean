import MiniScheme.Atom
import MiniScheme.Span

/-!
# Tokens

A token is a parenthesis or an atom, with the range of text it was read from (`Token` and
`TokenKind`).
-/

namespace MiniScheme

/-- What a token is: parentheses carry the structure, everything else is an atom. -/
inductive TokenKind where
  | opening
  | closing
  | atom (a : Atom)
deriving DecidableEq, Repr

/-- A token and the range of text it was read from. -/
structure Token where
  kind : TokenKind
  span : Span
deriving DecidableEq, Repr

namespace TokenKind

/-- The printed form of a token; an integer is printed without redundant sign and zeros. -/
def text : TokenKind → String
  | opening => "("
  | closing => ")"
  | atom a => String.ofList a.chars

end TokenKind

end MiniScheme
