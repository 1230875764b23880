/-!
# Patterns of characters

Regular expressions over characters, in which the rules for tokens are written. A text is matched
character by character: what a pattern has left to match after a character is a pattern again, its
derivative.

* `Pattern.deriv` is what is left after one character.
* `Pattern.nullable` tells whether nothing has to be left.
-/

namespace MiniScheme

/-- A regular expression over characters. -/
inductive Pattern where
  /-- no text -/
  | never
  /-- the empty text -/
  | empty
  /-- one character of a class -/
  | char (p : Char → Bool)
  /-- one pattern and then another -/
  | seq (a b : Pattern)
  /-- one of two patterns -/
  | alt (a b : Pattern)
  /-- a pattern any number of times -/
  | star (a : Pattern)

namespace Pattern

/-- A pattern or nothing. -/
def opt (a : Pattern) : Pattern := alt a empty

/-- A pattern once or several times. -/
def plus (a : Pattern) : Pattern := seq a (star a)

/-- A fixed text. -/
def text : List Char → Pattern
  | [] => empty
  | c :: cs => seq (char (· == c)) (text cs)

/-- Whether the pattern matches the empty text. -/
def nullable : Pattern → Bool
  | never | char _ => false
  | empty | star _ => true
  | seq a b => a.nullable && b.nullable
  | alt a b => a.nullable || b.nullable

/-- One pattern and then another, without parts that add nothing. -/
def followedBy : Pattern → Pattern → Pattern
  | never, _ => never
  | empty, b => b
  | a, b => seq a b

/-- One of two patterns, without parts that add nothing. -/
def orElse : Pattern → Pattern → Pattern
  | never, b => b
  | a, never => a
  | a, b => alt a b

/-- What the pattern has left to match after a character. -/
def deriv (c : Char) : Pattern → Pattern
  | never | empty => never
  | char p => if p c then empty else never
  | seq a b =>
    if a.nullable then orElse (followedBy (a.deriv c) b) (b.deriv c)
    else followedBy (a.deriv c) b
  | alt a b => orElse (a.deriv c) (b.deriv c)
  | star a => followedBy (a.deriv c) (star a)

/-- Whether the pattern is the one that matches no text. -/
def isNever : Pattern → Bool
  | never => true
  | _ => false

end Pattern

end MiniScheme
