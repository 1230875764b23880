import MiniScheme.Text.Decimal

/-!
# Atoms

The indivisible expressions: integers, booleans and symbols. Tokens, data and values share them,
and they share one written form. They are the cases `Integer`, `Boolean` and `Symbol` of
`TokenKind`, and `Number`, `Boolean` and `Symbol` of `Sexpr`.
-/

namespace MiniScheme

/-- An integer of 64 bits, a boolean or a symbol. -/
inductive Atom where
  | integer (n : Int64)
  | boolean (b : Bool)
  | symbol (name : String)
deriving DecidableEq, Repr

namespace Atom

/-- The written form. -/
def chars : Atom → List Char
  | integer n => Decimal.write n.toInt
  | boolean true => ['#', 't']
  | boolean false => ['#', 'f']
  | symbol name => name.toList

/-- The name of the atom's type. -/
def typeName : Atom → String
  | integer _ => "integer"
  | boolean _ => "boolean"
  | symbol _ => "symbol"

end Atom

end MiniScheme
