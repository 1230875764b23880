import MiniScheme.Text.Blank
import MiniScheme.Token
import MiniScheme.Token.Pattern

/-!
# The rules for tokens

A table says which texts are tokens: a pattern for each class, what becomes of the matched text,
and a priority. At each place of a text the rule is taken that matches the longest text from there,
and of several rules that match it the one with the highest priority. The table is that of
`TokenKind`. How rules are taken is not part of it but an assumption about the lexer generator it
is written for, which `TokenRule.longest?` spells out.

* `tokenRules` is the table.
* `TokenRule.longest?` finds the rule to take and the length of its match.
-/

namespace MiniScheme

/-- Why the text at some place is no token. -/
inductive LexFault where
  /-- an integer literal outside 64 bits -/
  | integerOutOfRange (literal : String)
  /-- no rule matches -/
  | invalidToken
deriving DecidableEq, Repr

/-- What went wrong, in words. -/
def LexFault.message : LexFault → String
  | integerOutOfRange literal => "integer literal out of range: '" ++ literal ++ "'"
  | invalidToken => "invalid token"

/-- A rule for tokens. -/
structure TokenRule where
  pattern : Pattern
  /-- Of two rules that match the same text, the one with the higher priority is taken. -/
  priority : Nat
  /-- Whether the rule can be taken in front of a character, or of the end of the text. -/
  before : Option Char → Bool
  /-- The kind of token that the matched text is, or that it is skipped. -/
  kind : List Char → Except LexFault (Option TokenKind)

/-- A character that belongs to an atom. -/
def isAtomChar (c : Char) : Bool :=
  !isBlank c && c != '(' && c != ')'

namespace TokenRule

/-! ## The table -/

/-- Blanks are skipped. -/
def blanks : TokenRule := ⟨.plus (.char isBlank), 2, fun _ => true, fun _ => .ok none⟩

/-- A character that is a token by itself. -/
def paren (c : Char) (kind : TokenKind) : TokenRule :=
  ⟨.text [c], 2, fun _ => true, fun _ => .ok (some kind)⟩

/-- The integer of a literal, which has to fit in 64 bits. -/
def integerOf (literal : List Char) : Except LexFault (Option TokenKind) :=
  match (Decimal.read? literal).bind narrow? with
  | some n => .ok (some (.atom (.integer n)))
  | none => .error (.integerOutOfRange (String.ofList literal))

/-- An optional sign and digits. -/
def integer : TokenRule :=
  ⟨.seq (.opt (.char fun c => c == '+' || c == '-')) (.plus (.char Char.isDigit)), 3,
    fun _ => true, integerOf⟩

/-- The spelling of a boolean. It is not taken directly in front of a blank outside ASCII, which is
a peculiarity of the generated lexer. -/
def boolean (b : Bool) : TokenRule :=
  ⟨.text (Atom.boolean b).chars, 4, fun next => !next.any isWideBlank,
    fun _ => .ok (some (.atom (.boolean b)))⟩

/-- A run of characters that are neither blanks nor parentheses. -/
def symbol : TokenRule :=
  ⟨.plus (.char isAtomChar), 2, fun _ => true,
    fun run => .ok (some (.atom (.symbol (String.ofList run))))⟩

end TokenRule

/-- The rules for tokens. A pattern has a priority of two for each character of a fixed text and two
for a class; that of integers is set by hand. -/
def tokenRules : List TokenRule :=
  [.blanks, .paren '(' .opening, .paren ')' .closing, .integer, .boolean true, .boolean false,
    .symbol]

namespace TokenRule

/-! ## The longest match -/

/-- The rules that may go on after a character, each with what its pattern has left. -/
def advance (c : Char) (live : List (Pattern × TokenRule)) : List (Pattern × TokenRule) :=
  (live.map fun r => (r.1.deriv c, r.2)).filter fun r => !r.1.isNever

/-- The rules whose match may end in front of `next`. -/
def ending (next : Option Char) (live : List (Pattern × TokenRule)) : List TokenRule :=
  (live.filter fun r => r.1.nullable && r.2.before next).map Prod.snd

/-- The first rule with the highest priority. -/
def strongest? : List TokenRule → Option TokenRule
  | [] => none
  | r :: rules =>
    match strongest? rules with
    | some best => if r.priority < best.priority then some best else some r
    | none => some r

/-- Goes on as long as some rule may, and keeps the last match in mind: its rule, and how many
characters it took after the first, `taken` having been taken so far. -/
def scan (live : List (Pattern × TokenRule)) (taken : Nat) (best : Option (TokenRule × Nat)) :
    List Char → Option (TokenRule × Nat)
  | [] => best
  | c :: cs =>
    let live := advance c live
    if live.isEmpty then best
    else
      let found := (strongest? (ending cs.head? live)).map fun r => (r, taken)
      scan live (taken + 1) (found.or best) cs

/-- The rule to take at the beginning of a text, and how many characters it matches after the
first: the match is the longest of any rule, and the priority the highest of any rule with that
match. -/
def longest? (rules : List TokenRule) (cs : List Char) : Option (TokenRule × Nat) :=
  scan (rules.map fun r => (r.pattern, r)) 0 none cs

end TokenRule

end MiniScheme
