import MiniScheme.Token.Rule

/-!
# From text to tokens

From the beginning of a text on, the rule to take makes a token of the text it matches, or skips it,
until nothing is left. The first place at which no rule matches, or at which the matched text is no
token after all, is the error.

* `tokensFrom pos cs` reads the characters `cs`, the first of which stands at byte `pos`.
* `tokenize` reads a whole text (`tokenize`).
-/

namespace MiniScheme

/-- Where a text stops to be a sequence of tokens, and why. -/
structure LexError where
  fault : LexFault
  span : Span
deriving DecidableEq, Repr

/-- What went wrong, in words. -/
def LexError.message (e : LexError) : String := e.fault.message

/-- The number of bytes of a text. -/
def byteSize (cs : List Char) : Nat :=
  cs.foldr (fun c n => c.utf8Size + n) 0

/-- The tokens of the characters `cs`, the first of which stands at byte `pos`. -/
def tokensFrom (pos : Nat) (cs : List Char) : Except LexError (List Token) :=
  match cs with
  | [] => .ok []
  | c :: rest =>
    match TokenRule.longest? tokenRules (c :: rest) with
    | none => .error ⟨.invalidToken, ⟨pos, pos + c.utf8Size⟩⟩
    | some (rule, n) =>
      let run := c :: rest.take n
      let stop := pos + byteSize run
      match rule.kind run with
      | .error fault => .error ⟨fault, ⟨pos, stop⟩⟩
      | .ok none => tokensFrom stop (rest.drop n)
      | .ok (some kind) => (tokensFrom stop (rest.drop n)).map (⟨kind, ⟨pos, stop⟩⟩ :: ·)
termination_by cs.length
decreasing_by all_goals simp only [List.length_drop, List.length_cons]; omega

/-- The tokens of a text. -/
def tokenize (source : String) : Except LexError (List Token) :=
  tokensFrom 0 source.toList

end MiniScheme
