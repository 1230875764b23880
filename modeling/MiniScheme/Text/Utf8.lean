/-!
# UTF-8

Texts as bytes. `encode` is the encoding of a text; `decode` reads it back and refuses every
other sequence of bytes, saying where the longest readable part ends and whether the rest could
still be completed. Overlong forms, surrogates and values above U+10FFFF are refused at the
second byte, through the range that each first byte allows for it.
-/

namespace MiniScheme.Utf8

/-- The bytes of a text. -/
def encode (cs : List Char) : List UInt8 := cs.flatMap String.utf8EncodeChar

/-- Why bytes are no text, and the index from which on they are not. -/
inductive Fault where
  /-- the `length` bytes at `index` start no character -/
  | invalid (length index : Nat)
  /-- the bytes end inside a character that starts at `index` -/
  | incomplete (index : Nat)
deriving DecidableEq, Repr

/-- The fault in words. -/
def Fault.text : Fault → String
  | invalid length index =>
    "invalid utf-8 sequence of " ++ toString length ++ " bytes from index " ++ toString index
  | incomplete index => "incomplete utf-8 byte sequence from index " ++ toString index

/-- The ranges of the bytes that follow a first byte, `none` when it starts no character. -/
def followers (b : UInt8) : Option (List (UInt8 × UInt8)) :=
  if b < 0x80 then some []
  else if b < 0xC2 then none
  else if b < 0xE0 then some [(0x80, 0xBF)]
  else if b = 0xE0 then some [(0xA0, 0xBF), (0x80, 0xBF)]
  else if b = 0xED then some [(0x80, 0x9F), (0x80, 0xBF)]
  else if b < 0xF0 then some [(0x80, 0xBF), (0x80, 0xBF)]
  else if b = 0xF0 then some [(0x90, 0xBF), (0x80, 0xBF), (0x80, 0xBF)]
  else if b < 0xF4 then some [(0x80, 0xBF), (0x80, 0xBF), (0x80, 0xBF)]
  else if b = 0xF4 then some [(0x80, 0x8F), (0x80, 0xBF), (0x80, 0xBF)]
  else none

/-- How many bytes lie in the ranges, one byte for each range, up to the first that does not. -/
def matching : List (UInt8 × UInt8) → List UInt8 → Nat
  | r :: rs, b :: bs => if r.1 ≤ b ∧ b ≤ r.2 then matching rs bs + 1 else 0
  | _, _ => 0

/-- The bits that a first byte contributes, when `n` bytes follow it. -/
def leadBits (b : UInt8) (n : Nat) : Nat :=
  if n = 0 then b.toNat else b.toNat % Nat.pow 2 (6 - n)

/-- The character of a first byte and the bytes that follow it. -/
def assemble (b : UInt8) (bs : List UInt8) : Char :=
  Char.ofNat (bs.foldl (fun n b => n * 64 + b.toNat % 64) (leadBits b bs.length))

/-- The text of the bytes, the first of which has the given index. -/
def decodeFrom (index : Nat) (bytes : List UInt8) : Except Fault (List Char) :=
  match bytes with
  | [] => .ok []
  | b :: bs =>
    match followers b with
    | none => .error (.invalid 1 index)
    | some ranges =>
      let n := matching ranges bs
      if n = ranges.length then
        (decodeFrom (index + 1 + n) (bs.drop n)).map (assemble b (bs.take n) :: ·)
      else if n = bs.length then .error (.incomplete index)
      else .error (.invalid (n + 1) index)
termination_by bytes.length
decreasing_by simp only [List.length_drop, List.length_cons]; omega

/-- The text that the bytes encode. -/
def decode (bytes : List UInt8) : Except Fault (List Char) := decodeFrom 0 bytes

end MiniScheme.Utf8
