/-!
# Decimal integers

Integers are written with the fewest digits and a minus sign, and read with an optional sign and
any number of leading zeros. Values are 64-bit words; `narrow?` is the one place where an exact
integer becomes a word, and it fails outside the range. `Decimal.read?` with `narrow?` is
`parse_integer`.
-/

namespace MiniScheme

/-- The word with the value `z`, when `-2 ^ 63 ≤ z < 2 ^ 63`. -/
def narrow? (z : Int) : Option Int64 :=
  if -0x8000000000000000 ≤ z ∧ z < 0x8000000000000000 then some (Int64.ofInt z) else none

theorem narrow?_eq_some_iff {z : Int} {n : Int64} :
    narrow? z = some n ↔ n.toInt = z := by
  unfold narrow?
  constructor
  · intro h
    split at h
    · rename_i hz
      rw [← Option.some.inj h]
      exact Int64.toInt_ofInt_of_le (by omega) (by omega)
    · exact absurd h (by simp)
  · rintro rfl
    have hle := Int64.le_toInt n
    have hlt := Int64.toInt_lt n
    rw [if_pos ⟨by omega, by omega⟩, Int64.ofInt_toInt]

namespace Decimal

/-- The written form: no sign on a non-negative integer, no leading zero. -/
def write (z : Int) : List Char :=
  if z < 0 then '-' :: Nat.toDigits 10 z.natAbs else Nat.toDigits 10 z.natAbs

/-- The value of a non-empty run of ASCII digits. -/
def digits? (cs : List Char) : Option Int :=
  if !cs.isEmpty && cs.all Char.isDigit then some (Nat.ofDigitChars 10 cs 0 : Nat) else none

/-- The value of an optional sign followed by digits, `none` for any other text. -/
def read? : List Char → Option Int
  | '+' :: cs => digits? cs
  | '-' :: cs => (digits? cs).map (- ·)
  | cs => digits? cs

end Decimal

end MiniScheme
