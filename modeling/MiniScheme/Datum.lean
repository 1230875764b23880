import MiniScheme.Token

/-!
# Data

What the reader makes of a text: an atom or a proper list, each with the range it was read from.

* `Datum.text` is the written form.
* `Datum.outline` lists the cells and atoms that the datum consists of once it is built out of
  pairs: the cell in front of an item reaches from that item to the end of the list, and the
  empty list that ends it is the empty range there.

`parse_list` makes the cells of a list at once, by `new_list`. Here reading makes data, and
`Store.load` the cells of them.
-/

namespace MiniScheme

/-- An atom or a proper list of data, with the range of text it was read from. -/
inductive Datum where
  | atom (a : Atom) (span : Span)
  | list (items : List Datum) (span : Span)
deriving Repr

namespace Datum

mutual

/-- Whether two data are the same, read from the same ranges. -/
def decEq : (d e : Datum) → Decidable (d = e)
  | atom a s, atom b t => decidable_of_iff (a = b ∧ s = t) (by rw [atom.injEq])
  | list ds s, list es t =>
    have := decEqAll ds es
    decidable_of_iff (ds = es ∧ s = t) (by rw [list.injEq])
  | atom _ _, list _ _ | list _ _, atom _ _ => .isFalse nofun

/-- Whether two lists of data are the same, item by item. -/
def decEqAll : (ds es : List Datum) → Decidable (ds = es)
  | [], [] => .isTrue rfl
  | d :: ds, e :: es =>
    have := d.decEq e
    have := decEqAll ds es
    decidable_of_iff (d = e ∧ ds = es) (by rw [List.cons.injEq])
  | [], _ :: _ | _ :: _, [] => .isFalse nofun

end

instance : DecidableEq Datum := decEq

/-- The range of text the datum was read from. -/
def span : Datum → Span
  | atom _ s => s
  | list _ s => s

mutual

/-- The written form in front of `rest`: items separated by one space, between parentheses. -/
def writeOnto : Datum → List Char → List Char
  | atom a _, rest => a.chars ++ rest
  | list [] _, rest => '(' :: ')' :: rest
  | list (d :: ds) _, rest => '(' :: d.writeOnto (writeItemsOnto ds rest)

/-- The written form of the items after the first and the closing parenthesis, in front of
`rest`. -/
def writeItemsOnto : List Datum → List Char → List Char
  | [], rest => ')' :: rest
  | d :: ds, rest => ' ' :: d.writeOnto (writeItemsOnto ds rest)

end

/-- The written form. -/
def chars (d : Datum) : List Char := d.writeOnto []

/-- The written form. -/
def text (d : Datum) : String := String.ofList d.chars

mutual

/-- The cells and atoms of the datum, in preorder, in front of `rest`. -/
def outlineOnto : Datum → List String → List String
  | atom a s, rest => (a.typeName ++ " " ++ s.text ++ " " ++ String.ofList a.chars) :: rest
  | list [] s, rest => ("nil " ++ s.text) :: rest
  | list (d :: ds) s, rest => ("pair " ++ s.text) :: d.outlineOnto (outlineItemsOnto s.stop ds rest)

/-- The cells and atoms of the items after the first, in a list that ends at `stop`, in front of
`rest`. -/
def outlineItemsOnto (stop : Nat) : List Datum → List String → List String
  | [], rest => ("nil " ++ (Span.point stop).text) :: rest
  | d :: ds, rest =>
    ("pair " ++ (Span.mk d.span.start stop).text) ::
      d.outlineOnto (outlineItemsOnto stop ds rest)

end

/-- The cells and atoms of the datum, in preorder. -/
def outline (d : Datum) : List String := d.outlineOnto []

end Datum

end MiniScheme
