/-!
# Tables

A table gives values to names, in the order in which the names were added. Binding a name that is
there already replaces its value and keeps its place.

* `get?_insert` says what a look-up finds after `insert`.

A table stands for the hash map `bindings` of `Environment`. The order of a table is never seen
from outside: names are sorted where they are shown.
-/

namespace MiniScheme

/-- Names with values of a type. -/
structure Table (α : Type) where
  entries : List (String × α)
deriving DecidableEq, Repr

namespace Table

variable {α : Type}

instance : Inhabited (Table α) := ⟨⟨[]⟩⟩

/-- No names. -/
def empty : Table α := ⟨[]⟩

/-- The value of a name. -/
def get? (t : Table α) (name : String) : Option α := t.entries.lookup name

/-- Whether a name is there. -/
def contains (t : Table α) (name : String) : Bool := (t.get? name).isSome

/-- The names. -/
def names (t : Table α) : List String := t.entries.map Prod.fst

/-- The values. -/
def values (t : Table α) : List α := t.entries.map Prod.snd

/-- The entries with a value for `name`: in its place when it is there, else at the end. -/
def insertEntry (name : String) (a : α) : List (String × α) → List (String × α)
  | [] => [(name, a)]
  | e :: es => if name == e.1 then (name, a) :: es else e :: insertEntry name a es

/-- Gives a name a value, in the place of the one it had. -/
def insert (t : Table α) (name : String) (a : α) : Table α := ⟨insertEntry name a t.entries⟩

/-- Gives several names values, one after the other. -/
def insertAll (t : Table α) (entries : List (String × α)) : Table α :=
  entries.foldl (fun t e => t.insert e.1 e.2) t

theorem lookup_insertEntry (name m : String) (a : α) (es : List (String × α)) :
    (insertEntry name a es).lookup m = if m = name then some a else es.lookup m := by
  induction es with
  | nil => grind [insertEntry]
  | cons e es ih =>
    rw [insertEntry]
    split <;> grind

/-- A name that was inserted has its value, the others have what they had. -/
theorem get?_insert (t : Table α) (name m : String) (a : α) :
    (t.insert name a).get? m = if m = name then some a else t.get? m :=
  lookup_insertEntry name m a t.entries

end Table

/-- Texts in the order of their code points. -/
def sortedNames (names : List String) : List String :=
  names.mergeSort fun a b => decide (a ≤ b)

end MiniScheme
