/-!
# Spans of source text

A span is a range of byte offsets, the end exclusive. Every token, value and error carries one.

* `Span.merge` is the smallest range that covers two ranges.
* `Span.text` is the written form `start..stop`.

Out of scope: the width of a machine word. Offsets are natural numbers, which no text in memory
comes to the end of.
-/

namespace MiniScheme

/-- A range of byte offsets in a source text, `stop` exclusive. -/
structure Span where
  start : Nat
  stop : Nat
deriving DecidableEq, Repr, Inhabited

namespace Span

/-- The empty range at an offset. -/
def point (offset : Nat) : Span := ⟨offset, offset⟩

/-- The smallest range that covers both. -/
def merge (a b : Span) : Span := ⟨min a.start b.start, max a.stop b.stop⟩

/-- The number of bytes in the range; a backwards range has none. -/
def size (a : Span) : Nat := a.stop - a.start

/-- The written form, `start..stop`. -/
def text (a : Span) : String := toString a.start ++ ".." ++ toString a.stop

end Span

end MiniScheme
