import Std.Data.TreeMap.Lemmas
import MiniScheme.Value

/-!
# Registries

A global frame keeps a list of the frames that were made beneath it, so that it can empty them when
its session ends. The list does not hold on to them. Before it outgrows its capacity those are taken
out of it that nobody holds any more.

* `Registry` is the field `frames` of a global frame, with the capacity of that vector.
* `Registries` has the registry of each global frame. Only registration and release look at them,
  so they are kept apart from the frames.

How far a capacity grows is left open by `push`. Here it is four at first, and then it doubles.
-/

namespace MiniScheme

/-- Frames that were made beneath a global frame, the newest last, and how many there is room
for. -/
structure Registry where
  frames : Array FrameId
  capacity : Nat
deriving Inhabited

namespace Registry

/-- No frames, and no room for any. -/
def empty : Registry := ⟨#[], 0⟩

/-- One more frame (`push`), with more room if there was none left. -/
def push (r : Registry) (f : FrameId) : Registry :=
  ⟨r.frames.push f, if r.frames.size < r.capacity then r.capacity else max 4 (2 * r.capacity)⟩

/-- The frames for which `keep` says so (`retain`); the room stays. -/
def retain (r : Registry) (keep : FrameId → Bool) : Registry :=
  { r with frames := r.frames.filter keep }

end Registry

/-- The registry of each global frame. -/
abbrev Registries := Std.TreeMap FrameId Registry (compareOn FrameId.index)

namespace Registries

/-- The registry of a global frame. -/
def of (t : Registries) (g : FrameId) : Registry := t.getD g .empty

/-- A registry that was put in is there, the others are what they were. -/
theorem of_insert (t : Registries) (f g : FrameId) (r : Registry) :
    Registries.of (t.insert f r) g = if f = g then r else t.of g := by
  obtain ⟨i⟩ := f
  obtain ⟨j⟩ := g
  rw [of, Std.TreeMap.getD_insert]
  by_cases h : i = j <;> simp [compareOn, h, of]

end Registries

end MiniScheme
