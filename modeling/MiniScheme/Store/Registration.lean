import MiniScheme.Store.Holding
import MiniScheme.Store.Scope

/-!
# Registration and release

A frame beneath another one is entered in the registry of its global frame when it is made. When a
session ends, its global frame is emptied and then every frame of the registry that somebody still
holds. What frames hold is dropped on the way, so a frame may be gone by the time it is its turn.

Both ask who is held, and so both are told what is held from outside of the store.

* `enclose` makes a frame beneath another one (`new_enclosed` and `extend`).
* `release` is `release_all`.
-/

namespace MiniScheme.Store

/-- Whether an object of the store refers to a frame of the registry. -/
def refersInto (s : Store) (r : Registry) : Bool :=
  let first := (r.frames.toList.map FrameId.index).min?.getD 0
  let isRegistered (f : FrameId) := first ≤ f.index && r.frames.contains f
  s.frames.any (fun fr => fr.outer.any isRegistered) || s.closures.any fun k => isRegistered k.frame

/-- The frames of a registry that somebody holds (`strong_count`). If no object refers to them then
only roots do. -/
def prune (s : Store) (roots : List Ref) (r : Registry) : Registry :=
  let n := if s.refersInto r then s.tally roots else (Census.zero s).addAll roots
  r.retain fun f => n.count (.frame f) != 0

/-- Enters a frame in a registry (`register_frame`). If the registry is full then the frames that
nobody holds are taken out first. -/
def register (s : Store) (roots : List Ref) (r : Registry) (f : FrameId) : Registry :=
  if r.frames.size = r.capacity then (s.prune roots r).push f else r.push f

/-- Enters a frame in the registry of its global frame. -/
def track (s : Store) (roots : List Ref) (f : FrameId) : Store :=
  let g := s.root f
  { s with registries := s.registries.insert g (s.register roots (s.registries.of g) f) }

/-- A new frame beneath `f` with the given names, while `held` is held. Of a name given twice the
last value counts. -/
def enclose (s : Store) (held : List Ref) (f : FrameId) (entries : List (String × Node)) :
    FrameId × Store :=
  let (g, s) := s.newFrame (some f) (Table.empty.insertAll entries)
  (g, s.track (.frame g :: held) g)

/-- Empties a frame, unless nobody holds it (`upgrade`). -/
def releaseFrame (s : Store) (roots : List Ref) (f : FrameId) : Store :=
  if s.holders roots (.frame f) = 0 then s else s.clear f

/-- Empties a frame and, when it is a global one, the frames of its registry that are held, one
after the other. The registry is given up. -/
def release (s : Store) (roots : List Ref) (f : FrameId) : Store :=
  let registered := (s.registries.of f).frames
  let s := { s with registries := s.registries.insert f .empty }
  registered.foldl (fun s g => s.releaseFrame roots g) (s.clear f)

end MiniScheme.Store
