import Mathlib.Data.List.Nodup
import MiniScheme.Store.Holding

/-!
# Who holds an object, without counting

`Store.holders` counts references and takes away those of dropped objects one by one. Here this is
brought to a form that mentions neither numbers nor the order of the objects: an object is
*dropped* when it is no root and all objects that refer to it are dropped, and a closure is held
only here when nothing else holds it and all objects that refer to it are dropped.

The work list of `Census.peel` is followed with the list `rest` of the objects whose references
still count. `Peeling` says what holds of them at every step.

## Results

* `Peeling.peel`: the run of `peel` ends with no work left.
* `holders_eq_zero_iff`: when nobody holds an object, in terms of `Dropped`.
* `isOnlyHeldHere_iff`: the question of `isOnlyHeldHere`, in terms of `Dropped`.
-/

namespace MiniScheme

namespace Store

variable {s : Store} {roots : List Ref}

/-- The store has the object. -/
def Has (s : Store) : Ref → Prop
  | .cell c => c.index < s.cells.size
  | .frame f => f.index < s.frames.size
  | .closure k => k.index < s.closures.size

/-- The objects of the store refer to objects of the store only. -/
def Closed (s : Store) : Prop := ∀ o, s.Has o → ∀ r ∈ s.references o, s.Has r

/-- The closures that objects refer to are settled. -/
def Settled (s : Store) : Prop :=
  ∀ o k, s.Has o → .closure k ∈ s.references o → k.index < s.settled

/-- No root is the object, and every object that refers to it is dropped as well. -/
inductive Dropped (s : Store) (roots : List Ref) : Ref → Prop
  | intro {r : Ref} (hroot : r ∉ roots)
      (h : ∀ o, s.Has o → r ∈ s.references o → Dropped s roots o) : Dropped s roots r

theorem mem_objects {r : Ref} : r ∈ s.objects ↔ s.Has r := by
  cases r with
  | cell c =>
    obtain ⟨i⟩ := c
    simp [objects, Has]
  | frame f =>
    obtain ⟨i⟩ := f
    simp [objects, Has]
  | closure k =>
    obtain ⟨i⟩ := k
    simp [objects, Has]

theorem nodup_objects (s : Store) : s.objects.Nodup := by
  have hmap {f : Nat → Ref} (hf : Function.Injective f) (n : Nat) :
      ((List.range n).map f).Nodup := List.nodup_range.map hf
  unfold objects
  refine List.Nodup.append (hmap ?_ _) (List.Nodup.append (hmap ?_ _) (hmap ?_ _) ?_) ?_
  · exact fun i j h => by cases h; rfl
  · exact fun i j h => by cases h; rfl
  · exact fun i j h => by cases h; rfl
  · simp [List.Disjoint]
  · simp [List.Disjoint]

end Store

/-! ## Counting -/

namespace Census

variable {s : Store} {n : Census} {refs base : List Ref} {q : Ref}

/-- The numbers are those of a list of references, for every object of the store. -/
structure Counts (n : Census) (s : Store) (refs : List Ref) : Prop where
  cells : n.cells.size = s.cells.size
  frames : n.frames.size = s.frames.size
  closures : n.closures.size = s.closures.size
  count : ∀ r, s.Has r → n.count r = refs.count r

theorem Counts.count_modify (h : n.Counts s refs) (g : Nat → Nat) (hq : s.Has q) (r : Ref) :
    (n.modify g q).count r = if q = r then g (n.count r) else n.count r := by
  match q, r with
  | .cell ⟨i⟩, .cell ⟨j⟩ =>
    have hi : i < n.cells.size := h.cells ▸ hq
    simp [Census.modify, Census.count, Store.getD_getElem?_modify, hi]
  | .frame ⟨i⟩, .frame ⟨j⟩ =>
    have hi : i < n.frames.size := h.frames ▸ hq
    simp [Census.modify, Census.count, Store.getD_getElem?_modify, hi]
  | .closure ⟨i⟩, .closure ⟨j⟩ =>
    have hi : i < n.closures.size := h.closures ▸ hq
    simp [Census.modify, Census.count, Store.getD_getElem?_modify, hi]
  | .cell _, .frame _ | .cell _, .closure _ | .frame _, .cell _ | .frame _, .closure _
  | .closure _, .cell _ | .closure _, .frame _ => exact (if_neg nofun).symm

theorem Counts.modify (h : n.Counts s refs) (g : Nat → Nat) (hq : s.Has q)
    (hbase : ∀ r, base.count r = if q = r then g (refs.count r) else refs.count r) :
    (n.modify g q).Counts s base where
  cells := by cases q <;> simp [Census.modify, h.cells]
  frames := by cases q <;> simp [Census.modify, h.frames]
  closures := by cases q <;> simp [Census.modify, h.closures]
  count r hr := by rw [h.count_modify g hq, hbase, h.count r hr]

theorem Counts.perm (h : n.Counts s refs) (hp : refs.Perm base) : n.Counts s base where
  cells := h.cells
  frames := h.frames
  closures := h.closures
  count r hr := (h.count r hr).trans (hp.count_eq r)

theorem Counts.add (h : n.Counts s refs) (hq : s.Has q) :
    (n.modify (· + 1) q).Counts s (q :: refs) := by
  refine h.modify _ hq fun r => ?_
  rw [List.count_cons]
  by_cases hr : q = r <;> simp [hr]

theorem Counts.sub (h : n.Counts s (q :: refs)) (hq : s.Has q) :
    (n.modify (· - 1) q).Counts s refs := by
  refine h.modify _ hq fun r => ?_
  rw [List.count_cons]
  by_cases hr : q = r <;> simp [hr]

theorem Counts.addAll {qs : List Ref} (h : n.Counts s refs) (hqs : ∀ q ∈ qs, s.Has q) :
    (n.addAll qs).Counts s (refs ++ qs) := by
  induction qs generalizing n refs with
  | nil => simpa [Census.addAll] using h
  | cons q qs ih =>
    obtain ⟨hq, hqs⟩ := List.forall_mem_cons.1 hqs
    exact (ih (h.add hq) hqs).perm List.perm_middle.symm

theorem counts_zero (s : Store) : (zero s).Counts s [] where
  cells := Array.size_replicate
  frames := Array.size_replicate
  closures := Array.size_replicate
  count r hr := by
    cases r with
    | cell c => simp [zero, count, Array.getElem?_replicate]; split <;> rfl
    | frame f => simp [zero, count, Array.getElem?_replicate]; split <;> rfl
    | closure k => simp [zero, count, Array.getElem?_replicate]; split <;> rfl

/-- The census of a closed store counts what its roots and its objects refer to. -/
theorem counts_census (hs : s.Closed) {roots : List Ref} (hroots : ∀ r ∈ roots, s.Has r) :
    (s.census roots).Counts s (roots ++ s.objects.flatMap s.references) := by
  have hall (os : List Ref) (hos : ∀ o ∈ os, s.Has o) {n : Census} {refs : List Ref}
      (h : n.Counts s refs) :
      (os.foldl (fun n r => n.addAll (s.references r)) n).Counts s
        (refs ++ os.flatMap s.references) := by
    induction os generalizing n refs with
    | nil => simpa using h
    | cons o os ih =>
      obtain ⟨ho, hos⟩ := List.forall_mem_cons.1 hos
      have hnext := ih hos (h.addAll (hs o ho))
      rwa [List.append_assoc] at hnext
  exact hall s.objects (fun o ho => Store.mem_objects.1 ho) ((counts_zero s).addAll hroots)

/-- What is left after dropping references, and which objects nobody holds because of it. -/
theorem Counts.dropAll {refs : List Ref} (h : n.Counts s (refs ++ base))
    (hrefs : ∀ r ∈ refs, s.Has r) (work : List Ref) :
    (n.dropAll work refs).2.Counts s base ∧
      ∃ new : List Ref, (n.dropAll work refs).1 = new ++ work ∧ new.Nodup ∧
        ∀ r, r ∈ new ↔ r ∈ refs ∧ r ∉ base := by
  induction refs generalizing n work with
  | nil => exact ⟨h, [], rfl, List.nodup_nil, by simp⟩
  | cons q refs ih =>
    obtain ⟨hq, hrefs⟩ := List.forall_mem_cons.1 hrefs
    have hsub : (n.modify (· - 1) q).Counts s (refs ++ base) := h.sub hq
    have hzero : (n.modify (· - 1) q).count q = 0 ↔ q ∉ refs ∧ q ∉ base := by
      rw [hsub.count q hq, List.count_eq_zero, List.mem_append, not_or]
    rw [Census.dropAll]
    simp only [hzero]
    split
    · rename_i hnot
      obtain ⟨hcounts, new, hnew, hnodup, hmem⟩ := ih hsub hrefs (q :: work)
      refine ⟨hcounts, new ++ [q], by simp [hnew], ?_, fun r => ?_⟩
      · refine List.nodup_append.2 ⟨hnodup, by simp, ?_⟩
        rintro r hr _ hrq rfl
        obtain rfl := List.mem_singleton.1 hrq
        exact hnot.1 ((hmem _).1 hr).1
      · rw [List.mem_append, List.mem_singleton, List.mem_cons, hmem]
        constructor
        · rintro (⟨hr, hb⟩ | rfl)
          · exact ⟨.inr hr, hb⟩
          · exact ⟨.inl rfl, hnot.2⟩
        · rintro ⟨rfl | hr, hb⟩
          · exact .inr rfl
          · exact .inl ⟨hr, hb⟩
    · rename_i hheld
      obtain ⟨hcounts, new, hnew, hnodup, hmem⟩ := ih hsub hrefs work
      refine ⟨hcounts, new, hnew, hnodup, fun r => ?_⟩
      rw [hmem, List.mem_cons]
      constructor
      · rintro ⟨hr, hb⟩
        exact ⟨.inr hr, hb⟩
      · rintro ⟨rfl | hr, hb⟩
        · exact ⟨by_contra fun hr => hheld ⟨hr, hb⟩, hb⟩
        · exact ⟨hr, hb⟩

end Census

/-! ## Peeling -/

/-- A step of `peel`: the references of the objects in `rest` still count, and `work` lists the
objects among them that nobody holds. The other objects are dropped. -/
structure Peeling (s : Store) (roots rest work : List Ref) (n : Census) : Prop where
  counts : n.Counts s (roots ++ rest.flatMap s.references)
  nodup : rest.Nodup
  has : ∀ r ∈ rest, s.Has r
  nodup_work : work.Nodup
  mem_work : ∀ r, r ∈ work ↔ r ∈ rest ∧ r ∉ roots ++ rest.flatMap s.references
  gone : ∀ r, s.Has r → r ∉ rest →
    r ∉ roots ++ rest.flatMap s.references ∧ s.Dropped roots r

namespace Peeling

variable {s : Store} {roots rest work : List Ref} {n : Census}

theorem start (hs : s.Closed) (hroots : ∀ r ∈ roots, s.Has r) :
    Peeling s roots s.objects
      (s.objects.filter fun o => (s.census roots).count o == 0) (s.census roots) where
  counts := Census.counts_census hs hroots
  nodup := s.nodup_objects
  has _ hr := Store.mem_objects.1 hr
  nodup_work := s.nodup_objects.filter _
  mem_work r := by
    rw [List.mem_filter, beq_iff_eq]
    refine and_congr_right fun hr => ?_
    rw [(Census.counts_census hs hroots).count r (Store.mem_objects.1 hr), List.count_eq_zero]
  gone r hr hnot := absurd (Store.mem_objects.2 hr) hnot

/-- An object that only dropped objects refer to is dropped. -/
theorem dropped_of_mem_work (h : Peeling s roots rest work n) {r : Ref} (hr : r ∈ work) :
    s.Dropped roots r := by
  obtain ⟨-, hnot⟩ := (h.mem_work r).1 hr
  rw [List.mem_append, not_or] at hnot
  refine .intro hnot.1 fun o ho hro => ?_
  by_cases hrest : o ∈ rest
  · exact absurd (List.mem_flatMap.2 ⟨o, hrest, hro⟩) hnot.2
  · exact (h.gone o ho hrest).2

/-- **One object less.** -/
theorem step (hs : s.Closed) {r : Ref} (h : Peeling s roots rest (r :: work) n) :
    Peeling s roots (rest.erase r) (n.dropAll work (s.references r)).1
      (n.dropAll work (s.references r)).2 := by
  obtain ⟨hr, hfree⟩ := (h.mem_work r).1 List.mem_cons_self
  obtain ⟨hrwork, hwork⟩ := List.nodup_cons.1 h.nodup_work
  -- what counts is what `r` refers to and what the others refer to
  have hperm : (roots ++ rest.flatMap s.references).Perm
      (s.references r ++ (roots ++ (rest.erase r).flatMap s.references)) := by
    have hfirst := List.Perm.flatMap_right s.references (List.perm_cons_erase hr)
    rw [List.flatMap_cons] at hfirst
    exact (hfirst.append_left roots).trans (List.perm_append_comm_assoc roots _ _)
  have hall (x : Ref) : x ∈ roots ++ rest.flatMap s.references ↔
      x ∈ s.references r ∨ x ∈ roots ++ (rest.erase r).flatMap s.references := by
    rw [hperm.mem_iff, List.mem_append]
  obtain ⟨hcounts, new, hnew, hnodup, hmem⟩ :=
    (h.counts.perm hperm).dropAll (hs r (h.has r hr)) work
  have hne {x : Ref} (hx : x ∈ s.references r) : x ≠ r := by
    rintro rfl
    exact hfree ((hall _).2 (.inl hx))
  have hrest {x : Ref} (hx : x ∈ s.references r) : x ∈ rest := by
    by_contra hnot
    exact (h.gone x (hs r (h.has r hr) x hx) hnot).1 ((hall x).2 (.inl hx))
  refine ⟨hcounts, h.nodup.erase r, fun x hx => h.has x (List.mem_of_mem_erase hx), ?_, ?_, ?_⟩
  · rw [hnew]
    refine List.nodup_append.2 ⟨hnodup, hwork, ?_⟩
    rintro x hx _ hxwork rfl
    exact ((h.mem_work x).1 (List.mem_cons_of_mem r hxwork)).2
      ((hall x).2 (.inl ((hmem x).1 hx).1))
  · intro x
    rw [hnew, List.mem_append, hmem, h.nodup.mem_erase_iff]
    constructor
    · rintro (⟨hx, hbase⟩ | hx)
      · exact ⟨⟨hne hx, hrest hx⟩, hbase⟩
      · obtain ⟨hxrest, hxfree⟩ := (h.mem_work x).1 (List.mem_cons_of_mem r hx)
        refine ⟨⟨fun hxr => hrwork (hxr ▸ hx), hxrest⟩, fun hbase => ?_⟩
        exact hxfree ((hall x).2 (.inr hbase))
    · rintro ⟨⟨hxr, hxrest⟩, hbase⟩
      by_cases hx : x ∈ s.references r
      · exact .inl ⟨hx, hbase⟩
      · have hxfree : x ∉ roots ++ rest.flatMap s.references :=
          fun hxall => ((hall x).1 hxall).elim hx hbase
        exact .inr ((List.mem_cons.1 ((h.mem_work x).2 ⟨hxrest, hxfree⟩)).resolve_left hxr)
  · intro x hx hnot
    by_cases hxr : x = r
    · subst hxr
      exact ⟨fun hbase => hfree ((hall x).2 (.inr hbase)),
        h.dropped_of_mem_work List.mem_cons_self⟩
    · have hxrest : x ∉ rest := fun hxrest => hnot (h.nodup.mem_erase_iff.2 ⟨hxr, hxrest⟩)
      obtain ⟨hxfree, hdropped⟩ := h.gone x hx hxrest
      exact ⟨fun hbase => hxfree ((hall x).2 (.inr hbase)), hdropped⟩

/-- **The whole run** of `peel` works off its list: there is fuel for every object. -/
theorem peel (hs : s.Closed) {fuel : Nat} (hfuel : rest.length ≤ fuel)
    (h : Peeling s roots rest work n) :
    ∃ rest', Peeling s roots rest' [] (Census.peel s fuel work n) := by
  induction fuel generalizing rest work n with
  | zero =>
    have hrest : rest = [] := List.eq_nil_of_length_eq_zero (Nat.le_zero.1 hfuel)
    subst hrest
    have hwork : work = [] :=
      List.eq_nil_iff_forall_not_mem.2 fun r hr => List.not_mem_nil ((h.mem_work r).1 hr).1
    subst hwork
    exact ⟨[], h⟩
  | succ fuel ih =>
    cases work with
    | nil => exact ⟨rest, h⟩
    | cons r work =>
      have hr := ((h.mem_work r).1 List.mem_cons_self).1
      refine ih ?_ (h.step hs)
      rw [List.length_erase_of_mem hr]
      omega

/-- Once there is no work left, the objects that count are those that are not dropped. -/
theorem dropped_iff (h : Peeling s roots rest [] n) {r : Ref} (hr : s.Has r) :
    s.Dropped roots r ↔ r ∉ rest := by
  refine ⟨fun hdropped => ?_, fun hnot => (h.gone r hr hnot).2⟩
  induction hdropped with
  | @intro r hroot _ ih =>
    intro hrest
    have hheld : r ∈ roots ++ rest.flatMap s.references := by
      by_contra hfree
      exact List.not_mem_nil ((h.mem_work r).2 ⟨hrest, hfree⟩)
    rcases List.mem_append.1 hheld with hmem | hmem
    · exact hroot hmem
    · obtain ⟨o, ho, hro⟩ := List.mem_flatMap.1 hmem
      exact ih o (h.has o ho) hro (h.has o ho) ho

/-- What is left when the whole store has been worked off. -/
theorem tally (hs : s.Closed) (hroots : ∀ r ∈ roots, s.Has r) :
    ∃ rest, Peeling s roots rest [] (s.tally roots) :=
  (Peeling.start hs hroots).peel hs (Nat.le_refl _)

end Peeling

/-- **Nobody holds** an object if and only if it is dropped. -/
theorem Store.holders_eq_zero_iff {s : Store} (hs : s.Closed) {roots : List Ref}
    (hroots : ∀ r ∈ roots, s.Has r) {r : Ref} (hr : s.Has r) :
    s.holders roots r = 0 ↔ s.Dropped roots r := by
  obtain ⟨rest, h⟩ := Peeling.tally hs hroots
  rw [holders, h.counts.count r hr, List.count_eq_zero]
  refine ⟨fun hfree => (h.dropped_iff hr).2 fun hrest => ?_, fun hdropped => ?_⟩
  · exact List.not_mem_nil ((h.mem_work r).2 ⟨hrest, hfree⟩)
  · exact (h.gone r hr ((h.dropped_iff hr).1 hdropped)).1

/-- **Held only here.** Nothing else holds the closure, and all objects that refer to it are
dropped. -/
theorem Store.isOnlyHeldHere_iff {s : Store} (hs : s.Closed) (hsettled : s.Settled)
    {held : List Ref} (hheld : ∀ r ∈ held, s.Has r) {k : ClosureId} (hk : s.Has (.closure k)) :
    s.isOnlyHeldHere held k = true ↔
      .closure k ∉ held ∧ ∀ o, s.Has o → .closure k ∈ s.references o →
        s.Dropped (.closure k :: held) o := by
  unfold isOnlyHeldHere
  split
  · rename_i hnew
    rw [Bool.not_eq_true', List.contains_eq_mem, decide_eq_false_iff_not]
    refine ⟨fun h => ⟨h, fun o ho hko => ?_⟩, And.left⟩
    exact absurd (hsettled o k ho hko) (Nat.not_lt.2 hnew)
  · have hroots : ∀ r ∈ Ref.closure k :: held, s.Has r := List.forall_mem_cons.2 ⟨hk, hheld⟩
    obtain ⟨rest, h⟩ := Peeling.tally hs hroots
    have hcount : s.holders (.closure k :: held) (.closure k) =
        1 + (held.count (.closure k) + (rest.flatMap s.references).count (.closure k)) := by
      unfold holders
      rw [h.counts.count _ hk, List.cons_append, List.count_cons_self, List.count_append]
      omega
    rw [beq_iff_eq, hcount]
    constructor
    · intro hone
      have hzero : held.count (.closure k) = 0 ∧
          (rest.flatMap s.references).count (.closure k) = 0 := by omega
      refine ⟨List.count_eq_zero.1 hzero.1, fun o ho hko => (h.dropped_iff ho).2 fun hrest => ?_⟩
      exact List.count_eq_zero.1 hzero.2 (List.mem_flatMap.2 ⟨o, hrest, hko⟩)
    · rintro ⟨hnot, hdropped⟩
      have hrest : Ref.closure k ∉ rest.flatMap s.references := by
        intro hmem
        obtain ⟨o, ho, hko⟩ := List.mem_flatMap.1 hmem
        exact (h.dropped_iff (h.has o ho)).1 (hdropped o (h.has o ho) hko) ho
      rw [List.count_eq_zero.2 hnot, List.count_eq_zero.2 hrest]

end MiniScheme
