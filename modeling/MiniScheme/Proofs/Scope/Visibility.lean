import MiniScheme.Proofs.Operations
import MiniScheme.Proofs.Scope.Frames

/-!
# Who sees a binding

A binding of a name in a frame is seen from every frame whose chain comes to that frame before it
comes to another one that binds the name. Everything that is looked up elsewhere, or under another
name, is as it was. That is `Store.lookup?_bind`, for any frame of any store; assignment and
definition differ in the frame that they choose.

An assignment chooses the frame that binds the name already, so it is seen from where the name means
that frame. A definition chooses the global frame, which is the last of its chain, so it is seen
from where no other frame hides it.

## Results

* `Store.lookup?_bind`: what is looked up after a binding.
* `lookup?_assignName`, `exists_bindGlobal`: what is looked up after either of them.
* `scopes_are_coherent`: assignment and definition, as evaluation does them.
-/

namespace MiniScheme

namespace Store

variable {s : Store} {f g r : FrameId} {name other : String} {v : Node}

/-- The frame of the chain of `g` that a binding of `name` in `r` makes visible or leaves so: the
first one that binds the name, or `r` if it comes before. -/
def ownerBeside? (s : Store) (r g : FrameId) (name : String) : Option FrameId :=
  (s.chain g).find? fun h => h == r || (s.frame h).bindings.contains name

theorem chain_bind (s : Store) (r g : FrameId) (name : String) (v : Node) :
    (s.bind r name v).chain g = s.chain g := by
  refine chain_congr (fun h => ?_) g
  rw [frame_bind]
  split <;> rfl

theorem get?_frame_bind (hr : s.HasFrame r) (name other : String) (v : Node) (g : FrameId) :
    ((s.bind r name v).frame g).bindings.get? other =
      if g = r ∧ other = name then some v else (s.frame g).bindings.get? other := by
  rw [frame_bind]
  by_cases hg : g = r
  · subst hg
    rw [if_pos ⟨rfl, hr⟩, Table.get?_insert]
    simp
  · rw [if_neg fun h => hg h.1.symm, if_neg fun h => hg h.1]

/-- **Who sees a binding**: those who come to the frame before they come to another one that binds
the name. -/
theorem lookup?_bind (hr : s.HasFrame r) (name other : String) (v : Node) (g : FrameId) :
    (s.bind r name v).lookup? g other =
      if other = name ∧ s.ownerBeside? r g name = some r then some v else s.lookup? g other := by
  unfold lookup? ownerBeside?
  rw [chain_bind]
  induction s.chain g with
  | nil => simp
  | cons h hs ih =>
    rw [List.findSome?_cons, List.findSome?_cons, List.find?_cons, get?_frame_bind hr, ih]
    by_cases hname : other = name
    · subst hname
      by_cases hh : h = r
      · simp [hh]
      · have hbeq : (h == r) = false := beq_eq_false_iff_ne.2 hh
        rw [hbeq, Bool.false_or, Table.contains]
        cases hget : (s.frame h).bindings.get? other with
        | some node => simp [hh]
        | none => simp [hh]
    · simp [hname]

/-! ## Assignment -/

theorem hasFrame_of_owner? (hf : s.HasFrame f) (h : s.owner? f name = some r) : s.HasFrame r :=
  hasFrame_of_mem_chain hf r (List.mem_of_find?_eq_some h)

/-- A frame that binds the name already hides nothing that was visible. -/
theorem ownerBeside?_of_owner? (h : s.owner? f name = some r) (g : FrameId) :
    s.ownerBeside? r g name = s.owner? g name := by
  have hr : (s.frame r).bindings.contains name = true := Table.contains_iff.2 (mem_namesOf_owner h)
  unfold ownerBeside? owner?
  congr 1
  funext o
  by_cases ho : o = r
  · rw [ho, hr, Bool.or_true]
  · rw [beq_eq_false_iff_ne.2 ho, Bool.false_or]

theorem lookup?_eq_none_iff : s.lookup? f name = none ↔ s.owner? f name = none := by
  unfold lookup? owner?
  rw [List.findSome?_eq_none_iff, List.find?_eq_none]
  simp [Table.contains]

/-! ## Definition -/

theorem hasFrame_root (hf : s.HasFrame f) : s.HasFrame (s.root f) := by
  unfold root
  cases hlast : (s.chain f).getLast? with
  | none => exact hf
  | some g => exact hasFrame_of_mem_chain hf g (List.mem_of_getLast? hlast)

/-- **Who sees a global frame**: those whose chain ends in it, if no other frame on it binds the
name. -/
theorem IsForest.ownerBeside?_global (h : s.IsForest) (hr : (s.frame r).outer = none)
    (g : FrameId) (name : String) :
    s.ownerBeside? r g name = some r ↔
      s.root g = r ∧ ∀ o ∈ s.chain g, (s.frame o).outer ≠ none →
        (s.frame o).bindings.contains name = false := by
  unfold ownerBeside?
  induction g using h.outward_induction with
  | global g hg =>
    rw [chain_of_global hg, root_of_global hg, List.forall_mem_singleton]
    by_cases hgr : g = r
    · simp [hgr, hr]
    · by_cases hc : (s.frame g).bindings.contains name = true
      · simp [hc, hgr]
      · simp [hc, hgr]
  | inner g o ho hlt ih =>
    have hne : g ≠ r := by
      rintro rfl
      rw [hr] at ho
      cases ho
    rw [chain_of_outer ho hlt, root_of_outer ho hlt, List.find?_cons, List.forall_mem_cons,
      beq_eq_false_iff_ne.2 hne, Bool.false_or]
    cases hc : (s.frame g).bindings.contains name with
    | true => simp [hne, ho]
    | false => simpa using ih

/-! ## Names of closures -/

namespace Renamed

variable {t : Store} (h : s.Renamed t)

include h

theorem chain (g : FrameId) : t.chain g = s.chain g :=
  chain_congr (fun f => by rw [h.frame]) g

theorem hasFrame (hf : s.HasFrame f) : t.HasFrame f := by
  rw [HasFrame, h.frames]
  exact hf

theorem root (g : FrameId) : t.root g = s.root g := by
  rw [Store.root, h.chain]
  rfl

theorem lookup? (g : FrameId) (name : String) : t.lookup? g name = s.lookup? g name := by
  simp only [Store.lookup?, h.chain, h.frame]

theorem ownerBeside? (r g : FrameId) (name : String) :
    t.ownerBeside? r g name = s.ownerBeside? r g name := by
  simp only [Store.ownerBeside?, h.chain, h.frame]

end Renamed

end Store

/-! ## As evaluation does them -/

section

variable {m m' : Machine} {f : FrameId} {name : String} {v : Node} {span : Span}

/-- An assignment fails where a look-up does. -/
theorem assignName_fails_iff :
    (∃ e m', assignName f name v span m = .error e m') ↔
      ∃ e m', evalName name f span m = .error e m' := by
  rw [assignName_run, evalName_run]
  cases ho : m.store.owner? f name with
  | none => simp [Store.lookup?_eq_none_iff.2 ho]
  | some r =>
    cases hl : m.store.lookup? f name with
    | none => simp [Store.lookup?_eq_none_iff.1 hl] at ho
    | some node => simp

theorem assignName_error {e : EvalError} (h : assignName f name v span m = .error e m') :
    e = .unbound name span ∧ m' = m := by
  rw [assignName_run] at h
  cases ho : m.store.owner? f name with
  | none =>
    rw [ho] at h
    cases h
    exact ⟨rfl, rfl⟩
  | some r =>
    rw [ho] at h
    cases h

/-- **Who sees an assignment**: those for whom the name is the same variable. -/
theorem lookup?_assignName (hf : m.store.HasFrame f) (h : assignName f name v span m = .ok () m')
    (g : FrameId) (other : String) :
    m'.store.lookup? g other =
      if other = name ∧ m.store.owner? g name = m.store.owner? f name then some v
      else m.store.lookup? g other := by
  rw [assignName_run] at h
  cases ho : m.store.owner? f name with
  | none =>
    rw [ho] at h
    cases h
  | some r =>
    rw [ho] at h
    cases h
    rw [Store.lookup?_bind (Store.hasFrame_of_owner? hf ho), Store.ownerBeside?_of_owner? ho]

/-- **Who sees a definition**: those in the same tree from whom nothing hides it. Whether the
definition names a closure does not matter. -/
theorem exists_bindGlobal (hforest : m.store.IsForest) (hf : m.store.HasFrame f) (name : String)
    (v : Node) (held : List Ref) :
    ∃ m', bindGlobal held f name v m = .ok () m' ∧ ∀ g other,
      m'.store.lookup? g other =
        if other = name ∧ m.store.root g = m.store.root f ∧
            ∀ o ∈ m.store.chain g, (m.store.frame o).outer ≠ none →
              (m.store.frame o).bindings.contains name = false
        then some v else m.store.lookup? g other := by
  obtain ⟨log, hrun⟩ := bindGlobal_run held f name v m
  refine ⟨_, hrun, fun g other => ?_⟩
  have hnamed := Store.renamed_nameFresh held v.value name m.store
  rw [Store.defineGlobal, hnamed.root,
    Store.lookup?_bind (hnamed.hasFrame (Store.hasFrame_root hf)), hnamed.lookup?,
    hnamed.ownerBeside?]
  simp only [hforest.ownerBeside?_global (hforest.outer_root f)]

end

/-- **Lookup, assignment and definition are coherent.** In every forest of frames, an assignment
from a frame fails if and only if a look-up from there does. It then complains about an unbound
name and changes nothing. If it succeeds, the new value is seen from exactly those frames that
resolved the name where this one did. A definition from a frame is seen from exactly those frames
whose chain ends in the same global frame and has no other frame that binds the name. Whatever else
is looked up is what it was. -/
theorem scopes_are_coherent {m : Machine} (hforest : m.store.IsForest) {f : FrameId}
    (hf : m.store.HasFrame f) (name : String) (v : Node) (span : Span) (held : List Ref) :
    ((∃ e m', assignName f name v span m = .error e m') ↔
        ∃ e m', evalName name f span m = .error e m') ∧
      (∀ e m', assignName f name v span m = .error e m' → e = .unbound name span ∧ m' = m) ∧
      (∀ m', assignName f name v span m = .ok () m' → ∀ g other,
        m'.store.lookup? g other =
          if other = name ∧ m.store.owner? g name = m.store.owner? f name then some v
          else m.store.lookup? g other) ∧
      ∃ m', bindGlobal held f name v m = .ok () m' ∧ ∀ g other,
        m'.store.lookup? g other =
          if other = name ∧ m.store.root g = m.store.root f ∧
              ∀ o ∈ m.store.chain g, (m.store.frame o).outer ≠ none →
                (m.store.frame o).bindings.contains name = false
          then some v else m.store.lookup? g other := by
  exact ⟨assignName_fails_iff, fun _ _ h => assignName_error h,
    fun _ h => lookup?_assignName hf h, exists_bindGlobal hforest hf name v held⟩

/-- Two global frames, and beneath the first one a frame with two beneath it, of which one hides
`x`. From the other one `x` is assigned to and `y` is defined. -/
theorem scopes_are_coherent_beside_namesakes :
    let node (n : Int64) : Node := .integer n default
    let s := (Store.empty.newFrame none ⟨[("x", node 0)]⟩).2
    let s := (s.newFrame none ⟨[("x", node 1)]⟩).2
    let s := (s.enclose [] ⟨0⟩ [("y", node 2)]).2
    let s := (s.enclose [] ⟨2⟩ [("x", node 3)]).2
    let s := (s.enclose [] ⟨2⟩ []).2
    let m : Machine := ⟨s, false, []⟩
    (s.IsForest ∧ s.HasFrame ⟨4⟩) ∧
      (∃ m', assignName ⟨4⟩ "x" (node 5) default m = .ok () m' ∧
        m'.store.lookup? ⟨2⟩ "x" = some (node 5) ∧ m'.store.lookup? ⟨3⟩ "x" = some (node 3) ∧
        m'.store.lookup? ⟨1⟩ "x" = some (node 1)) ∧
      ∃ m', bindGlobal [] ⟨4⟩ "y" (node 6) m = .ok () m' ∧
        m'.store.lookup? ⟨0⟩ "y" = some (node 6) ∧ m'.store.lookup? ⟨4⟩ "y" = some (node 2) ∧
        m'.store.lookup? ⟨1⟩ "y" = none := by
  intro node s₁ s₂ s₃ s₄ s m
  have hforest : m.store.IsForest := by decide +kernel
  have hframe : m.store.HasFrame ⟨4⟩ := by decide +kernel
  have howner : m.store.owner? ⟨4⟩ "x" = some ⟨0⟩ := by decide +kernel
  have hrun := assignName_run ⟨4⟩ "x" (node 5) default m
  rw [howner] at hrun
  obtain ⟨-, -, hassign, -⟩ := scopes_are_coherent hforest hframe "x" (node 5) default []
  obtain ⟨-, -, -, m', hdefine, hseen⟩ :=
    scopes_are_coherent hforest hframe "y" (node 6) default []
  refine ⟨⟨hforest, hframe⟩, ⟨_, hrun, ?_⟩, m', hdefine, ?_⟩
  · simp only [hassign _ hrun]
    decide +kernel
  · simp only [hseen]
    decide +kernel

end MiniScheme
