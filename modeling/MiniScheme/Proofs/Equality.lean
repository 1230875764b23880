import Mathlib.Data.Finset.Prod
import MiniScheme.Store.Equality

/-!
# Equality is equality of unfoldings

Two nodes have the same unfolding when no difference can be reached by following the halves of pairs
on both sides in step, for ever if need be. `Store.Bisimilar` says so without a walk: some relation
holds of the two nodes, it holds only of nodes that look alike, and with two pairs it holds of their
halves.

A comparison takes two cells for equal once it has met them together, also while it is still
comparing them, and never goes back on that. If it finds no difference then what it has met in the
end is such a relation, up to cells that are compared with themselves (`Assumes` is what each of its
three functions does to the pairs met so far). Of bisimilar nodes it never says that they differ,
since all that it compares is bisimilar then. And it ends, whatever it compares: two cells are
opened together only once, so no more calls and rounds are ever open than twice the pairs of cells
that were not met yet.

## Results

* `Bisimilar.agrees`, `Bisimilar.refl`, `Bisimilar.symm`, `Bisimilar.trans`: bisimilarity by itself.
* `looks_of_nodesMatch`, `seen_of_pairsMatch`, `looks_of_restsMatch`: a comparison that finds no
  difference.
* `nodesMatch_ne_false` and its two companions: a comparison of what is bisimilar.
* `nodesMatch_ends` and its two companions: a comparison with enough fuel, equal or not.
* `equality_is_bisimilarity`: equality of nodes.
-/

namespace MiniScheme

/-- No two primitives have the same name. -/
theorem Primitive.name_injective {p q : Primitive} (h : p.name = q.name) : p = q := by
  have hall : ∀ p ∈ all, ∀ q ∈ all, p.name = q.name → p = q := by decide
  exact hall p p.mem_all q q.mem_all h

/-- Two values that are no pairs and cannot be told apart: the same atom, two empty lists, two
unspecified values, primitives of the same name, or the same closure. -/
inductive Value.SameLeaf : Value → Value → Prop
  | atom (a : Atom) : SameLeaf (.atom a) (.atom a)
  | nil : SameLeaf .nil .nil
  | primitive {p q : Primitive} (h : p.name = q.name) :
      SameLeaf (.procedure (.primitive p)) (.procedure (.primitive q))
  | closure (k : ClosureId) : SameLeaf (.procedure (.closure k)) (.procedure (.closure k))
  | unspecified : SameLeaf .unspecified .unspecified

namespace Value

theorem SameLeaf.eq {v w : Value} (h : v.SameLeaf w) : v = w := by
  cases h with
  | primitive h => rw [Primitive.name_injective h]
  | atom | nil | closure | unspecified => rfl

theorem SameLeaf.ne_pair {v w : Value} (h : v.SameLeaf w) (c : CellId) : v ≠ .pair c := by
  rintro rfl
  cases h

theorem sameLeaf_self {v : Value} (h : ∀ c, v ≠ .pair c) : v.SameLeaf v := by
  match v with
  | .atom a => exact .atom a
  | .nil => exact .nil
  | .pair c => exact absurd rfl (h c)
  | .procedure (.primitive p) => exact .primitive rfl
  | .procedure (.closure k) => exact .closure k
  | .unspecified => exact .unspecified

theorem SameLeaf.symm {v w : Value} (h : v.SameLeaf w) : w.SameLeaf v := by
  have hne := h.ne_pair
  obtain rfl := h.eq
  exact sameLeaf_self hne

end Value

namespace Store

variable {s : Store} {a b c : Node}

/-! ## Bisimilarity -/

/-- The nodes have the same range, and they are indistinguishable leaves or pairs of which `R`
relates the halves. -/
inductive Agrees (s : Store) (R : Node → Node → Prop) : Node → Node → Prop
  | leaf {v w : Value} {span : Span} (h : v.SameLeaf w) : Agrees s R ⟨v, span⟩ ⟨w, span⟩
  | pair {c d : CellId} {span : Span} (car : R (s.cell c).car (s.cell d).car)
      (cdr : R (s.cell c).cdr (s.cell d).cdr) : Agrees s R ⟨.pair c, span⟩ ⟨.pair d, span⟩

/-- The nodes are related by some relation that no difference escapes. -/
def Bisimilar (s : Store) (a b : Node) : Prop :=
  ∃ R : Node → Node → Prop, (∀ {a b}, R a b → s.Agrees R a b) ∧ R a b

theorem Agrees.imp {R S : Node → Node → Prop} (h : s.Agrees R a b) (hRS : ∀ {a b}, R a b → S a b) :
    s.Agrees S a b := by
  cases h with
  | leaf h => exact .leaf h
  | pair car cdr => exact .pair (hRS car) (hRS cdr)

theorem agrees_self {R : Node → Node → Prop} (hR : ∀ a, R a a) (a : Node) : s.Agrees R a a := by
  obtain ⟨v, span⟩ := a
  by_cases hv : ∃ c, v = .pair c
  · obtain ⟨c, rfl⟩ := hv
    exact .pair (hR _) (hR _)
  · exact .leaf (Value.sameLeaf_self fun c hc => hv ⟨c, hc⟩)

namespace Bisimilar

/-- Bisimilarity is itself a relation that no difference escapes. -/
theorem agrees (h : s.Bisimilar a b) : s.Agrees s.Bisimilar a b := by
  obtain ⟨R, hR, hab⟩ := h
  exact (hR hab).imp fun hab => ⟨R, hR, hab⟩

theorem refl (s : Store) (a : Node) : s.Bisimilar a a := by
  refine ⟨Eq, ?_, rfl⟩
  rintro a _ rfl
  exact agrees_self (fun _ => rfl) a

theorem symm (h : s.Bisimilar a b) : s.Bisimilar b a := by
  refine ⟨fun a b => s.Bisimilar b a, fun {a b} hab => ?_, h⟩
  cases hab.agrees with
  | leaf h => exact .leaf h.symm
  | pair car cdr => exact .pair car cdr

theorem trans (h : s.Bisimilar a b) (h' : s.Bisimilar b c) : s.Bisimilar a c := by
  refine ⟨fun a c => ∃ b, s.Bisimilar a b ∧ s.Bisimilar b c, ?_, b, h, h'⟩
  rintro a c ⟨b, hab, hbc⟩
  cases hab.agrees with
  | leaf h =>
    obtain rfl := h.eq
    cases hbc.agrees with
    | leaf h' => exact .leaf h'
    | pair => cases h
  | pair car cdr =>
    cases hbc.agrees with
    | leaf h' => cases h'
    | pair car' cdr' => exact .pair ⟨_, car, car'⟩ ⟨_, cdr, cdr'⟩

end Bisimilar

/-! ## A comparison that finds no difference -/

/-- The nodes have the same range, and they are indistinguishable leaves or pairs whose cells are
the same or related by `T`. -/
inductive Looks (T : CellId → CellId → Prop) : Node → Node → Prop
  | leaf {v w : Value} {span : Span} (h : v.SameLeaf w) : Looks T ⟨v, span⟩ ⟨w, span⟩
  | pair {c d : CellId} {span : Span} (h : c = d ∨ T c d) : Looks T ⟨.pair c, span⟩ ⟨.pair d, span⟩

/-- The halves of the two cells look alike. -/
def HalvesLook (s : Store) (T : CellId → CellId → Prop) (c d : CellId) : Prop :=
  Looks T (s.cell c).car (s.cell d).car ∧ Looks T (s.cell c).cdr (s.cell d).cdr

theorem looks_self (T : CellId → CellId → Prop) (a : Node) : Looks T a a := by
  obtain ⟨v, span⟩ := a
  by_cases hv : ∃ c, v = .pair c
  · obtain ⟨c, rfl⟩ := hv
    exact .pair (.inl rfl)
  · exact .leaf (Value.sameLeaf_self fun c hc => hv ⟨c, hc⟩)

/-- Cells that are closed under looking at their halves make a relation that no difference
escapes. -/
theorem bisimilar_of_looks {T : CellId → CellId → Prop} (hT : ∀ {c d}, T c d → s.HalvesLook T c d)
    (h : Looks T a b) : s.Bisimilar a b := by
  refine ⟨Looks T, fun {a b} hab => ?_, h⟩
  cases hab with
  | leaf h => exact .leaf h
  | pair h =>
    rcases h with rfl | h
    · exact .pair (looks_self T _) (looks_self T _)
    · exact .pair (hT h).1 (hT h).2

/-- The two cells have been met together. -/
def Seen (seen : CellPairSet) (c d : CellId) : Prop := seen.contains (c, d) = true

theorem seen_insert {seen : CellPairSet} {c d c' d' : CellId} :
    Seen (seen.insert (c, d)) c' d' ↔ (c = c' ∧ d = d') ∨ Seen seen c' d' := by
  rw [Seen, CellPairSet.contains_insert, Bool.or_eq_true, decide_eq_true_eq, Prod.mk.injEq]
  rfl

theorem Looks.imp {T T' : CellId → CellId → Prop} (h : Looks T a b)
    (hT : ∀ {c d}, T c d → T' c d) : Looks T' a b := by
  cases h with
  | leaf h => exact .leaf h
  | pair h => exact .pair (h.imp_right hT)

theorem HalvesLook.imp {T T' : CellId → CellId → Prop} {c d : CellId} (h : s.HalvesLook T c d)
    (hT : ∀ {c d}, T c d → T' c d) : s.HalvesLook T' c d :=
  ⟨h.1.imp hT, h.2.imp hT⟩

/-- What a comparison makes of the cells met so far: it keeps them, and the halves of those that it
adds look alike as far as they have been met in the end. -/
structure Assumes (s : Store) (seen seen' : CellPairSet) : Prop where
  keeps : ∀ {c d}, Seen seen c d → Seen seen' c d
  looks : ∀ {c d}, Seen seen' c d → Seen seen c d ∨ s.HalvesLook (Seen seen') c d

theorem Assumes.refl (s : Store) (seen : CellPairSet) : s.Assumes seen seen := ⟨id, .inl⟩

/-- Two cells that are opened: the first halves are compared, and then what follows. -/
theorem Assumes.open {seen seen₁ seen' : CellPairSet} {c d : CellId}
    (hcars : s.Assumes (seen.insert (c, d)) seen₁)
    (hcar : Looks (Seen seen₁) (s.cell c).car (s.cell d).car) (hrests : s.Assumes seen₁ seen')
    (hcdr : Looks (Seen seen') (s.cell c).cdr (s.cell d).cdr) :
    s.Assumes seen seen' ∧ Seen seen' c d := by
  refine ⟨⟨fun h => ?_, fun {c' d'} h => ?_⟩, ?_⟩
  · exact hrests.keeps (hcars.keeps (seen_insert.2 (.inr h)))
  · rcases hrests.looks h with h | h
    · rcases hcars.looks h with h | h
      · -- the two cells that were opened are no longer only assumed to be equal
        rcases seen_insert.1 h with ⟨rfl, rfl⟩ | h
        · exact .inr ⟨hcar.imp hrests.keeps, hcdr⟩
        · exact .inl h
      · exact .inr (h.imp hrests.keeps)
    · exact .inr h
  · exact hrests.keeps (hcars.keeps (seen_insert.2 (.inl ⟨rfl, rfl⟩)))

theorem exists_of_ifEqual {found : Option (Bool × CellPairSet)}
    {next : CellPairSet → Option (Bool × CellPairSet)} {seen' : CellPairSet}
    (h : ifEqual found next = some (true, seen')) :
    ∃ seen, found = some (true, seen) ∧ next seen = some (true, seen') := by
  unfold ifEqual at h
  split at h
  · exact ⟨_, rfl, h⟩
  · rename_i hne
    exact absurd h (hne seen')

/-! Each of the three functions keeps what it was given and adds cells whose halves look alike; the
recursion is that of the functions, on the fuel. -/

mutual

theorem looks_of_nodesMatch {fuel : Nat} {seen seen' : CellPairSet} {a b : Node}
    (h : s.nodesMatch fuel seen a b = some (true, seen')) :
    s.Assumes seen seen' ∧ Looks (Seen seen') a b := by
  match fuel, a, b with
  | 0, _, _ => cases h
  | fuel + 1, ⟨v, span⟩, ⟨w, span'⟩ =>
    unfold nodesMatch at h
    dsimp only at h
    split at h
    · cases h
    rename_i hspan
    obtain rfl : span = span' := not_not.1 hspan
    split at h
    · split at h
      · rename_i hcd
        cases h
        exact ⟨.refl s _, .pair (.inl hcd)⟩
      · obtain ⟨hassumes, hseen⟩ := seen_of_pairsMatch h
        exact ⟨hassumes, .pair (.inr hseen)⟩
    · rw [Option.some_inj, Prod.mk.injEq, decide_eq_true_eq] at h
      obtain ⟨rfl, rfl⟩ := h
      exact ⟨.refl s _, looks_self _ _⟩
termination_by fuel

theorem seen_of_pairsMatch {fuel : Nat} {seen seen' : CellPairSet} {c d : CellId}
    (h : s.pairsMatch fuel seen c d = some (true, seen')) :
    s.Assumes seen seen' ∧ Seen seen' c d := by
  match fuel with
  | 0 => cases h
  | fuel + 1 =>
    unfold pairsMatch at h
    split at h
    · rename_i hseen
      cases h
      exact ⟨.refl s _, hseen⟩
    · obtain ⟨seen₁, hcars, hrests⟩ := exists_of_ifEqual h
      obtain ⟨hcars, hcar⟩ := looks_of_nodesMatch hcars
      obtain ⟨hrests, hcdr⟩ := looks_of_restsMatch hrests
      exact hcars.open hcar hrests hcdr
termination_by fuel

theorem looks_of_restsMatch {fuel : Nat} {seen seen' : CellPairSet} {a b : Node}
    (h : s.restsMatch fuel seen a b = some (true, seen')) :
    s.Assumes seen seen' ∧ Looks (Seen seen') a b := by
  match fuel, a, b with
  | 0, _, _ => cases h
  | fuel + 1, ⟨v, span⟩, ⟨w, span'⟩ =>
    unfold restsMatch at h
    dsimp only at h
    split at h
    · cases h
    rename_i hspan
    obtain rfl : span = span' := not_not.1 hspan
    split at h
    · split at h
      · rename_i hcd
        cases h
        exact ⟨.refl s _, .pair hcd⟩
      · obtain ⟨seen₁, hcars, hrests⟩ := exists_of_ifEqual h
        obtain ⟨hcars, hcar⟩ := looks_of_nodesMatch hcars
        obtain ⟨hrests, hcdr⟩ := looks_of_restsMatch hrests
        obtain ⟨hassumes, hseen⟩ := hcars.open hcar hrests hcdr
        exact ⟨hassumes, .pair (.inr hseen)⟩
    · rw [Option.some_inj, Prod.mk.injEq, decide_eq_true_eq] at h
      obtain ⟨rfl, rfl⟩ := h
      exact ⟨.refl s _, looks_self _ _⟩
termination_by fuel

end

/-- **A comparison that finds no difference** starts from bisimilar nodes. -/
theorem bisimilar_of_compareNodes {fuel : Nat} (h : s.compareNodes fuel a b = some true) :
    s.Bisimilar a b := by
  obtain ⟨v, span⟩ := a
  obtain ⟨w, span'⟩ := b
  obtain ⟨equal, hvalues, hspan⟩ := Option.map_eq_some_iff.1 h
  rw [Bool.and_eq_true, beq_iff_eq] at hspan
  obtain ⟨rfl, rfl⟩ := hspan
  dsimp only at hvalues
  unfold compareValues at hvalues
  split at hvalues
  · obtain ⟨⟨_, seen⟩, hpairs, rfl⟩ := Option.map_eq_some_iff.1 hvalues
    obtain ⟨hassumes, hseen⟩ := seen_of_pairsMatch hpairs
    refine bisimilar_of_looks (fun hcd => (hassumes.looks hcd).resolve_left ?_) (.pair (.inr hseen))
    rw [Seen, show (.empty : CellPairSet).contains _ = false from Std.TreeSet.contains_emptyc]
    exact Bool.false_ne_true
  · rw [Option.some_inj, decide_eq_true_eq] at hvalues
    obtain rfl := hvalues
    exact .refl s _

/-! ## A comparison of what is bisimilar

All that is compared is bisimilar then, so no difference is ever found. That there is an answer is
another matter. -/

theorem ifEqual_ne_false {found : Option (Bool × CellPairSet)}
    {next : CellPairSet → Option (Bool × CellPairSet)} {seen' : CellPairSet}
    (h : ∀ seen, found ≠ some (false, seen)) (hnext : ∀ seen, next seen ≠ some (false, seen')) :
    ifEqual found next ≠ some (false, seen') := by
  unfold ifEqual
  split
  · exact hnext _
  · exact h seen'

mutual

theorem nodesMatch_ne_false (fuel : Nat) (seen : CellPairSet) {a b : Node} (hab : s.Bisimilar a b)
    (seen' : CellPairSet) : s.nodesMatch fuel seen a b ≠ some (false, seen') := by
  match fuel with
  | 0 => nofun
  | fuel + 1 =>
    cases hab.agrees with
    | leaf h =>
      obtain rfl := h.eq
      unfold nodesMatch
      dsimp only
      rw [if_neg (not_not.2 rfl)]
      split
      · exact absurd rfl (h.ne_pair _)
      · simp
    | pair car cdr =>
      unfold nodesMatch
      dsimp only
      rw [if_neg (not_not.2 rfl)]
      split
      · nofun
      · exact pairsMatch_ne_false fuel seen car cdr seen'
termination_by fuel

theorem pairsMatch_ne_false (fuel : Nat) (seen : CellPairSet) {c d : CellId}
    (car : s.Bisimilar (s.cell c).car (s.cell d).car)
    (cdr : s.Bisimilar (s.cell c).cdr (s.cell d).cdr) (seen' : CellPairSet) :
    s.pairsMatch fuel seen c d ≠ some (false, seen') := by
  match fuel with
  | 0 => nofun
  | fuel + 1 =>
    unfold pairsMatch
    split
    · nofun
    · exact ifEqual_ne_false (nodesMatch_ne_false fuel _ car)
        fun seen => restsMatch_ne_false fuel seen cdr seen'
termination_by fuel

theorem restsMatch_ne_false (fuel : Nat) (seen : CellPairSet) {a b : Node} (hab : s.Bisimilar a b)
    (seen' : CellPairSet) : s.restsMatch fuel seen a b ≠ some (false, seen') := by
  match fuel with
  | 0 => nofun
  | fuel + 1 =>
    cases hab.agrees with
    | leaf h =>
      obtain rfl := h.eq
      unfold restsMatch
      dsimp only
      rw [if_neg (not_not.2 rfl)]
      split
      · exact absurd rfl (h.ne_pair _)
      · simp
    | pair car cdr =>
      unfold restsMatch
      dsimp only
      rw [if_neg (not_not.2 rfl)]
      split
      · nofun
      · exact ifEqual_ne_false (nodesMatch_ne_false fuel _ car)
          fun seen => restsMatch_ne_false fuel seen cdr seen'
termination_by fuel

end

/-- **A comparison of bisimilar nodes** never finds a difference. -/
theorem compareNodes_ne_false (fuel : Nat) (hab : s.Bisimilar a b) :
    s.compareNodes fuel a b ≠ some false := by
  intro hfalse
  obtain ⟨equal, hvalues, hspan⟩ := Option.map_eq_some_iff.1 hfalse
  cases hab.agrees with
  | leaf h =>
    obtain rfl := h.eq
    dsimp only at hvalues
    unfold compareValues at hvalues
    split at hvalues
    · exact absurd rfl (h.ne_pair _)
    · simp at hvalues hspan
      rw [hvalues] at hspan
      cases hspan
  | pair car cdr =>
    obtain ⟨⟨_, seen⟩, hpairs, rfl⟩ := Option.map_eq_some_iff.1 hvalues
    simp only [BEq.rfl, Bool.and_true] at hspan
    exact pairsMatch_ne_false fuel .empty car cdr seen (hspan ▸ hpairs)

/-! ## A comparison that ends -/

/-- The cell that a node names. -/
def cellOf? (n : Node) : Option CellId :=
  match n.value with
  | .pair c => some c
  | _ => none

/-- The cells that a node or a half of some cell names. -/
def namedFrom (s : Store) (n : Node) : Finset CellId :=
  ((n :: s.cells.toList.flatMap fun k => [k.car, k.cdr]).filterMap cellOf?).toFinset

/-- All cells that the node names are in the set. -/
def NamesIn (U : Finset CellId) (n : Node) : Prop := ∀ c, cellOf? n = some c → c ∈ U

/-- All cells that the half of a cell names are in the set. -/
def HalvesIn (s : Store) (U : Finset CellId) : Prop := ∀ c half, NamesIn U ((s.cell c).half half)

theorem card_namedFrom_le (s : Store) (n : Node) : (s.namedFrom n).card ≤ 2 * s.cells.size + 1 := by
  refine (List.toFinset_card_le _).trans ((List.length_filterMap_le _ _).trans ?_)
  rw [List.length_cons, List.length_flatMap]
  simp [Nat.mul_comm]

theorem namesIn_namedFrom (s : Store) (n : Node) : NamesIn (s.namedFrom n) n := by
  intro c hc
  exact List.mem_toFinset.2 (List.mem_filterMap.2 ⟨n, List.mem_cons_self, hc⟩)

/-- What the halves of a cell name is named from everywhere. -/
theorem halvesIn_namedFrom (s : Store) (n : Node) : s.HalvesIn (s.namedFrom n) := by
  intro c half d hd
  by_cases hc : c.index < s.cells.size
  · refine List.mem_toFinset.2 (List.mem_filterMap.2 ⟨_, List.mem_cons_of_mem _ ?_, hd⟩)
    refine List.mem_flatMap.2 ⟨s.cell c, ?_, ?_⟩
    · rw [cell, Array.getElem?_eq_getElem hc, Option.getD_some]
      exact Array.getElem_mem_toList hc
    · cases half <;> simp [Cell.half]
  · rw [cell_of_size_le (Nat.le_of_not_lt hc)] at hd
    cases half <;> cases hd

/-- The number of pairs of cells in two sets that were not met yet. -/
def unmet (U V : Finset CellId) (seen : CellPairSet) : Nat :=
  {p ∈ U ×ˢ V | seen.contains p = false}.card

theorem unmet_le (U V : Finset CellId) (seen : CellPairSet) :
    unmet U V seen ≤ U.card * V.card := by
  rw [← Finset.card_product]
  exact Finset.card_filter_le _ _

/-- Two cells that are met together are met from then on. -/
theorem unmet_insert_lt {U V : Finset CellId} {seen : CellPairSet} {c d : CellId} (hc : c ∈ U)
    (hd : d ∈ V) (hseen : seen.contains (c, d) = false) :
    unmet U V (seen.insert (c, d)) < unmet U V seen := by
  refine Finset.card_lt_card (Finset.ssubset_iff_of_subset ?_ |>.2 ⟨(c, d), ?_, ?_⟩)
  · refine Finset.monotone_filter_right _ fun p _ hp => ?_
    rw [CellPairSet.contains_insert, Bool.or_eq_false_iff] at hp
    exact hp.2
  · exact Finset.mem_filter.2 ⟨Finset.mk_mem_product hc hd, hseen⟩
  · rw [Finset.mem_filter, CellPairSet.contains_insert]
    simp

/-- There is an answer, and at most `n` pairs of cells are left that were not met by then. -/
def EndsWithin (U V : Finset CellId) (n : Nat) (found : Option (Bool × CellPairSet)) : Prop :=
  ∃ equal seen, found = some (equal, seen) ∧ unmet U V seen ≤ n

theorem EndsWithin.ifEqual {U V : Finset CellId} {n : Nat} {found : Option (Bool × CellPairSet)}
    {next : CellPairSet → Option (Bool × CellPairSet)} (h : EndsWithin U V n found)
    (hnext : ∀ seen, unmet U V seen ≤ n → EndsWithin U V n (next seen)) :
    EndsWithin U V n (ifEqual found next) := by
  obtain ⟨equal, seen, rfl, hseen⟩ := h
  cases equal with
  | false => exact ⟨false, seen, rfl, hseen⟩
  | true => exact hnext seen hseen

theorem EndsWithin.mono {U V : Finset CellId} {n m : Nat} {found : Option (Bool × CellPairSet)}
    (h : EndsWithin U V n found) (hnm : n ≤ m) : EndsWithin U V m found := by
  obtain ⟨equal, seen, rfl, hseen⟩ := h
  exact ⟨equal, seen, rfl, hseen.trans hnm⟩

mutual

theorem nodesMatch_ends {U V : Finset CellId} (hU : s.HalvesIn U) (hV : s.HalvesIn V) {fuel : Nat}
    {seen : CellPairSet} {a b : Node} (ha : NamesIn U a) (hb : NamesIn V b)
    (hfuel : 2 * unmet U V seen + 2 ≤ fuel) :
    EndsWithin U V (unmet U V seen) (s.nodesMatch fuel seen a b) := by
  match fuel, a, b with
  | 0, _, _ => omega
  | fuel + 1, ⟨v, span⟩, ⟨w, span'⟩ =>
    unfold nodesMatch
    dsimp only
    split
    · exact ⟨_, _, rfl, le_rfl⟩
    split
    · split
      · exact ⟨_, _, rfl, le_rfl⟩
      · exact pairsMatch_ends hU hV (ha _ rfl) (hb _ rfl) (by omega)
    · exact ⟨_, _, rfl, le_rfl⟩
termination_by fuel

theorem pairsMatch_ends {U V : Finset CellId} (hU : s.HalvesIn U) (hV : s.HalvesIn V) {fuel : Nat}
    {seen : CellPairSet} {c d : CellId} (hc : c ∈ U) (hd : d ∈ V)
    (hfuel : 2 * unmet U V seen + 1 ≤ fuel) :
    EndsWithin U V (unmet U V seen) (s.pairsMatch fuel seen c d) := by
  match fuel with
  | 0 => omega
  | fuel + 1 =>
    unfold pairsMatch
    split
    · exact ⟨_, _, rfl, le_rfl⟩
    · rename_i hnew
      have hless := unmet_insert_lt hc hd (Bool.not_eq_true _ ▸ hnew)
      refine (EndsWithin.ifEqual (nodesMatch_ends hU hV (hU c .car) (hV d .car) (by omega))
        fun seen₁ hseen => ?_).mono hless.le
      exact (restsMatch_ends hU hV (hU c .cdr) (hV d .cdr) (by omega)).mono hseen
termination_by fuel

theorem restsMatch_ends {U V : Finset CellId} (hU : s.HalvesIn U) (hV : s.HalvesIn V) {fuel : Nat}
    {seen : CellPairSet} {a b : Node} (ha : NamesIn U a) (hb : NamesIn V b)
    (hfuel : 2 * unmet U V seen + 1 ≤ fuel) :
    EndsWithin U V (unmet U V seen) (s.restsMatch fuel seen a b) := by
  match fuel, a, b with
  | 0, _, _ => omega
  | fuel + 1, ⟨v, span⟩, ⟨w, span'⟩ =>
    unfold restsMatch
    dsimp only
    split
    · exact ⟨_, _, rfl, le_rfl⟩
    split
    · rename_i c d
      split
      · exact ⟨_, _, rfl, le_rfl⟩
      · rename_i hnew
        have hless := unmet_insert_lt (ha c rfl) (hb d rfl)
          (Bool.not_eq_true _ ▸ (not_or.1 hnew).2)
        refine (EndsWithin.ifEqual (nodesMatch_ends hU hV (hU c .car) (hV d .car) (by omega))
          fun seen₁ hseen => ?_).mono hless.le
        exact (restsMatch_ends hU hV (hU c .cdr) (hV d .cdr) (by omega)).mono hseen
    · exact ⟨_, _, rfl, le_rfl⟩
termination_by fuel

end

/-- The fuel of a comparison is enough for every pair of cells that it can meet. -/
theorem unmet_le_compareFuel (s : Store) (a b : Node) :
    2 * unmet (s.namedFrom a) (s.namedFrom b) .empty + 1 ≤ s.compareFuel := by
  have hle := (unmet_le (s.namedFrom a) (s.namedFrom b) .empty).trans
    (Nat.mul_le_mul (s.card_namedFrom_le a) (s.card_namedFrom_le b))
  unfold compareFuel
  rw [Nat.mul_assoc]
  omega

/-- **Every comparison ends**, whether there is a difference or not, given the fuel of a comparison
or more. -/
theorem exists_compareNodes (s : Store) (a b : Node) {fuel : Nat} (h : s.compareFuel ≤ fuel) :
    ∃ equal, s.compareNodes fuel a b = some equal := by
  have hvalues : ∃ equal, s.compareValues fuel a.value b.value = some equal := by
    unfold compareValues
    split
    · rename_i c d hc hd
      obtain ⟨equal, seen, hpairs, -⟩ := pairsMatch_ends (s.halvesIn_namedFrom a)
        (s.halvesIn_namedFrom b) (s.namesIn_namedFrom a c (by rw [cellOf?, hc]))
        (s.namesIn_namedFrom b d (by rw [cellOf?, hd])) ((s.unmet_le_compareFuel a b).trans h)
      exact ⟨equal, by rw [hpairs]; rfl⟩
    · exact ⟨_, rfl⟩
  obtain ⟨equal, hvalues⟩ := hvalues
  exact ⟨_, by rw [compareNodes, hvalues]; rfl⟩

/-- **A comparison decides bisimilarity**, given the fuel of a comparison or more. -/
theorem compareNodes_eq (s : Store) (a b : Node) {fuel : Nat} (h : s.compareFuel ≤ fuel) :
    ∃ equal, s.compareNodes fuel a b = some equal ∧ (equal = true ↔ s.Bisimilar a b) := by
  obtain ⟨equal, hequal⟩ := s.exists_compareNodes a b h
  refine ⟨equal, hequal, fun htrue => ?_, fun hab => ?_⟩
  · exact bisimilar_of_compareNodes (htrue ▸ hequal)
  · cases equal with
    | true => rfl
    | false => exact absurd hequal (compareNodes_ne_false fuel hab)

end Store

/-- **Equality is equality of unfoldings.** In every store, with or without cycles, the comparison
of two nodes ends, whether they are equal or not: with the fuel of a comparison or more it has an
answer, and more fuel makes no difference. Two nodes are equal if and only if they are bisimilar: no
difference in range, kind or leaf can be reached by following the halves of pairs on both sides in
step. So equality of nodes is an equivalence. -/
theorem equality_is_bisimilarity (s : Store) :
    (∀ a b fuel, s.compareFuel ≤ fuel → s.compareNodes fuel a b = some (s.nodesEqual a b)) ∧
      (∀ a b, s.nodesEqual a b = true ↔ s.Bisimilar a b) ∧
      Equivalence fun a b => s.nodesEqual a b = true := by
  have hiff (a b : Node) : s.nodesEqual a b = true ↔ s.Bisimilar a b := by
    obtain ⟨equal, hequal, hiff⟩ := s.compareNodes_eq a b le_rfl
    rwa [Store.nodesEqual, hequal]
  refine ⟨fun a b fuel hfuel => ?_, hiff, ?_, ?_, ?_⟩
  · obtain ⟨equal, hequal, hbisimilar⟩ := s.compareNodes_eq a b hfuel
    rw [hequal, Option.some_inj, Bool.eq_iff_iff, hbisimilar, hiff]
  · exact fun a => (hiff a a).2 (.refl s a)
  · exact fun {a b} hab => (hiff b a).2 ((hiff a b).1 hab).symm
  · exact fun {a b c} hab hbc => (hiff a c).2 (((hiff a b).1 hab).trans ((hiff b c).1 hbc))

/-- A ring of one cell and a ring of two cells that hold the same. -/
example :
    let ring (i : Nat) : Node := ⟨.pair ⟨i⟩, default⟩
    let s : Store := { Store.empty with cells := #[⟨.integer 7 default, ring 0⟩,
      ⟨.integer 7 default, ring 2⟩, ⟨.integer 7 default, ring 1⟩] }
    s.nodesEqual (ring 0) (ring 1) = true := by
  decide +kernel

end MiniScheme
