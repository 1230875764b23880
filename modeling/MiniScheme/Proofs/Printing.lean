import MiniScheme.Proofs.Unfolding

/-!
# What the printed form depends on

The printed form of a value is the text of its unfolding (`Unfolds.text_eq`). Stores that agree on
all that can be met on the way down unfold a value alike, so they print it alike.

## Results

* `Unfolds.congr`: the unfolding of a value in another store.
* `text_congr`: what the printed form depends on.
-/

namespace MiniScheme.Store

variable {s t : Store} {P : Value → Prop} (hcell : ∀ {c}, P (.pair c) → t.cell c = s.cell c)
  (hhalf : ∀ {c} half, P (.pair c) → P ((s.cell c).half half).value)
  (hname : ∀ {k}, P (.procedure (.closure k)) → (t.closure k).name = (s.closure k).name)

include hname in
theorem leafChars_congr {v : Value} (hv : P v) : t.leafChars v = s.leafChars v := by
  match v with
  | .procedure (.closure k) =>
    unfold leafChars procedureChars
    dsimp only
    rw [hname hv]
  | .procedure (.primitive p) => rfl
  | .atom _ | .nil | .pair _ | .unspecified => rfl

include hcell hhalf hname in
/-- The way down stays among the values of `P` if it starts there. -/
theorem Unfolds.congr {path : List CellId} {v : Value} {u : Unfolding} (h : s.Unfolds path v u)
    (hv : P v) :
    t.Unfolds path v u ∧ u.chars t = u.chars s ∧ u.tailChars t = u.tailChars s := by
  induction h with
  | @leaf path v hleaf =>
    have hchars := leafChars_congr hname hv
    refine ⟨.leaf hleaf, hchars, ?_⟩
    cases v with
    | nil => rfl
    | atom | pair | procedure | unspecified => simp only [Unfolding.tailChars, hchars]
  | cycle hc => exact ⟨.cycle hc, rfl, rfl⟩
  | pair hc _ _ ihcar ihcdr =>
    obtain ⟨hcar, hchars, -⟩ := ihcar (hhalf .car hv)
    obtain ⟨hcdr, -, htail⟩ := ihcdr (hhalf .cdr hv)
    rw [← hcell hv] at hcar hcdr
    refine ⟨.pair hc hcar hcdr, ?_, ?_⟩
    · rw [Unfolding.chars, Unfolding.chars, hchars, htail]
    · rw [Unfolding.tailChars, Unfolding.tailChars, hchars, htail]

include hcell hhalf hname in
/-- **What is printed** of a value depends on the cells below it and on the names of the closures
below it. -/
theorem text_congr {v : Value} (hv : P v) : t.text v = s.text v := by
  obtain ⟨u, hu, -⟩ := s.exists_unfolds [] v
  obtain ⟨hu', hchars, -⟩ := hu.congr hcell hhalf hname hv
  rw [hu.text_eq, hu'.text_eq, hchars]

end MiniScheme.Store
