import Mathlib.Logic.Equiv.Basic
import MiniScheme.Proofs.Code.Layout

/-!
# Replacing a parameter

Two expressions that differ in the name of one parameter: in the parameter list of one `lambda`
expression and throughout its body the symbol `x` is replaced by the symbol `y`. All else is the
same, ranges of text included.

* `Datum.Renamed` is that relation, the way the reader's data have it. The `lambda` expression has
  to stand where it is evaluated, `x` may be neither quoted nor bound again in its body, and `y` may
  not occur in it at all.
* A piece of code stands in a `Zone`: outside of the `lambda` expression, in its parameter list or
  in its body. `Datum.Altered` says zone by zone what the two sides have in common.

Names are replaced by exchanging `x` and `y`. Where `y` does not occur that is the same, and it is
one-to-one.

## Results

* `Zone.rename_reserved`: reserved words stay what they are.
* `Datum.Renamed.altered`: what a replaced parameter means for all other parts of a datum.
-/

namespace MiniScheme

/-- A word with a meaning of its own: one that a special form starts with, or `else`. -/
def isReserved (name : String) : Bool := (Form.ofKeyword? name).isSome || name == elseKeyword

namespace Datum

/-- The symbol's name, when the datum is a symbol. -/
def symbol? : Datum → Option String
  | atom a _ => (Value.atom a).symbol?
  | list _ _ => none

mutual

/-- The datum with `y` in the place of every symbol `x`. -/
def rename (x y : String) : Datum → Datum
  | atom a span => atom (if a = .symbol x then .symbol y else a) span
  | list items span => list (renameAll x y items) span

/-- The same for several data. -/
def renameAll (x y : String) : List Datum → List Datum
  | [] => []
  | d :: ds => d.rename x y :: renameAll x y ds

end

mutual

/-- The roles in which a name occurs in a datum that is read in a role, one for each occurrence. -/
def rolesOf (name : String) (r : Role) : Datum → List Role
  | atom a _ => if a = .symbol name then [r] else []
  | list items _ => rolesOfAll name (r.item (headForm items)) items

/-- The same for several data, each in the role that `roles` gives to its index. -/
def rolesOfAll (name : String) (roles : Nat → Role) : List Datum → List Role
  | [] => []
  | d :: ds => d.rolesOf name (roles 0) ++ rolesOfAll name (fun i => roles (i + 1)) ds

end

/-- **One parameter replaced.** In the datum, which is read in a role, there is a `lambda`
expression that is evaluated. Its parameters are distinct symbols and `x` is one of them; in its
body `x` is neither quoted nor the name that a `define`, a `lambda` or a `let` binds; `y` occurs
nowhere in it. The other datum has `y` in all these places of `x`. -/
inductive Renamed (x y : String) : Role → Datum → Datum → Prop
  | lambda {names : List String} {params : List Datum} {body : Datum} (kspan pspan span : Span)
      (hparams : params.map symbol? = names.map some) (hnodup : names.Nodup) (hx : x ∈ names)
      (hy : y ∉ names)
      (hbody : ∀ r ∈ body.rolesOf x .expression, r ≠ .target ∧ r ≠ .datum)
      (hfresh : body.rolesOf y .expression = []) :
      Renamed x y .expression
        (list [atom (.symbol Form.lambda.keyword) kspan, list params pspan, body] span)
        (list [atom (.symbol Form.lambda.keyword) kspan, list (renameAll x y params) pspan,
          body.rename x y] span)
  | item {r : Role} {before after : List Datum} {d d' : Datum} (span : Span)
      (h : Renamed x y (r.item (headForm (before ++ d :: after)) before.length) d d') :
      Renamed x y r (list (before ++ d :: after) span) (list (before ++ d' :: after) span)

end Datum

/-! ## Zones -/

/-- Where a piece of code stands with respect to the `lambda` expression. -/
inductive Zone where
  /-- around or beside it -/
  | outside
  /-- in its parameter list -/
  | binder
  /-- in its body -/
  | body
deriving DecidableEq

namespace Zone

/-- What a name is replaced by. -/
def rename (x y : String) : Zone → String → String
  | outside, a => a
  | binder, a | body, a => Equiv.swap x y a

/-- The name may occur in the role. -/
def Admits (x y : String) : Zone → Role → String → Prop
  | outside, _, _ => True
  | binder, r, a => r = .target ∧ a ≠ y
  | body, r, a => a ≠ y ∧ (a = x → r ≠ .target ∧ r ≠ .datum)

/-- The two sides of a piece of code that is no pair. -/
inductive Leaf (x y : String) (z : Zone) (r : Role) : Value → Value → Prop
  | name {a : String} (h : z.Admits x y r a) :
      Leaf x y z r (.atom (.symbol a)) (.atom (.symbol (z.rename x y a)))
  | constant {v : Value} (hs : v.symbol? = none) (hp : ∀ c, v ≠ .pair c) : Leaf x y z r v v

/-- The zones of the items of the `lambda` expression. -/
def ofItem : Nat → Zone
  | 0 => outside
  | 1 => binder
  | _ => body

/-- The zones of the items of a list: all in the zone of the list, unless the list is the `lambda`
expression. Then `params` holds of the names of its parameters. -/
inductive Items (x : String) (params : List String → Prop) : Zone → Role → (Nat → Zone) → Prop
  | same (z : Zone) (r : Role) : Items x params z r fun _ => z
  | lambda {names : List String} (h : params names) (hnodup : names.Nodup) (hx : x ∈ names) :
      Items x params .outside .expression ofItem

theorem Items.imp {x : String} {P Q : List String → Prop} (h : ∀ names, P names → Q names)
    {z : Zone} {r : Role} {zones : Nat → Zone} (hz : Items x P z r zones) :
    Items x Q z r zones := by
  cases hz with
  | same => exact .same z r
  | lambda hnames hnodup hx => exact .lambda (h _ hnames) hnodup hx

variable {x y : String} {z : Zone} {r : Role} {v v' : Value} {a : String}

theorem rename_injective (x y : String) (z : Zone) : Function.Injective (z.rename x y) := by
  cases z with
  | outside => exact Function.injective_id
  | binder => exact (Equiv.swap x y).injective
  | body => exact (Equiv.swap x y).injective

theorem rename_of_ne (hx : a ≠ x) (hy : a ≠ y) : z.rename x y a = a := by
  cases z with
  | outside => rfl
  | binder => exact Equiv.swap_apply_of_ne_of_ne hx hy
  | body => exact Equiv.swap_apply_of_ne_of_ne hx hy

/-- A name that is bound or quoted stays, except in the parameter list. -/
theorem Admits.rename_eq (h : z.Admits x y r a) (hz : z ≠ .binder ∨ r = .datum)
    (hr : r = .target ∨ r = .datum) : z.rename x y a = a := by
  cases z with
  | outside => rfl
  | binder =>
    rcases hz with hz | rfl
    · exact absurd rfl hz
    · cases h.1
  | body =>
    refine rename_of_ne (fun hx => ?_) h.1
    obtain ⟨ht, hd⟩ := h.2 hx
    exact hr.elim ht hd

/-- A reserved word is replaced by nothing, and nothing by a reserved word. -/
theorem rename_reserved (hx : isReserved x = false) (hy : isReserved y = false) (z : Zone)
    (a : String) :
    Form.ofKeyword? (z.rename x y a) = Form.ofKeyword? a ∧
      (z.rename x y a = elseKeyword ↔ a = elseKeyword) := by
  simp only [isReserved, Bool.or_eq_false_iff, Option.isSome_eq_false_iff,
    Option.isNone_iff_eq_none, beq_eq_false_iff_ne] at hx hy
  have hswap : Form.ofKeyword? (Equiv.swap x y a) = Form.ofKeyword? a ∧
      (Equiv.swap x y a = elseKeyword ↔ a = elseKeyword) := by
    rw [Equiv.swap_apply_def]
    split
    · rename_i hax
      rw [hax, hx.1, hy.1]
      simp [hx.2, hy.2]
    · split
      · rename_i hay
        rw [hay, hx.1, hy.1]
        simp [hx.2, hy.2]
      · exact ⟨rfl, Iff.rfl⟩
  cases z with
  | outside => exact ⟨rfl, Iff.rfl⟩
  | binder => exact hswap
  | body => exact hswap

namespace Leaf

/-- What stands outside of the `lambda` expression is the same on both sides. -/
theorem outside (x y : String) (r : Role) (hp : ∀ c, v ≠ .pair c) :
    Zone.outside.Leaf x y r v v := by
  match v with
  | .atom (.symbol a) => exact .name (z := .outside) trivial
  | .atom (.integer _) | .atom (.boolean _) | .nil | .procedure _ | .unspecified =>
    exact .constant rfl hp
  | .pair c => exact absurd rfl (hp c)

theorem refs_eq (h : z.Leaf x y r v v') : v'.refs = v.refs := by
  cases h <;> rfl

theorem typeName_eq (h : z.Leaf x y r v v') : v'.typeName = v.typeName := by
  cases h <;> rfl

theorem symbol?_eq (h : z.Leaf x y r v v') : v'.symbol? = v.symbol?.map (z.rename x y) := by
  cases h with
  | name => rfl
  | constant hs _ => simp [hs]

theorem not_pair (h : z.Leaf x y r v v') : (∀ c, v ≠ .pair c) ∧ ∀ c, v' ≠ .pair c := by
  cases h with
  | name => exact ⟨nofun, nofun⟩
  | constant _ hp => exact ⟨hp, hp⟩

/-- What is bound or quoted is the same on both sides, except in the parameter list. -/
theorem eq_of_fixed (h : z.Leaf x y r v v') (hz : z ≠ .binder ∨ r = .datum)
    (hr : r = .target ∨ r = .datum) : v' = v := by
  cases h with
  | name ha => rw [ha.rename_eq hz hr]
  | constant => rfl

end Leaf

end Zone

/-! ## Data -/

namespace Datum

variable {x y : String} {z : Zone} {r : Role}

/-- The list is a `lambda` expression whose parameters are the given names. -/
def Parameters (items : List Datum) (names : List String) : Prop :=
  ∃ head params span body, items = [head, list params span, body] ∧
    headForm items = some .lambda ∧ params.map symbol? = names.map some

/-- What two data have in common that are read in a role and stand in a zone: all but the names
that the zone replaces. -/
inductive Altered (x y : String) : Zone → Role → Datum → Datum → Prop
  | atom {z : Zone} {r : Role} {a a' : Atom} (span : Span)
      (h : z.Leaf x y r (.atom a) (.atom a')) : Altered x y z r (.atom a span) (.atom a' span)
  | list {z : Zone} {r : Role} {items items' : List Datum} {zones : Nat → Zone} (span : Span)
      (hlength : items.length = items'.length) (hz : Zone.Items x (Parameters items) z r zones)
      (hi : ∀ {i d d'}, items[i]? = some d → items'[i]? = some d' →
        Altered x y (zones i) (r.item (headForm items) i) d d') :
      Altered x y z r (.list items span) (.list items' span)

/-- The first items name the same form, since the names that are replaced are not reserved. -/
theorem headForm_eq_of_altered (hx : isReserved x = false) (hy : isReserved y = false)
    {items items' : List Datum} {zones : Nat → Zone} {roles : Nat → Role}
    (hlength : items.length = items'.length)
    (hi : ∀ {i d d'}, items[i]? = some d → items'[i]? = some d' →
      Altered x y (zones i) (roles i) d d') : headForm items' = headForm items := by
  match items, items' with
  | [], [] => rfl
  | [], _ :: _ | _ :: _, [] => cases hlength
  | d :: ds, d' :: ds' =>
    have hd := hi (i := 0) rfl rfl
    cases hd with
    | list => rfl
    | atom _ h =>
      simp only [headForm]
      rw [h.symbol?_eq]
      cases (Value.atom _).symbol? with
      | none => rfl
      | some a => exact (Zone.rename_reserved hx hy _ a).1

mutual

/-- Outside of the `lambda` expression nothing is replaced. -/
theorem altered_refl : ∀ (r : Role) (d : Datum), Altered x y .outside r d d
  | r, .atom a span => .atom span (.outside x y r fun c hc => by cases hc)
  | r, .list items span =>
    .list span rfl (.same _ _) fun {i d d'} hd hd' => by
      cases hd.symm.trans hd'
      exact altered_refl_of_mem items _ hd

theorem altered_refl_of_mem : ∀ (ds : List Datum) (r : Role) {i : Nat} {d : Datum},
    ds[i]? = some d → Altered x y .outside r d d
  | d :: _, r, 0, _, h => by
    cases h
    exact altered_refl r d
  | _ :: ds, r, i + 1, _, h => altered_refl_of_mem ds r (i := i) h

end

theorem length_renameAll (x y : String) (ds : List Datum) :
    (renameAll x y ds).length = ds.length := by
  induction ds with
  | nil => rfl
  | cons d ds ih => exact congrArg (· + 1) ih

/-- Exchanging is replacing where the new name does not occur. -/
theorem leaf_rename {a : Atom} (hz : z ≠ .outside)
    (h : ∀ name, a = .symbol name → z.Admits x y r name ∧ name ≠ y) :
    z.Leaf x y r (.atom a) (.atom (if a = .symbol x then .symbol y else a)) := by
  cases a with
  | symbol name =>
    obtain ⟨hadmits, hy⟩ := h name rfl
    have hname : z.rename x y name = if name = x then y else name := by
      cases z with
      | outside => exact absurd rfl hz
      | binder => simp only [Zone.rename, Equiv.swap_apply_def, if_neg hy]
      | body => simp only [Zone.rename, Equiv.swap_apply_def, if_neg hy]
    have heq : (if (Atom.symbol name) = .symbol x then Atom.symbol y else .symbol name) =
        .symbol (z.rename x y name) := by
      rw [hname]
      by_cases hx : name = x
      · simp [hx]
      · simp [hx]
    rw [heq]
    exact .name hadmits
  | integer n => exact .constant rfl nofun
  | boolean b => exact .constant rfl nofun

mutual

/-- The body with its names replaced. -/
theorem altered_rename : ∀ (r : Role) (d : Datum),
    (∀ r' ∈ d.rolesOf x r, r' ≠ .target ∧ r' ≠ .datum) → d.rolesOf y r = [] →
    Altered x y .body r d (d.rename x y)
  | r, .atom a span, hx, hy => .atom span (leaf_rename (by decide) fun name hname => by
      subst hname
      have hne : name ≠ y := by
        rintro rfl
        simp [rolesOf] at hy
      refine ⟨⟨hne, ?_⟩, hne⟩
      rintro rfl
      exact hx r (by simp [rolesOf]))
  | r, .list items span, hx, hy =>
    .list span (length_renameAll x y items).symm (.same _ _) fun {i d d'} hd hd' =>
      altered_renameAll _ items hx hy hd hd'

theorem altered_renameAll : ∀ (roles : Nat → Role) (ds : List Datum),
    (∀ r' ∈ rolesOfAll x roles ds, r' ≠ .target ∧ r' ≠ .datum) → rolesOfAll y roles ds = [] →
    ∀ {i : Nat} {d d' : Datum}, ds[i]? = some d → (renameAll x y ds)[i]? = some d' →
      Altered x y .body (roles i) d d'
  | roles, d :: ds, hx, hy, 0, _, _, hd, hd' => by
    cases hd
    cases hd'
    rw [rolesOfAll, List.append_eq_nil_iff] at hy
    exact altered_rename (roles 0) d (fun r' hr => hx r' (List.mem_append_left _ hr)) hy.1
  | roles, d :: ds, hx, hy, i + 1, _, _, hd, hd' => by
    rw [rolesOfAll, List.append_eq_nil_iff] at hy
    exact altered_renameAll (fun i => roles (i + 1)) ds
      (fun r' hr => hx r' (List.mem_append_right _ hr)) hy.2 (i := i) hd hd'

end

/-- The parameter list with its names replaced. -/
theorem altered_parameters {names : List String} {params : List Datum} (span : Span)
    (hparams : params.map symbol? = names.map some) (hy : y ∉ names) :
    Altered x y .binder .parameters (list params span) (list (renameAll x y params) span) := by
  refine .list span (length_renameAll x y params).symm (.same _ _) fun {i d d'} hd hd' => ?_
  have hrole : Role.parameters.item (headForm params) i = .target := by
    cases headForm params <;> rfl
  rw [hrole]
  clear hrole
  induction params generalizing names i with
  | nil => cases hd
  | cons p ps ih =>
    match names, hparams with
    | name :: names, hparams =>
      obtain ⟨hp, hps⟩ := List.cons.inj hparams
      rw [List.mem_cons, not_or] at hy
      obtain ⟨hne, hys⟩ := hy
      cases i with
      | succ i => exact ih hps hys hd hd'
      | zero =>
        cases hd
        cases hd'
        match d, hp with
        | .atom a pspan, hp =>
          refine .atom pspan (leaf_rename nofun ?_)
          rintro other rfl
          cases hp
          exact ⟨⟨rfl, Ne.symm hne⟩, Ne.symm hne⟩

/-- **One parameter replaced**, part by part. -/
theorem Renamed.altered {d d' : Datum} (h : Renamed x y r d d') :
    Altered x y .outside r d d' := by
  induction h with
  | @lambda names params body kspan pspan span hparams hnodup hx hy hbody hfresh =>
    have hhead : headForm [atom (.symbol Form.lambda.keyword) kspan, list params pspan, body] =
        some .lambda := by
      change Form.ofKeyword? Form.lambda.keyword = some .lambda
      decide
    refine .list span rfl (.lambda ⟨_, _, _, _, rfl, hhead, hparams⟩ hnodup hx)
      fun {i d d'} hd hd' => ?_
    rw [hhead]
    match i, hd, hd' with
    | 0, rfl, rfl => exact altered_refl _ _
    | 1, rfl, rfl => exact altered_parameters pspan hparams hy
    | 2, rfl, rfl => exact altered_rename _ body hbody hfresh
  | @item r before after d d' span _ ih =>
    refine .list span (by simp) (.same _ _) fun {i e e'} he he' => ?_
    by_cases hi : i < before.length
    · rw [List.getElem?_append_left hi] at he he'
      cases he.symm.trans he'
      exact altered_refl _ e
    · rw [List.getElem?_append_right (by omega)] at he he'
      by_cases heq : i = before.length
      · subst heq
        rw [Nat.sub_self] at he he'
        cases he
        cases he'
        exact ih
      · obtain ⟨j, hj⟩ : ∃ j, i - before.length = j + 1 := ⟨i - before.length - 1, by omega⟩
        rw [hj, List.getElem?_cons_succ] at he he'
        cases he.symm.trans he'
        exact altered_refl _ e

end Datum

end MiniScheme
