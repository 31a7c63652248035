import Mathlib.Tactic.Common
import Mathlib.Tactic.Ring
import Mathlib.Data.Nat.Basic

/-!
# Trees of fixed-width tables

A page table is a tree whose nodes are tables of `B` slots. It is `H` tables deep; a slot of a
table holds the next table, or, at the lowest level, a page. A number `v` selects a path: its
base-`B` digits, most significant first, are the slots to follow. Only `top` slots of the root
are used.

All tables and pages of all trees live in one address space `ι`. `Tree link own` says that an
ownership map `own` describes them: each table lies in one tree, at one place; a page may be
shared, but only at one index. The facts below say which walks a change of one slot affects.
-/

namespace PageTree

/-- What an address is used for: a table of the tree `root`, at a level (1 is the lowest) and
an index within the level, or the page for an index. -/
inductive Role (ι : Type) where
  | table (root : ι) (level index : ℕ)
  | leaf (index : ℕ)

/-- The shape of a tree: slots for each table, used slots of the root, tables on each path. -/
structure Shape where
  B : ℕ
  top : ℕ
  H : ℕ
  top_pos : 0 < top
  top_le : top ≤ B
  two_le : 2 ≤ H

namespace Shape

theorem B_pos (S : Shape) : 0 < S.B := Nat.lt_of_lt_of_le S.top_pos S.top_le

/-- Used slots of a table at a level. -/
def width (S : Shape) (l : ℕ) : ℕ := if l = S.H then S.top else S.B

/-- The numbers that select a path. -/
def InRange (S : Shape) (v : ℕ) : Prop := v < S.top * S.B ^ (S.H - 1)

theorem width_le (S : Shape) (l : ℕ) : S.width l ≤ S.B := by
  unfold width
  split
  · exact S.top_le
  · exact le_rfl

theorem width_of_lt (S : Shape) {l : ℕ} (h : l < S.H) : S.width l = S.B := by
  rw [width, if_neg (by omega)]

/-- The slot that `v` selects in its table at level `l`. -/
def slot (S : Shape) (v l : ℕ) : ℕ := v / S.B ^ (l - 1) % S.B

theorem slot_one (S : Shape) (v : ℕ) : S.slot v 1 = v % S.B := by
  simp [slot]

theorem slot_lt (S : Shape) {v l : ℕ} (hv : S.InRange v) : S.slot v l < S.width l := by
  unfold width
  split
  · rename_i h
    have hd : v / S.B ^ (S.H - 1) < S.top := by
      rw [Nat.div_lt_iff_lt_mul (Nat.pow_pos S.B_pos)]
      exact hv
    rw [slot, h, Nat.mod_eq_of_lt (Nat.lt_of_lt_of_le hd S.top_le)]
    exact hd
  · exact Nat.mod_lt _ S.B_pos

/-- Digit by digit: the index one level down is `B` times the index plus the slot. -/
theorem index_step (S : Shape) (v : ℕ) {l : ℕ} (hl : 1 ≤ l) :
    v / S.B ^ l * S.B + S.slot v l = v / S.B ^ (l - 1) := by
  obtain ⟨k, rfl⟩ : ∃ k, l = k + 1 := ⟨l - 1, by omega⟩
  have h : v / S.B ^ (k + 1) = v / S.B ^ k / S.B := by
    rw [pow_succ, Nat.div_div_eq_div_mul]
  simp only [slot, Nat.add_sub_cancel, h]
  exact Nat.div_add_mod' _ _

theorem index_root (S : Shape) {v : ℕ} (hv : S.InRange v) : v / S.B ^ S.H = 0 := by
  apply Nat.div_eq_of_lt
  have h2 := S.two_le
  calc v < S.top * S.B ^ (S.H - 1) := hv
    _ ≤ S.B * S.B ^ (S.H - 1) := Nat.mul_le_mul_right _ S.top_le
    _ = S.B ^ S.H := by
        rw [← pow_succ']
        congr 1
        omega

end Shape

variable {ι : Type}

/-- What slot `i` of the table at level `l`, index `x`, of tree `r` holds. -/
def childRole (S : Shape) (r : ι) (l x i : ℕ) : Role ι :=
  if l = 1 then .leaf (x * S.B + i) else .table r (l - 1) (x * S.B + i)

theorem childRole_one (S : Shape) (r : ι) (x i : ℕ) :
    childRole S r 1 x i = .leaf (x * S.B + i) := rfl

theorem childRole_of_ne (S : Shape) (r : ι) {l : ℕ} (x i : ℕ) (h : l ≠ 1) :
    childRole S r l x i = .table r (l - 1) (x * S.B + i) := if_neg h

/-- `own` describes the tables and pages that `link` connects. -/
structure Tree (S : Shape) (link : ι → ℕ → Option ι) (own : ι → Option (Role ι)) : Prop where
  level : ∀ {t r l x}, own t = some (.table r l x) → 1 ≤ l ∧ l ≤ S.H
  root : ∀ {t r x}, own t = some (.table r S.H x) → t = r ∧ x = 0
  child : ∀ {t r l x i c}, own t = some (.table r l x) → i < S.width l → link t i = some c →
    own c = some (childRole S r l x i)
  parent : ∀ {c r l x}, own c = some (.table r l x) → l < S.H →
    ∃ t, own t = some (.table r (l + 1) (x / S.B)) ∧ x % S.B < S.width (l + 1) ∧
      link t (x % S.B) = some c
  leafParent : ∀ {c v}, own c = some (.leaf v) →
    ∃ r t, own t = some (.table r 1 (v / S.B)) ∧ link t (v % S.B) = some c

/-- `r` is the root of a tree. -/
def IsRoot (S : Shape) (own : ι → Option (Role ι)) (r : ι) : Prop :=
  own r = some (.table r S.H 0)

/-- The address reached from `r` after following `k` slots of the path of `v`. -/
def walk (S : Shape) (link : ι → ℕ → Option ι) (r : ι) (v : ℕ) : ℕ → Option ι
  | 0 => some r
  | k + 1 => (walk S link r v k).bind fun t => link t (S.slot v (S.H - k))

/-- The address is the root of the tree or is reached from it along some path. -/
def Reachable (S : Shape) (link : ι → ℕ → Option ι) (r p : ι) : Prop :=
  ∃ v k, S.InRange v ∧ k ≤ S.H ∧ walk S link r v k = some p

namespace Tree

variable {S : Shape} {link link' : ι → ℕ → Option ι} {own : ι → Option (Role ι)}

/-- A walk that stops above the pages ends in the table its path names. -/
theorem walk_own (T : Tree S link own) {r : ι} (hr : IsRoot S own r) {v : ℕ}
    (hv : S.InRange v) {k : ℕ} (hk : k < S.H) {t : ι} (ht : walk S link r v k = some t) :
    own t = some (.table r (S.H - k) (v / S.B ^ (S.H - k))) := by
  induction k generalizing t with
  | zero =>
    obtain rfl : r = t := Option.some.inj ht
    rw [Nat.sub_zero, S.index_root hv]
    exact hr
  | succ k ih =>
    obtain ⟨u, hu, hl⟩ := Option.bind_eq_some_iff.mp ht
    have hc := T.child (ih (by omega) hu) (S.slot_lt hv) hl
    rw [hc, childRole_of_ne S r _ _ (by omega), S.index_step v (by omega)]
    rfl

/-- A full walk ends in the page for its number. -/
theorem walk_leaf (T : Tree S link own) {r : ι} (hr : IsRoot S own r) {v : ℕ}
    (hv : S.InRange v) {p : ι} (hp : walk S link r v S.H = some p) :
    own p = some (.leaf v) := by
  have h2 := S.two_le
  obtain ⟨k, hk⟩ : ∃ k, S.H = k + 1 := ⟨S.H - 1, by omega⟩
  rw [hk] at hp
  obtain ⟨u, hu, hl⟩ := Option.bind_eq_some_iff.mp hp
  have h1 : S.H - k = 1 := by omega
  have ho := T.walk_own hr hv (by omega) hu
  rw [h1] at ho hl
  have hc := T.child ho (S.slot_lt hv) hl
  rw [hc, childRole_one, S.index_step v le_rfl]
  simp

/-- Tables are unique at their place. -/
theorem table_unique (T : Tree S link own) {t t' r : ι} {l x : ℕ}
    (h : own t = some (.table r l x)) (h' : own t' = some (.table r l x)) : t = t' := by
  have hl := (T.level h).2
  induction hn : S.H - l generalizing t t' l x with
  | zero =>
    obtain rfl : l = S.H := by omega
    exact (T.root h).1.trans (T.root h').1.symm
  | succ n ih =>
    obtain ⟨u, hu, -, hlink⟩ := T.parent h (by omega)
    obtain ⟨u', hu', -, hlink'⟩ := T.parent h' (by omega)
    obtain rfl := ih hu hu' (by omega) (by omega)
    exact Option.some.inj (hlink.symm.trans hlink')

/-- The index of a table is within the range of its level. -/
theorem index_lt (T : Tree S link own) {t r : ι} {l x : ℕ}
    (h : own t = some (.table r l x)) : x * S.B ^ l < S.top * S.B ^ (S.H - 1) := by
  have hl := (T.level h).2
  have hpos : 0 < S.B := S.B_pos
  induction hn : S.H - l generalizing t l x with
  | zero =>
    obtain rfl : l = S.H := by omega
    rw [(T.root h).2, Nat.zero_mul]
    exact Nat.mul_pos S.top_pos (Nat.pow_pos hpos)
  | succ n ih =>
    obtain ⟨u, hu, hw, -⟩ := T.parent h (by omega)
    by_cases htop : l + 1 = S.H
    · -- directly below the root: the index is the slot of the root
      rw [htop] at hu hw
      have hx : x / S.B = 0 := (T.root hu).2
      rw [Shape.width, if_pos rfl] at hw
      have hxlt : x < S.top := by
        have := Nat.div_add_mod x S.B
        rw [hx, Nat.mul_zero, Nat.zero_add] at this
        omega
      have : S.H - 1 = l := by omega
      rw [this]
      exact Nat.mul_lt_mul_of_pos_right hxlt (Nat.pow_pos hpos)
    · have hlt := ih hu (by omega) (by omega)
      -- `x / B * B ^ (l + 1)` is below a multiple of `B ^ (l + 1)`
      have hexp : S.top * S.B ^ (S.H - 1) = S.top * S.B ^ (S.H - 1 - (l + 1)) * S.B ^ (l + 1) := by
        rw [Nat.mul_assoc, ← pow_add]
        congr 2
        omega
      rw [hexp] at hlt ⊢
      have hq : x / S.B < S.top * S.B ^ (S.H - 1 - (l + 1)) :=
        Nat.lt_of_mul_lt_mul_right hlt
      have hx : x < S.top * S.B ^ (S.H - 1 - (l + 1)) * S.B :=
        (Nat.div_lt_iff_lt_mul hpos).mp hq
      calc x * S.B ^ l
          < S.top * S.B ^ (S.H - 1 - (l + 1)) * S.B * S.B ^ l :=
            Nat.mul_lt_mul_of_pos_right hx (Nat.pow_pos hpos)
        _ = S.top * S.B ^ (S.H - 1 - (l + 1)) * S.B ^ (l + 1) := by
            rw [pow_succ]
            ring

/-- The root of the tree of a table. -/
theorem isRoot_of_table (T : Tree S link own) {t r : ι} {l x : ℕ}
    (h : own t = some (.table r l x)) : IsRoot S own r := by
  have hl := (T.level h).2
  induction hn : S.H - l generalizing t l x with
  | zero =>
    obtain rfl : l = S.H := by omega
    obtain ⟨rfl, rfl⟩ := T.root h
    exact h
  | succ n ih =>
    obtain ⟨u, hu, -, -⟩ := T.parent h (by omega)
    exact ih hu (by omega) (by omega)

/-- Every table is found by the walk to its index. -/
theorem walk_of_own (T : Tree S link own) {t r : ι} {l x v : ℕ}
    (h : own t = some (.table r l x)) (hx : v / S.B ^ l = x) :
    walk S link r v (S.H - l) = some t := by
  have hl := (T.level h).2
  induction hn : S.H - l generalizing t l x with
  | zero =>
    obtain rfl : l = S.H := by omega
    rw [(T.root h).1]
    rfl
  | succ n ih =>
    obtain ⟨u, hu, -, hlink⟩ := T.parent h (by omega)
    have hup : v / S.B ^ (l + 1) = x / S.B := by
      rw [pow_succ, ← Nat.div_div_eq_div_mul, hx]
    have hw := ih hu hup (by omega) (by omega)
    have hs : S.slot v (S.H - n) = x % S.B := by
      have : S.H - n - 1 = l := by omega
      rw [Shape.slot, this, hx]
    rw [walk, hw, Option.bind_some, hs]
    exact hlink

/-- The pages of `v` in the tree `r`, read off the ownership map. -/
theorem walk_leaf_iff (T : Tree S link own) {r : ι} (hr : IsRoot S own r) {v : ℕ}
    (hv : S.InRange v) {p : ι} :
    walk S link r v S.H = some p ↔
      ∃ t, own t = some (.table r 1 (v / S.B)) ∧ link t (v % S.B) = some p := by
  have h2 := S.two_le
  obtain ⟨k, hk⟩ : ∃ k, S.H = k + 1 := ⟨S.H - 1, by omega⟩
  have h1 : S.H - k = 1 := by omega
  rw [hk]
  constructor
  · intro h
    obtain ⟨u, hu, hl⟩ := Option.bind_eq_some_iff.mp h
    have ho := T.walk_own hr hv (by omega) hu
    rw [h1] at ho hl
    rw [S.slot_one] at hl
    rw [pow_one] at ho
    exact ⟨u, ho, hl⟩
  · rintro ⟨t, ht, hl⟩
    have hw := T.walk_of_own (v := v) ht (by rw [pow_one])
    have hk1 : S.H - 1 = k := by omega
    rw [hk1] at hw
    rw [walk, hw, Option.bind_some, h1, S.slot_one]
    exact hl

/-- An address is used by a tree exactly if it is reachable from a root. -/
theorem own_iff_reachable (T : Tree S link own) {p : ι} :
    own p ≠ none ↔ ∃ r, IsRoot S own r ∧ Reachable S link r p := by
  constructor
  · intro h
    obtain ⟨role, hrole⟩ := Option.ne_none_iff_exists'.mp h
    cases role with
    | table r l x =>
      have hl := (T.level hrole).2
      refine ⟨r, T.isRoot_of_table hrole, x * S.B ^ l, S.H - l, T.index_lt hrole, by omega, ?_⟩
      exact T.walk_of_own hrole (Nat.mul_div_cancel _ (Nat.pow_pos S.B_pos))
    | leaf v =>
      obtain ⟨r, t, ht, hlink⟩ := T.leafParent hrole
      have hr := T.isRoot_of_table ht
      have hlt := T.index_lt ht
      have hv : S.InRange v := by
        have h2 := S.two_le
        have hexp : S.top * S.B ^ (S.H - 1) = S.top * S.B ^ (S.H - 2) * S.B := by
          rw [Nat.mul_assoc, ← pow_succ]
          congr 2
          omega
        rw [pow_one, hexp] at hlt
        rw [Shape.InRange, hexp]
        exact (Nat.div_lt_iff_lt_mul S.B_pos).mp (Nat.lt_of_mul_lt_mul_right hlt)
      exact ⟨r, hr, v, S.H, hv, le_rfl, (T.walk_leaf_iff hr hv).mpr ⟨t, ht, hlink⟩⟩
  · rintro ⟨r, hr, v, k, hv, hk, hw⟩
    rcases Nat.lt_or_eq_of_le hk with hk | rfl
    · rw [T.walk_own hr hv hk hw]
      exact Option.some_ne_none _
    · rw [T.walk_leaf hr hv hw]
      exact Option.some_ne_none _

/-- What two trees reach is a page that both have at one place. -/
theorem reachable_both (T : Tree S link own) {r r' : ι} (hr : IsRoot S own r) (hr' : IsRoot S own r') (hne : r ≠ r')
    {p : ι} (h : Reachable S link r p) (h' : Reachable S link r' p) :
    ∃ v, S.InRange v ∧ walk S link r v S.H = some p ∧ walk S link r' v S.H = some p := by
  obtain ⟨v, k, hv, hk, hw⟩ := h
  obtain ⟨v', k', hv', hk', hw'⟩ := h'
  obtain hlt | rfl := Nat.lt_or_eq_of_le hk
  · have ht := T.walk_own hr hv hlt hw
    obtain hlt' | rfl := Nat.lt_or_eq_of_le hk'
    · rw [T.walk_own hr' hv' hlt' hw'] at ht
      exact absurd (Role.table.inj (Option.some.inj ht)).1.symm hne
    · rw [T.walk_leaf hr' hv' hw'] at ht
      cases ht
  · have hp := T.walk_leaf hr hv hw
    obtain hlt' | rfl := Nat.lt_or_eq_of_le hk'
    · rw [T.walk_own hr' hv' hlt' hw'] at hp
      cases hp
    · rw [T.walk_leaf hr' hv' hw'] at hp
      cases hp
      exact ⟨v, hv, hw, hw'⟩

end Tree

end PageTree
