import KPanic.Lib.SlotUpdate

/-!
# Some of the trees only

`only K` keeps the trees whose roots are in `K`: their tables, and the pages that they map. The
trees of `K` and the other trees can then be changed independently; only pages are in both.
-/

namespace PageTree

variable {ι : Type} {S : Shape} {link link' : ι → ℕ → Option ι} {own : ι → Option (Role ι)}
  {K : ι → Prop} {r t c p : ι} {l x i v : ℕ}

/-- A tree whose root is in `K` maps the page. -/
def MappedBy (S : Shape) (link : ι → ℕ → Option ι) (own : ι → Option (Role ι)) (K : ι → Prop)
    (p : ι) : Prop :=
  ∃ r t x i, K r ∧ own t = some (.table r 1 x) ∧ i < S.B ∧ link t i = some p

open Classical in
noncomputable def only (S : Shape) (link : ι → ℕ → Option ι) (own : ι → Option (Role ι))
    (K : ι → Prop) (p : ι) : Option (Role ι) :=
  match own p with
  | some (.table r l x) => if K r then some (.table r l x) else none
  | some (.leaf v) => if MappedBy S link own K p then some (.leaf v) else none
  | none => none

theorem only_table : only S link own K t = some (.table r l x) ↔
    own t = some (.table r l x) ∧ K r := by
  unfold only
  split
  · rename_i r' l' x' h
    split
    · rename_i hK
      rw [h]
      constructor
      · intro heq
        cases heq
        exact ⟨rfl, hK⟩
      · exact And.left
    · rename_i hK
      rw [h]
      constructor
      · intro heq
        cases heq
      · rintro ⟨heq, hr⟩
        cases heq
        exact absurd hr hK
  · rename_i v h
    rw [h]
    split <;> simp
  · rename_i h
    rw [h]
    simp

theorem only_leaf : only S link own K p = some (.leaf v) ↔
    own p = some (.leaf v) ∧ MappedBy S link own K p := by
  unfold only
  split
  · rename_i r' l' x' h
    rw [h]
    split <;> simp
  · rename_i v' h
    rw [h]
    split <;> simp [*]
  · rename_i h
    rw [h]
    simp

theorem only_none (h : own p = none) : only S link own K p = none := by
  rw [only, h]

theorem own_of_only {role : Role ι} (h : only S link own K p = some role) : own p = some role := by
  cases role with
  | table r l x => exact (only_table.mp h).1
  | leaf v => exact (only_leaf.mp h).1

namespace Tree

theorem only (T : Tree S link own) (K : ι → Prop) : Tree S link (only S link own K) := by
  constructor
  · intro t r l x h
    exact T.level (only_table.mp h).1
  · intro t r x h
    exact T.root (only_table.mp h).1
  · intro t r l x i c h hi hc
    obtain ⟨ht, hK⟩ := only_table.mp h
    have hrole := T.child ht hi hc
    by_cases hl : l = 1
    · subst hl
      rw [childRole_one] at hrole ⊢
      exact only_leaf.mpr ⟨hrole, r, t, x, i, hK, ht, Nat.lt_of_lt_of_le hi (S.width_le 1), hc⟩
    · rw [childRole_of_ne S r x i hl] at hrole ⊢
      exact only_table.mpr ⟨hrole, hK⟩
  · intro c r l x h hl
    obtain ⟨hc, hK⟩ := only_table.mp h
    obtain ⟨t, ht, hw, hlink⟩ := T.parent hc hl
    exact ⟨t, only_table.mpr ⟨ht, hK⟩, hw, hlink⟩
  · intro c v h
    obtain ⟨hc, r, t, x, i, hK, ht, hi, hlink⟩ := only_leaf.mp h
    have h1 : i < S.width 1 := by
      rw [S.width_of_lt (by have := S.two_le; omega)]
      exact hi
    have hrole := (T.child ht h1 hlink).symm.trans hc
    rw [childRole_one] at hrole
    injection hrole with hrole
    injection hrole with hrole
    rw [← hrole, mul_add_div_self hi, mul_add_mod_self hi]
    exact ⟨r, t, only_table.mpr ⟨ht, hK⟩, hlink⟩

/-- Where there is one tree, `detach` needs no other condition on the page. -/
theorem detachSole [DecidableEq ι] (T : Tree S link own)
    (hsole : ∀ {t r' l x}, own t = some (.table r' l x) → r' = r)
    (ht : own t = some (.table r l x)) (hi : i < S.width l) (hlink : link t i = some c)
    (hs : SetSlot own link link' t i none)
    (hempty : l ≠ 1 → ∀ j, j < S.width (l - 1) → link c j = none) :
    Tree S link' (Function.update own c none) := by
  refine T.detach ht hi hlink hs hempty ?_
  intro hl u ru xu j hu hj hul
  subst hl
  obtain rfl := hsole hu
  have h1 : j < S.width 1 := by
    rw [S.width_of_lt (by have := S.two_le; omega)]
    exact hj
  have hrole := (T.child hu h1 hul).symm.trans (T.child ht hi hlink)
  rw [childRole_one, childRole_one] at hrole
  injection hrole with hrole
  injection hrole with hrole
  obtain ⟨rfl, rfl⟩ := digit_inj hj (Nat.lt_of_lt_of_le hi (S.width_le 1)) hrole
  exact ⟨T.table_unique hu ht, rfl⟩

/-- A tree with an empty root has nothing but the root. -/
theorem only_root (T : Tree S link own)
    (hsole : ∀ {t r' l x}, own t = some (.table r' l x) → r' = r)
    (hempty : ∀ j, j < S.width S.H → link r j = none) (hp : own p ≠ none) : p = r := by
  obtain ⟨r', hr', v, k, hv, hk, hw⟩ := T.own_iff_reachable.mp hp
  obtain rfl := hsole hr'
  have hnone : ∀ m, walk S link r' v (m + 1) = none := by
    intro m
    induction m with
    | zero =>
      show link r' (S.slot v (S.H - 0)) = none
      exact hempty _ (S.slot_lt hv)
    | succ m ih =>
      rw [walk, ih]
      rfl
  cases k with
  | zero => exact (Option.some.inj hw).symm
  | succ k =>
    rw [hnone k] at hw
    cases hw

end Tree

end PageTree
