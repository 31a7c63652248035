import Mathlib.Logic.Function.Basic

/-!
# Test-and-set locks

Any number of locks, each a flag. `own t l` says that thread `t` is past the test of lock `l`. A thread that finds the
flag unset, and sets it, becomes the only owner; the owner resets the flag.
-/

namespace TestAndSet

open Function

variable {T L : Type} [DecidableEq L] {own own' : T → L → Prop} {flag flag' : L → Bool} {t : T} {l : L}

structure Guarded (own : T → L → Prop) (flag : L → Bool) : Prop where
  set : ∀ {t l}, own t l → flag l = true
  once : ∀ {t u l}, own t l → own u l → t = u

omit [DecidableEq L] in
theorem Guarded.not_own (h : Guarded own flag) (hl : flag l = false) : ¬own t l := by
  intro hown
  have hset := h.set hown
  rw [hl] at hset
  cases hset

omit [DecidableEq L] in
/-- Nobody becomes an owner. -/
theorem Guarded.keep (h : Guarded own flag) (hown : ∀ x k, own' x k → own x k) : Guarded own' flag where
  set hx := h.set (hown _ _ hx)
  once hx hy := h.once (hown _ _ hx) (hown _ _ hy)

/-- The flag is found unset, and set. -/
theorem Guarded.take (h : Guarded own flag) (hl : flag l = false)
    (hown : ∀ x k, own' x k → own x k ∨ x = t ∧ k = l) : Guarded own' (update flag l true) where
  set {x k} hx := by
    by_cases hk : k = l
    · rw [hk, update_self]
    · rw [update_of_ne hk]
      obtain hold | ⟨-, heq⟩ := hown x k hx
      · exact h.set hold
      · exact absurd heq hk
  once {x y k} hx hy := by
    obtain hx | ⟨rfl, rfl⟩ := hown x k hx
    · obtain hy | ⟨rfl, rfl⟩ := hown y k hy
      · exact h.once hx hy
      · exact absurd hx (h.not_own hl)
    · obtain hy | ⟨rfl, -⟩ := hown y k hy
      · exact absurd hy (h.not_own hl)
      · rfl

/-- The owner resets the flag. -/
theorem Guarded.drop (h : Guarded own flag) (hl : own t l) (hown : ∀ x k, own' x k → own x k ∧ ¬(x = t ∧ k = l)) :
    Guarded own' (update flag l false) where
  set {x k} hx := by
    obtain ⟨hold, hne⟩ := hown x k hx
    have hk : k ≠ l := by
      rintro rfl
      exact hne ⟨h.once hold hl, rfl⟩
    rw [update_of_ne hk]
    exact h.set hold
  once hx hy := h.once (hown _ _ hx).1 (hown _ _ hy).1

end TestAndSet
