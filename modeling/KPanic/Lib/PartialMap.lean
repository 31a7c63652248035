import Mathlib.Logic.Function.Basic

/-!
# Functions to `Option` as maps
-/

namespace PartialMap

open Function

variable {α β γ : Type} [DecidableEq α] {m : α → Option β} {a b : α} {y : β}

/-- The entries that are left without the key `a`. -/
theorem update_none_eq_some : update m a none b = some y ↔ b ≠ a ∧ m b = some y := by
  by_cases hb : b = a
  · rw [hb, update_self]
    exact iff_of_false nofun fun h => h.1 rfl
  · rw [update_of_ne hb]
    exact (and_iff_right hb).symm

/-- What a change of one value keeps of it is kept under every key. -/
theorem map_update {o : Option β} {g : β → γ} (ho : o.map g = (m a).map g) (b : α) :
    (update m a o b).map g = (m b).map g := by
  by_cases hb : b = a
  · rw [hb, update_self, ho]
  · rw [update_of_ne hb]

theorem map_modify {f : β → β} {g : β → γ} (hf : ∀ y, g (f y) = g y) (m : α → Option β) (a b : α) :
    (update m a ((m a).map f) b).map g = (m b).map g := by
  refine map_update ?_ b
  rw [Option.map_map]
  congr 1
  funext y
  exact hf y

end PartialMap
