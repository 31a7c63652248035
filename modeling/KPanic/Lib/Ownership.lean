import Mathlib.Data.List.Nodup
import Mathlib.Data.List.Perm.Basic
import Mathlib.Logic.Function.Basic

/-!
# Resources that are held once

Owners hold lists of resources, and an allocator marks the resources that are taken. `Held` says
that the marked ones are those that are held, each of them once.
-/

namespace Ownership

open Function

variable {ι α : Type} {refs refs' : ι → List α} {marked marked' : α → Prop} {i : ι} {a : α} {l l' : List α}

structure Held (refs : ι → List α) (marked : α → Prop) : Prop where
  once : ∀ i, (refs i).Nodup
  apart : ∀ i j, i ≠ j → ∀ a ∈ refs i, a ∉ refs j
  marked_iff : ∀ a, marked a ↔ ∃ i, a ∈ refs i

theorem Held.mem_marked (h : Held refs marked) (ha : a ∈ refs i) : marked a := (h.marked_iff a).mpr ⟨i, ha⟩

variable [DecidableEq ι]

/-- The order of the resources of an owner does not matter. -/
theorem Held.perm (h : Held (update refs i l) marked) (hl : l'.Perm l) : Held (update refs i l') marked := by
  have hmem : ∀ j a, a ∈ update refs i l' j ↔ a ∈ update refs i l j := by
    intro j a
    by_cases hj : j = i
    · rw [hj, update_self, update_self]
      exact hl.mem_iff
    · rw [update_of_ne hj, update_of_ne hj]
  refine ⟨fun j => ?_, fun j k hjk a ha ha' => ?_, fun a => ?_⟩
  · by_cases hj : j = i
    · have honce := h.once i
      rw [update_self] at honce
      rw [hj, update_self]
      exact hl.nodup_iff.mpr honce
    · have honce := h.once j
      rw [update_of_ne hj] at honce
      rw [update_of_ne hj]
      exact honce
  · exact h.apart j k hjk a ((hmem j a).mp ha) ((hmem k a).mp ha')
  · rw [h.marked_iff]
    exact exists_congr fun j => (hmem j a).symm

/-- An owner gets a resource that was free. -/
theorem Held.take (h : Held (update refs i l) marked) (ha : ¬marked a)
    (hmarked : ∀ b, marked' b ↔ marked b ∨ b = a) : Held (update refs i (a :: l)) marked' := by
  have hmem : ∀ j b, b ∈ update refs i (a :: l) j ↔ b ∈ update refs i l j ∨ j = i ∧ b = a := by
    intro j b
    by_cases hj : j = i
    · rw [hj, update_self, update_self, List.mem_cons]
      tauto
    · rw [update_of_ne hj, update_of_ne hj]
      tauto
  have hfree : ∀ j, a ∉ update refs i l j := fun j hj => ha (h.mem_marked hj)
  refine ⟨fun j => ?_, fun j k hjk b hb hb' => ?_, fun b => ?_⟩
  · by_cases hj : j = i
    · have honce := h.once i
      have hnot := hfree i
      rw [update_self] at honce hnot
      rw [hj, update_self]
      exact List.nodup_cons.mpr ⟨hnot, honce⟩
    · have honce := h.once j
      rw [update_of_ne hj] at honce
      rw [update_of_ne hj]
      exact honce
  · obtain hold | ⟨hj, hba⟩ := (hmem j b).mp hb
    · obtain hold' | ⟨-, hba⟩ := (hmem k b).mp hb'
      · exact h.apart j k hjk b hold hold'
      · rw [hba] at hold
        exact hfree j hold
    · obtain hold' | ⟨hk, -⟩ := (hmem k b).mp hb'
      · rw [hba] at hold'
        exact hfree k hold'
      · exact hjk (hj.trans hk.symm)
  · rw [hmarked, h.marked_iff]
    constructor
    · rintro (⟨j, hj⟩ | hba)
      · exact ⟨j, (hmem j b).mpr (.inl hj)⟩
      · exact ⟨i, (hmem i b).mpr (.inr ⟨rfl, hba⟩)⟩
    · rintro ⟨j, hj⟩
      obtain hold | ⟨-, hba⟩ := (hmem j b).mp hj
      · exact .inl ⟨j, hold⟩
      · exact .inr hba

/-- An owner gives all of its resources back. -/
theorem Held.drop (h : Held refs marked) (hmarked : ∀ b, marked' b ↔ marked b ∧ b ∉ refs i) :
    Held (update refs i []) marked' := by
  have hmem : ∀ j b, b ∈ update refs i [] j ↔ b ∈ refs j ∧ j ≠ i := by
    intro j b
    by_cases hj : j = i
    · rw [hj, update_self]
      simp
    · rw [update_of_ne hj]
      simp [hj]
  refine ⟨fun j => ?_, fun j k hjk b hb hb' => ?_, fun b => ?_⟩
  · by_cases hj : j = i
    · rw [hj, update_self]
      exact List.nodup_nil
    · rw [update_of_ne hj]
      exact h.once j
  · exact h.apart j k hjk b ((hmem j b).mp hb).1 ((hmem k b).mp hb').1
  · rw [hmarked, h.marked_iff]
    constructor
    · rintro ⟨⟨j, hj⟩, hnot⟩
      refine ⟨j, (hmem j b).mpr ⟨hj, ?_⟩⟩
      rintro rfl
      exact hnot hj
    · rintro ⟨j, hj⟩
      obtain ⟨hb, hne⟩ := (hmem j b).mp hj
      exact ⟨⟨j, hb⟩, h.apart j i hne b hb⟩

end Ownership
