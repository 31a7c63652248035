import Mathlib.Data.List.Nodup
import Mathlib.Logic.Function.Basic

/-!
# Copying one element after the other

A list of pairs says which place is copied to from which, in this order. A copy that is made later
reads what an earlier one may have written.
-/

namespace SequentialCopy

open Function

variable {α β : Type} [DecidableEq α] {f : α → β} {l : List (α × α)} {a : α}

def copySeq : List (α × α) → (α → β) → α → β
  | [], f => f
  | p :: l, f => copySeq l (update f p.1 (f p.2))

/-- A place that nothing is copied to. -/
theorem copySeq_of_notMem (h : ∀ p ∈ l, p.1 ≠ a) : copySeq l f a = f a := by
  induction l generalizing f with
  | nil => rfl
  | cons p l ih =>
    rw [copySeq, ih fun q hq => h q (List.mem_cons_of_mem p hq), update_of_ne (h p List.mem_cons_self).symm]

/-- A place that nothing is copied to is read as it was at first. -/
theorem copySeq_of_unwritten {q : α × α} (hl : (l.map Prod.fst).Nodup) (hq : q ∈ l) (h : ∀ r ∈ l, r.1 ≠ q.2) :
    copySeq l f q.1 = f q.2 := by
  induction l generalizing f with
  | nil => cases hq
  | cons p l ih =>
    rw [List.map_cons, List.nodup_cons] at hl
    rw [copySeq]
    rcases List.mem_cons.mp hq with rfl | hq
    · have hother : ∀ r ∈ l, r.1 ≠ q.1 := fun r hr heq => hl.1 (heq ▸ List.mem_map_of_mem hr)
      rw [copySeq_of_notMem hother, update_self]
    · rw [ih hl.2 hq fun r hr => h r (List.mem_cons_of_mem p hr), update_of_ne (h p List.mem_cons_self).symm]

/-- The places of `l` get what was there at first exactly if no place is written before it is read, except
with what it holds. -/
theorem copySeq_correct_iff (hl : (l.map Prod.fst).Nodup) :
    (∀ p ∈ l, copySeq l f p.1 = f p.2) ↔ l.Pairwise fun p q => p.1 = q.2 → f p.2 = f q.2 := by
  induction l generalizing f with
  | nil => exact iff_of_true nofun List.Pairwise.nil
  | cons p l ih =>
    have hnodup := hl
    rw [List.map_cons, List.nodup_cons] at hl
    have hother : ∀ q ∈ l, q.1 ≠ p.1 := fun q hq heq => hl.1 (heq ▸ List.mem_map_of_mem hq)
    have hread : ∀ q : α × α, update f p.1 (f p.2) q.2 = f q.2 ↔ (p.1 = q.2 → f p.2 = f q.2) := by
      intro q
      by_cases hq : p.1 = q.2
      · rw [← hq, update_self]
        exact ⟨fun h _ => h, fun h => h rfl⟩
      · rw [update_of_ne (Ne.symm hq)]
        exact iff_of_true rfl fun h => absurd h hq
    -- the pairs of `l` may be judged by `f` when the first copy does not disturb them
    have hsame : (∀ q ∈ l, update f p.1 (f p.2) q.2 = f q.2) →
        ((∀ q ∈ l, copySeq l (update f p.1 (f p.2)) q.1 = f q.2) ↔ l.Pairwise fun q r => q.1 = r.2 → f q.2 = f r.2) := by
      intro hsame
      have hpairs := ih (f := update f p.1 (f p.2)) hl.2
      constructor
      · intro h
        refine (hpairs.mp fun q hq => (h q hq).trans (hsame q hq).symm).imp_of_mem ?_
        intro q r hq hr hqr heq
        rw [← hsame q hq, ← hsame r hr]
        exact hqr heq
      · intro h q hq
        refine (hpairs.mpr (h.imp_of_mem ?_) q hq).trans (hsame q hq)
        intro q r hq hr hqr heq
        rw [hsame q hq, hsame r hr]
        exact hqr heq
    rw [List.pairwise_cons]
    constructor
    · intro h
      have htail : ∀ q ∈ l, copySeq l (update f p.1 (f p.2)) q.1 = f q.2 := fun q hq => h q (List.mem_cons_of_mem p hq)
      have hp : ∀ q ∈ l, p.1 = q.2 → f p.2 = f q.2 := by
        intro q hq heq
        rw [← htail q hq, copySeq_of_unwritten hl.2 hq (fun r hr => heq ▸ hother r hr), ← heq, update_self]
      exact ⟨hp, (hsame fun q hq => (hread q).mpr (hp q hq)).mp htail⟩
    · rintro ⟨hp, htail⟩ q hq
      rcases List.mem_cons.mp hq with rfl | hq
      · rw [copySeq, copySeq_of_notMem hother, update_self]
      · exact (hsame fun q hq => (hread q).mpr (hp q hq)).mpr htail q hq

end SequentialCopy
