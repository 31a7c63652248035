import Mathlib.Data.List.Nodup
import Mathlib.Logic.Function.Basic
import Mathlib.Tactic.Common

/-!
# Linked lists

A list is a head and a `next` for each element, which ends the list when it is `none`. Several lists with
heads `κ` share one `next`, so an element is on one of them at most, and on none it has no `next`.
-/

namespace LinkedList

open Function

variable {ι κ : Type} {next next' : ι → Option ι} {head : Option ι} {l l' xs ys : List ι} {a p : ι}

/-- The elements from `head` on. -/
def Linked (next : ι → Option ι) : Option ι → List ι → Prop
  | head, [] => head = none
  | head, a :: l => head = some a ∧ Linked next (next a) l

theorem Linked.congr (h : Linked next head l) (hsame : ∀ a ∈ l, next' a = next a) : Linked next' head l := by
  induction l generalizing head with
  | nil => exact h
  | cons a l ih =>
    refine ⟨h.1, ?_⟩
    rw [hsame a List.mem_cons_self]
    exact ih h.2 fun b hb => hsame b (List.mem_cons_of_mem a hb)

theorem Linked.unique (h : Linked next head l) (h' : Linked next head l') : l = l' := by
  induction l generalizing head l' with
  | nil =>
    cases l' with
    | nil => rfl
    | cons a l' => exact absurd (h.symm.trans h'.1) (Option.some_ne_none a).symm
  | cons a l ih =>
    cases l' with
    | nil => exact absurd (h.1.symm.trans h') (Option.some_ne_none a)
    | cons b l' =>
      obtain rfl := Option.some.inj (h.1.symm.trans h'.1)
      rw [ih h.2 h'.2]

/-- The list from an element of a list on. -/
theorem Linked.behind (h : Linked next head (xs ++ a :: ys)) : Linked next (some a) (a :: ys) := by
  induction xs generalizing head with
  | nil => exact ⟨rfl, h.2⟩
  | cons x xs ih => exact ih h.2

/-- A list that ends meets no element twice. -/
theorem Linked.nodup (h : Linked next head l) : l.Nodup := by
  induction l generalizing head with
  | nil => exact List.nodup_nil
  | cons a l ih =>
    refine List.nodup_cons.mpr ⟨fun ha => ?_, ih h.2⟩
    obtain ⟨xs, ys, rfl⟩ := List.append_of_mem ha
    have hagain : a :: (xs ++ a :: ys) = a :: ys := Linked.unique ⟨rfl, h.2⟩ h.2.behind
    have hlength := congrArg List.length hagain
    rw [List.length_cons, List.length_append, List.length_cons] at hlength
    omega

variable [DecidableEq ι] [DecidableEq κ]

theorem Linked.push (h : Linked next head l) (ha : a ∉ l) : Linked (update next a head) (some a) (a :: l) := by
  refine ⟨rfl, ?_⟩
  rw [update_self]
  exact h.congr fun b hb => update_of_ne (ne_of_mem_of_not_mem hb ha) _ _

/-- The element `a` behind `p` is taken out. -/
theorem Linked.unlink (h : Linked next head (xs ++ p :: a :: ys)) :
    Linked (update next p (next a)) head (xs ++ p :: ys) := by
  have hnodup := h.nodup
  induction xs generalizing head with
  | nil =>
    obtain ⟨hhead, hp, hrest⟩ := h
    refine ⟨hhead, ?_⟩
    rw [update_self]
    rw [List.nil_append, List.nodup_cons] at hnodup
    exact hrest.congr fun b hb => update_of_ne (ne_of_mem_of_not_mem (List.mem_cons_of_mem a hb) hnodup.1) _ _
  | cons x xs ih =>
    rw [List.cons_append, List.nodup_cons] at hnodup
    refine ⟨h.1, ?_⟩
    rw [update_of_ne fun heq => hnodup.1 (by simp [heq])]
    exact ih h.2 hnodup.2

/-! ### Several lists -/

structure Lists (next : ι → Option ι) (heads : κ → Option ι) (lists : κ → List ι) : Prop where
  linked : ∀ k, Linked next (heads k) (lists k)
  apart : ∀ {k k' a}, a ∈ lists k → a ∈ lists k' → k = k'
  off : ∀ {a}, (∀ k, a ∉ lists k) → next a = none

variable {heads : κ → Option ι} {lists : κ → List ι} {k : κ}

theorem Lists.empty (κ ι : Type) : Lists (fun _ : ι => none) (fun _ : κ => none) fun _ => [] :=
  ⟨fun _ => rfl, nofun, fun _ => rfl⟩

omit [DecidableEq ι] in
/-- One list is replaced by another one of which the others know nothing. -/
theorem Lists.replace {h : Option ι} (L : Lists next heads lists) (hl : Linked next' h l)
    (hsame : ∀ k', k' ≠ k → ∀ a ∈ lists k', next' a = next a) (hnew : ∀ a ∈ l, ∀ k', k' ≠ k → a ∉ lists k')
    (hoff : ∀ a, a ∉ l → (∀ k', k' ≠ k → a ∉ lists k') → next' a = none) :
    Lists next' (update heads k h) (update lists k l) where
  linked k' := by
    by_cases hk : k' = k
    · rw [hk, update_self, update_self]
      exact hl
    · rw [update_of_ne hk, update_of_ne hk]
      exact (L.linked k').congr (hsame k' hk)
  apart {k₁ k₂ a} h₁ h₂ := by
    by_cases hk₁ : k₁ = k
    · by_cases hk₂ : k₂ = k
      · rw [hk₁, hk₂]
      · rw [hk₁, update_self] at h₁
        rw [update_of_ne hk₂] at h₂
        exact absurd h₂ (hnew a h₁ k₂ hk₂)
    · rw [update_of_ne hk₁] at h₁
      by_cases hk₂ : k₂ = k
      · rw [hk₂, update_self] at h₂
        exact absurd h₁ (hnew a h₂ k₁ hk₁)
      · rw [update_of_ne hk₂] at h₂
        exact L.apart h₁ h₂
  off {a} ha := by
    refine hoff a ?_ fun k' hk => ?_
    · have hself := ha k
      rwa [update_self] at hself
    · have hother := ha k'
      rwa [update_of_ne hk] at hother

omit [DecidableEq ι] [DecidableEq κ] in
theorem Lists.eq_nil (L : Lists next heads lists) (hk : heads k = none) : lists k = [] := by
  have hlinked := L.linked k
  rw [hk] at hlinked
  exact hlinked.unique rfl

omit [DecidableEq ι] [DecidableEq κ] in
theorem Lists.eq_cons (L : Lists next heads lists) (hk : heads k = some a) :
    ∃ l, lists k = a :: l ∧ Linked next (some a) (a :: l) := by
  have hlinked := L.linked k
  rw [hk] at hlinked
  cases hl : lists k with
  | nil =>
    rw [hl] at hlinked
    cases hlinked
  | cons b l =>
    rw [hl] at hlinked
    obtain rfl := Option.some.inj hlinked.1
    exact ⟨l, rfl, hlinked⟩

theorem Lists.push (L : Lists next heads lists) (k : κ) (ha : ∀ k, a ∉ lists k) :
    Lists (update next a (heads k)) (update heads k (some a)) (update lists k (a :: lists k)) := by
  refine L.replace ((L.linked k).push (ha k)) (fun k' _ b hb => update_of_ne (ne_of_mem_of_not_mem hb (ha k')) _ _)
    (fun b hb k' hk => ?_) fun b hb hothers => ?_
  · rcases List.mem_cons.mp hb with rfl | hb
    · exact ha k'
    · exact fun hb' => hk (L.apart hb' hb)
  · rw [List.mem_cons, not_or] at hb
    rw [update_of_ne hb.1]
    refine L.off fun k' => ?_
    by_cases hk : k' = k
    · rw [hk]
      exact hb.2
    · exact hothers k' hk

/-- The first element is taken out. -/
theorem Lists.behead (L : Lists next heads lists) (hk : lists k = a :: l) :
    Lists (update next a none) (update heads k (next a)) (update lists k l) := by
  have hlinked := L.linked k
  rw [hk] at hlinked
  have hnodup := List.nodup_cons.mp hlinked.nodup
  have hhere : a ∈ lists k := hk ▸ List.mem_cons_self
  refine L.replace (hlinked.2.congr fun b hb => update_of_ne (ne_of_mem_of_not_mem hb hnodup.1) _ _)
    (fun k' hk' b hb => update_of_ne (fun heq => hk' (L.apart (heq ▸ hb) hhere)) _ _) (fun b hb k' hk' hb' => ?_)
    fun b hb hothers => ?_
  · exact hk' (L.apart hb' (hk ▸ List.mem_cons_of_mem a hb))
  · by_cases hba : b = a
    · rw [hba, update_self]
    · rw [update_of_ne hba]
      refine L.off fun k' => ?_
      by_cases hkk : k' = k
      · rw [hkk, hk, List.mem_cons, not_or]
        exact ⟨hba, hb⟩
      · exact hothers k' hkk

/-- The element `a` behind `p` is taken out. -/
theorem Lists.unlink (L : Lists next heads lists) (hk : lists k = xs ++ p :: a :: ys) :
    Lists (update (update next p (next a)) a none) heads (update lists k (xs ++ p :: ys)) := by
  have hlinked := L.linked k
  rw [hk] at hlinked
  have hnodup := hlinked.nodup
  have hmem : ∀ b, b ∈ lists k ↔ b = a ∨ b ∈ xs ++ p :: ys := by
    intro b
    rw [hk]
    simp only [List.mem_append, List.mem_cons]
    tauto
  have hfresh : a ∉ xs ++ p :: ys := by
    intro ha
    rw [List.nodup_append] at hnodup
    simp only [List.nodup_cons, List.mem_cons] at hnodup
    rcases List.mem_append.mp ha with ha | ha
    · exact hnodup.2.2 a ha a (by simp) rfl
    · rcases List.mem_cons.mp ha with heq | ha
      · exact hnodup.2.1.1 (.inl heq.symm)
      · exact hnodup.2.1.2.1 ha
  have hhere : p ∈ lists k := (hmem p).mpr (.inr (by simp))
  have hself : heads = update heads k (heads k) := (update_eq_self k heads).symm
  rw [hself]
  refine L.replace (hlinked.unlink.congr fun b hb => update_of_ne (ne_of_mem_of_not_mem hb hfresh) _ _)
    (fun k' hk' b hb => ?_) (fun b hb k' hk' hb' => ?_) fun b hb hothers => ?_
  · have hba : b ≠ a := fun heq => hk' (L.apart (heq ▸ hb) ((hmem a).mpr (.inl rfl)))
    have hbp : b ≠ p := fun heq => hk' (L.apart (heq ▸ hb) hhere)
    rw [update_of_ne hba, update_of_ne hbp]
  · exact hk' (L.apart hb' ((hmem b).mpr (.inr hb)))
  · by_cases hba : b = a
    · rw [hba, update_self]
    · have hbp : b ≠ p := fun heq => hb (by simp [heq])
      rw [update_of_ne hba, update_of_ne hbp]
      refine L.off fun k' => ?_
      by_cases hkk : k' = k
      · rw [hkk, hmem, not_or]
        exact ⟨hba, hb⟩
      · exact hothers k' hkk

end LinkedList
