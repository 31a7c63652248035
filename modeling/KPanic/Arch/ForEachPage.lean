import KPanic.Arch.PageHierarchy

/-!
# The loops over the mapped pages

The rule for `forEachPage`: an invariant that is indexed by the virtual page reached so far, kept
by the body on mapped pages, and by the step over pages that are not mapped.
-/

namespace KPanic

open PageTree
open Wp

variable {own : Own} {memory : ℕ → Page} {r t l x v : ℕ} {s : Kernel}
  {body : ℕ → ℕ → ℕ → Kern PUnit} {I : ℕ → Kernel → Prop}

/-- `s` has the tree at `r` that `own` and `memory` describe. -/
def SameTables (own : Own) (memory : ℕ → Page) (r : ℕ) (s : Kernel) : Prop :=
  ∀ t l x i, own t = some (.table r l x) → i < paging.width l →
    link s.memory t i = link memory t i ∧
      (present.get (s.memory t i) ≠ 0 → size.get (s.memory t i) = 0)

theorem skip_pages (hskip : ∀ v s, I v s → space own memory r v = none → I (v + 1) s) {a : ℕ}
    (n : ℕ) (hnone : ∀ v, a ≤ v → v < a + n → space own memory r v = none) (h : I a s) :
    I (a + n) s := by
  induction n with
  | zero => exact h
  | succ n ih =>
    have hn := ih fun v hle hlt => hnone v hle (by omega)
    exact hskip (a + n) s hn (hnone (a + n) (by omega) (by omega))

/-- An empty slot of a table at level `l` stands for `512 ^ (l - 1)` pages that are not mapped. -/
theorem space_none_of_link (T : Tree paging (link memory) own) {i : ℕ}
    (ht : own t = some (.table r l x)) (hi : i < paging.width l) (hlink : link memory t i = none)
    (hv : v / PAGE_TABLE_ENTRIES ^ (l - 1) = x * PAGE_TABLE_ENTRIES + i) :
    space own memory r v = none := by
  by_contra hmapped
  have hlev := T.level ht
  have hr := T.isRoot_of_table ht
  have hrange : paging.InRange v := by
    obtain ⟨y, hy⟩ := Option.ne_none_iff_exists'.mp hmapped
    obtain ⟨u, hu, -⟩ := (space_iff T).mp hy
    exact inRange_of_table T hu
  obtain ⟨hown, hpres⟩ := tables_of_walk T hr hrange hmapped hlev.1 hlev.2
  have hiB : i < PAGE_TABLE_ENTRIES := Nat.lt_of_lt_of_le hi (paging.width_le l)
  have hstep := paging.index_step v hlev.1
  rw [paging_B, hv] at hstep
  have hdig := digit_inj (paging.slot_lt hrange |>.trans_le (paging.width_le l)) hiB hstep
  rw [placeOf, hdig.1] at hown
  rw [T.table_unique hown ht, hdig.2] at hpres
  rw [link, target_of_present hpres] at hlink
  cases hlink

/-- The loops from level `l` on, by induction on the level. -/
theorem wp_forEachPage_level (T : Tree paging (link memory) own)
    (hsrc : ∀ v s, I v s → SameTables own memory r s)
    (hskip : ∀ v s, I v s → space own memory r v = none → I (v + 1) s)
    (hbody : ∀ v s t, I v s → paging.InRange v → own t = some (placeOf r 1 v) →
      space own memory r v ≠ none →
      wp OutOfMemory (body t (paging.slot v 1) v) (fun _ => I (v + 1)) s)
    (hl : l ≤ 4) (ht : own t = some (.table r l x))
    (h : I (x * PAGE_TABLE_ENTRIES * PAGE_TABLE_ENTRIES ^ (l - 1)) s) :
    wp OutOfMemory (ArchMemory.forEachPage body l t x)
      (fun _ => I ((x * PAGE_TABLE_ENTRIES + paging.width l) * PAGE_TABLE_ENTRIES ^ (l - 1))) s := by
  induction l generalizing t x s with
  | zero =>
    have := (T.level ht).1
    omega
  | succ l ih =>
    have hwidth : (if l + 1 = 4 then PAGE_MAP_LEVEL_4_ENTRIES / 2 else PAGE_TABLE_ENTRIES) =
        paging.width (l + 1) := rfl
    rw [ArchMemory.forEachPage, hwidth]
    rw [Nat.add_sub_cancel] at h ⊢
    refine wp_forUpTo (I := fun i => I ((x * PAGE_TABLE_ENTRIES + i) * PAGE_TABLE_ENTRIES ^ l))
      (by rwa [Nat.add_zero]) ?_
    intro i s' hi hI
    obtain ⟨hlink, hsize⟩ := hsrc _ _ hI t (l + 1) x i ht hi
    have hiB : i < PAGE_TABLE_ENTRIES := Nat.lt_of_lt_of_le hi (paging.width_le _)
    have hnext : (x * PAGE_TABLE_ENTRIES + (i + 1)) * PAGE_TABLE_ENTRIES ^ l =
        (x * PAGE_TABLE_ENTRIES + i) * PAGE_TABLE_ENTRIES ^ l + PAGE_TABLE_ENTRIES ^ l := by ring
    have hpos : 0 < PAGE_TABLE_ENTRIES ^ l := Nat.pow_pos (by decide)
    rw [wp_bind, wp_entry]
    refine wp_ite (fun hpres => ?_) fun hpres => ?_
    · have hchild : link memory t i = some (page_ppn.get (s'.memory t i)) := by
        rw [← hlink]
        exact target_of_present hpres
      generalize page_ppn.get (s'.memory t i) = c at hchild ⊢
      have hcrole := T.child ht hi hchild
      have hbelow : wp OutOfMemory
          (if l = 0 then body t i (x * PAGE_TABLE_ENTRIES + i)
            else ArchMemory.forEachPage body l c (x * PAGE_TABLE_ENTRIES + i))
          (fun _ => I ((x * PAGE_TABLE_ENTRIES + (i + 1)) * PAGE_TABLE_ENTRIES ^ l)) s' := by
        cases l with
        | zero =>
          rw [if_pos rfl]
          simp only [Nat.pow_zero, Nat.mul_one] at hI ⊢
          obtain ⟨v, hv⟩ : ∃ v, v = x * PAGE_TABLE_ENTRIES + i := ⟨_, rfl⟩
          have hdiv : v / PAGE_TABLE_ENTRIES = x := by rw [hv, mul_add_div_self hiB]
          have hmod : paging.slot v 1 = i := by rw [slot_eq.1, hv, mul_add_mod_self hiB]
          have hown : own t = some (placeOf r 1 v) := by rw [placeOf, pow_one, hdiv]; exact ht
          have hmapped : space own memory r v ≠ none := by
            rw [space_eq T (by rwa [hdiv]), ← slot_eq.1, hmod]
            intro hnone
            rw [link, leaf_none.mp hnone] at hchild
            cases hchild
          have hrange : paging.InRange v := inRange_of_table T (by rwa [hdiv])
          have hb := hbody v s' t (by rwa [hv]) hrange hown hmapped
          rw [hmod] at hb
          rw [← hv, ← Nat.add_assoc, ← hv]
          exact hb
        | succ m =>
          rw [if_neg (by omega)]
          rw [childRole_of_ne paging r x i (by omega), paging_B] at hcrole
          have hfirst : (x * PAGE_TABLE_ENTRIES + i) * PAGE_TABLE_ENTRIES * PAGE_TABLE_ENTRIES ^ m =
              (x * PAGE_TABLE_ENTRIES + i) * PAGE_TABLE_ENTRIES ^ (m + 1) := by ring
          have hlast : ((x * PAGE_TABLE_ENTRIES + i) * PAGE_TABLE_ENTRIES + paging.width (m + 1)) *
              PAGE_TABLE_ENTRIES ^ m =
              (x * PAGE_TABLE_ENTRIES + (i + 1)) * PAGE_TABLE_ENTRIES ^ (m + 1) := by
            rw [paging.width_of_lt (by rw [paging_H]; omega), paging_B]
            ring
          have hrec := ih (s := s') (by omega) hcrole (by rwa [Nat.add_sub_cancel, hfirst])
          rwa [Nat.add_sub_cancel, hlast] at hrec
      refine wp_ite (fun _ => ?_) fun _ => hbelow
      rw [wp_bind]
      exact wp_assert (hsize hpres) hbelow
    · rw [wp_pure, hnext]
      refine skip_pages hskip _ (fun v hle hlt => ?_) hI
      have hnone : link memory t i = none := by
        rw [← hlink, link, target, if_pos (not_not.mp hpres)]
      refine space_none_of_link T ht hi hnone ?_
      rw [Nat.add_sub_cancel]
      refine Nat.div_eq_of_lt_le hle ?_
      rw [Nat.succ_mul]
      exact hlt

theorem wp_forEachPage (T : Tree paging (link memory) own) (hr : IsRoot paging own r)
    (hsrc : ∀ v s, I v s → SameTables own memory r s)
    (hskip : ∀ v s, I v s → space own memory r v = none → I (v + 1) s)
    (hbody : ∀ v s t, I v s → paging.InRange v → own t = some (placeOf r 1 v) →
      space own memory r v ≠ none →
      wp OutOfMemory (body t (paging.slot v 1) v) (fun _ => I (v + 1)) s)
    (h : I 0 s) :
    wp OutOfMemory (ArchMemory.forEachPage body 4 r 0)
      (fun _ => I (paging.top * PAGE_TABLE_ENTRIES ^ 3)) s := by
  have hlevel := wp_forEachPage_level T hsrc hskip hbody (Nat.le_refl 4) hr
    (by simpa using h)
  rw [Nat.zero_mul, Nat.zero_add] at hlevel
  exact hlevel

end KPanic
