import KPanic.Lib.TreeSplit
import KPanic.Arch.PageHierarchy

/-!
# The destructor of `ArchMemory`

`Dying kept own dead r s`: the tree at `r`, described by `dead`, is being freed; `own` describes
the trees that stay. A page of the dying tree is freed exactly if no other tree maps it, which
`freePPN` decides by the sharer sets.
-/

namespace KPanic

open BitField (Word)
open Function
open PageTree
open Wp

variable {kept : ℕ → Prop} {own dead dead' : Own} {s s' : Kernel} {t c r l x i p v : ℕ} {w : Word}

/-- What is held outside of the trees that stay. -/
def heldBy (kept : ℕ → Prop) (own dead : Own) (p : ℕ) : Prop := kept p ∨ dead p ≠ none ∧ own p = none

structure Dying (kept : ℕ → Prop) (own dead : Own) (r : ℕ) (s : Kernel) : Prop where
  tables : Tables (heldBy kept own dead) own s
  tree : Tree paging (link s.memory) dead
  sole : ∀ {t r' l x}, dead t = some (.table r' l x) → r' = r
  zero : kept 0
  apart : ∀ {p}, kept p → dead p = none
  table : ∀ {t r' l x}, dead t = some (.table r' l x) → own t = none ∧ s.cow_map_ t = []
  leaf : ∀ {p v}, dead p = some (.leaf v) → (own p = none ↔ s.cow_map_ p = [])
  sizes : ∀ {t r' l x i}, dead t = some (.table r' l x) → i < paging.width l →
    present.get (s.memory t i) ≠ 0 → size.get (s.memory t i) = 0

/-- What `freeTables` leaves of the table at `t`, and of everything that is not below it. -/
structure Freed (kept : ℕ → Prop) (own dead dead' : Own) (s s' : Kernel) (l t : ℕ) : Prop where
  above : ∀ {u r' l' x'}, dead u = some (.table r' l' x') → l ≤ l' → dead' u = dead u
  memory : ∀ {u r' l' x'}, dead u = some (.table r' l' x') → l ≤ l' → u ≠ t →
    s'.memory u = s.memory u
  pages : ∀ {q}, own q ≠ none ∨ kept q → s'.memory q = s.memory q
  rest : SameRest s s'

theorem Freed.refl : Freed kept own dead dead s s l t :=
  ⟨fun _ _ => rfl, fun _ _ _ => rfl, fun _ => rfl, SameRest.refl s⟩

namespace Dying

theorem ne_zero (D : Dying kept own dead r s) {role : Role ℕ} (h : dead p = some role) : p ≠ 0 := by
  rintro rfl
  rw [D.apart D.zero] at h
  cases h

/-- Clear the slot of a child that is empty or a page. -/
theorem clear (D : Dying kept own dead r s) (ht : dead t = some (.table r l x))
    (hi : i < paging.width l) (hlink : link s.memory t i = some c)
    (hempty : l ≠ 1 → ∀ j, j < paging.width (l - 1) → link s.memory c j = none) :
    Tables (heldBy kept own dead) own (s.setEntry t i (present.put (s.memory t i) 0)) ∧
    Tree paging (link (s.setEntry t i (present.put (s.memory t i) 0)).memory)
      (update dead c none) := by
  have hnone : target (present.put (s.memory t i) 0) = none := by
    rw [target, BitField.get_put_of_lt _ _ _ (by decide), if_pos rfl]
  have hheld : heldBy kept own dead t := .inr ⟨by rw [ht]; exact Option.some_ne_none _, (D.table ht).1⟩
  refine ⟨?_, D.tree.detachSole D.sole ht hi hlink (TablesOf.setSlot _ none hnone) hempty⟩
  exact D.tables.setPage (.inr hheld) (D.tables.not_table_of_kept hheld)

/-- What stays of `Dying` when slot `i` of `t` no longer holds `c`. -/
theorem cleared (D : Dying kept own dead r s) (T : Tables (heldBy kept own (update dead c none)) own s')
    (tree : Tree paging (link s'.memory) (update dead c none)) (hcow : s'.cow_map_ = s.cow_map_)
    (hmem : ∀ u, dead u ≠ none → u ≠ c → ∀ j, ¬(u = t ∧ j = i) → s'.memory u j = s.memory u j)
    (hgone : link s'.memory t i = none) : Dying kept own (update dead c none) r s' where
  tables := T
  tree := tree
  sole hu := D.sole (PartialMap.update_none_eq_some.mp hu).2
  zero := D.zero
  apart {q} hq := by
    by_cases hqc : q = c
    · rw [hqc, update_self]
    · rw [update_of_ne hqc]
      exact D.apart hq
  table hu := by
    rw [hcow]
    exact D.table (PartialMap.update_none_eq_some.mp hu).2
  leaf hq := by
    rw [hcow]
    exact D.leaf (PartialMap.update_none_eq_some.mp hq).2
  sizes {u r' l' x' j} hu hj hp := by
    obtain ⟨huc, hu⟩ := PartialMap.update_none_eq_some.mp hu
    by_cases hit : u = t ∧ j = i
    · rw [hit.1, hit.2] at hp
      rw [link, target_of_present hp] at hgone
      cases hgone
    · rw [hmem u (by rw [hu]; exact Option.some_ne_none _) huc j hit] at hp ⊢
      exact D.sizes hu hj hp

/-- One pass of a loop: the slot is cleared, and what it held is given back. -/
theorem wp_freeSlot (D : Dying kept own dead r s) (ht : dead t = some (.table r l x))
    (hi : i < paging.width l) (hlink : link s.memory t i = some c)
    (hempty : l ≠ 1 → ∀ j, j < paging.width (l - 1) → link s.memory c j = none)
    {Q : PUnit → Kernel → Prop}
    (hQ : ∀ s', Dying kept own (update dead c none) r s' → link s'.memory t i = none →
      (∀ u, dead u ≠ none → u ≠ c → ∀ j, ¬(u = t ∧ j = i) → s'.memory u j = s.memory u j) →
      (∀ q, own q ≠ none ∨ kept q → s'.memory q = s.memory q) → SameRest s s' → Q ⟨⟩ s') :
    wp OutOfMemory (do
      Kern.setField t i present 0
      let w ← Kern.entry t i
      freePPN (page_ppn.get w) PAGE_SIZE) Q s := by
  have hpres : present.get (s.memory t i) ≠ 0 ∧ page_ppn.get (s.memory t i) = c := by
    rw [link, target] at hlink
    split at hlink
    · cases hlink
    · exact ⟨‹_›, Option.some.inj hlink⟩
  have hcrole := D.tree.child ht hi hlink
  have hc0 := D.ne_zero hcrole
  have hct : c ≠ t := by
    rintro rfl
    rw [ht] at hcrole
    obtain ⟨hl, -, hlev, -⟩ := childRole_table (Option.some.inj hcrole).symm
    have := (D.tree.level ht).1
    omega
  obtain ⟨T1, tree1⟩ := D.clear ht hi hlink hempty
  have hppn : page_ppn.get (present.put (s.memory t i) 0) = c := by
    rw [BitField.get_put_disjoint _ _ (by decide), hpres.2]
  rw [wp_bind, wp_setField, wp_bind, wp_entry, Kernel.setEntry_self, hppn]
  have hgone : target (present.put (s.memory t i) 0) = none := by
    rw [target, BitField.get_put_of_lt _ _ _ (by decide), if_pos rfl]
  have hout : ∀ q, own q ≠ none ∨ kept q → q ≠ t := by
    rintro q hq rfl
    obtain hq | hq := hq
    · exact hq (D.table ht).1
    · rw [D.apart hq] at ht
      cases ht
  by_cases hshared : own c = none
  · -- nobody else has it, so it is freed
    have hcow : s.cow_map_ c = [] := by
      by_cases hl : l = 1
      · subst hl
        rw [childRole_one] at hcrole
        exact (D.leaf hcrole).mp hshared
      · rw [childRole_of_ne paging r x i hl] at hcrole
        exact (D.table hcrole).2
    have hheld : heldBy kept own dead c :=
      .inr ⟨by rw [hcrole]; exact Option.some_ne_none _, hshared⟩
    refine wp_freePPN T1.pm (.inr hheld) hc0 hcow fun pm hn hpm => ?_
    have T2 := T1.free hheld hc0 hpm
    have hmem : ∀ u, dead u ≠ none → u ≠ c → ∀ j, ¬(u = t ∧ j = i) →
        update (s.setEntry t i (present.put (s.memory t i) 0)).memory c
          (fun _ => BitVec.allOnes 64) u j = s.memory u j := by
      intro u _ huc j hmiss
      rw [update_of_ne huc, Kernel.setEntry_of_ne hmiss]
    have hlink' : link (update (s.setEntry t i (present.put (s.memory t i) 0)).memory c
        (fun _ => BitVec.allOnes 64)) t i = none := by
      rw [link, update_of_ne hct.symm, Kernel.setEntry_self, hgone]
    refine hQ _ (D.cleared ?_ ?_ rfl hmem hlink') hlink' hmem ?_ ⟨rfl, rfl, rfl, rfl, hn⟩
    · refine T2.keptCongr fun q => ?_
      unfold heldBy
      by_cases hqc : q = c
      · subst hqc
        have hk : ¬kept q := fun hk => by rw [D.apart hk] at hcrole; cases hcrole
        simp [hk]
      · simp [hqc]
    · refine tree1.congr fun {u} hu j => ?_
      obtain ⟨r', l', x', hu⟩ := hu
      simp only [link]
      rw [update_of_ne (PartialMap.update_none_eq_some.mp hu).1]
    · intro q hq
      have hqc : q ≠ c := by
        rintro rfl
        obtain hq | hq := hq
        · exact hq hshared
        · rw [D.apart hq] at hcrole
          cases hcrole
      show update _ c _ q = _
      rw [update_of_ne hqc, Kernel.setEntry_page (hout q hq)]
  · -- another tree has it: a shared page
    have hleaf : ∃ v, dead c = some (.leaf v) := by
      by_cases hl : l = 1
      · subst hl
        exact ⟨_, hcrole⟩
      · rw [childRole_of_ne paging r x i hl] at hcrole
        exact absurd (D.table hcrole).1 hshared
    obtain ⟨v, hv⟩ := hleaf
    have hcow : s.cow_map_ c ≠ [] := fun h => hshared ((D.leaf hv).mpr h)
    have hmem : ∀ u, dead u ≠ none → u ≠ c → ∀ j, ¬(u = t ∧ j = i) →
        (s.setEntry t i (present.put (s.memory t i) 0)).memory u j = s.memory u j :=
      fun u _ _ j hmiss => Kernel.setEntry_of_ne hmiss
    have hlink' : link (s.setEntry t i (present.put (s.memory t i) 0)).memory t i = none := by
      rw [link, Kernel.setEntry_self, hgone]
    refine wp_freePPN_shared hcow
      (hQ _ (D.cleared ?_ tree1 rfl hmem hlink') hlink' hmem ?_ ⟨rfl, rfl, rfl, rfl, rfl⟩)
    · refine T1.keptCongr fun q => ?_
      unfold heldBy
      by_cases hqc : q = c
      · subst hqc
        simp [hshared]
      · rw [update_of_ne hqc]
    · exact fun q hq => Kernel.setEntry_page (hout q hq)

end Dying

theorem Freed.step {dead'' : Own} {s'' : Kernel} {m k : ℕ} (h : Freed kept own dead dead' s s' l t)
    (h' : Freed kept own dead' dead'' s' s'' m k) (hl : m ≤ l)
    (ht' : ∀ {u r₁ l₁ x₁}, dead u = some (.table r₁ l₁ x₁) → l ≤ l₁ → u ≠ t → u ≠ k) :
    Freed kept own dead dead'' s s'' l t where
  above hu hlu := by
    have hd := h.above hu hlu
    rw [h'.above (hd.trans hu) (Nat.le_trans hl hlu), hd]
  memory hu hlu hut := by
    have hd := h.above hu hlu
    rw [h'.memory (hd.trans hu) (Nat.le_trans hl hlu) (ht' hu hlu hut), h.memory hu hlu hut]
  pages hq := by rw [h'.pages hq, h.pages hq]
  rest := h.rest.trans h'.rest

/-- The loops of a level, by induction on the level. -/
theorem wp_freeTables {Q : PUnit → Kernel → Prop} (hl : l ≤ 4) (D : Dying kept own dead r s)
    (ht : dead t = some (.table r l x))
    (hQ : ∀ dead' s', Dying kept own dead' r s' → Freed kept own dead dead' s s' l t →
      (∀ i < paging.width l, link s'.memory t i = none) → Q ⟨⟩ s') :
    wp OutOfMemory (ArchMemory.freeTables l t) Q s := by
  induction l generalizing t x dead s Q with
  | zero =>
    have := (D.tree.level ht).1
    omega
  | succ l ih =>
    have hwidth : (if l + 1 = 4 then PAGE_MAP_LEVEL_4_ENTRIES / 2 else PAGE_TABLE_ENTRIES) =
        paging.width (l + 1) := rfl
    rw [ArchMemory.freeTables, hwidth]
    let I : ℕ → Kernel → Prop := fun i s' => ∃ dead', Dying kept own dead' r s' ∧
      Freed kept own dead dead' s s' (l + 1) t ∧ ∀ j < i, link s'.memory t j = none
    refine wp_mono (wp_forUpTo (I := I) ⟨dead, D, Freed.refl, fun j hj => absurd hj (by omega)⟩ ?_)
      (fun _ s' ⟨dead', D', hf, hgone⟩ => hQ dead' s' D' hf hgone)
    intro i s' hi ⟨dead', D', hf, hgone⟩
    have ht' : dead' t = some (.table r (l + 1) x) := (hf.above ht le_rfl).trans ht
    rw [wp_bind, wp_entry]
    refine wp_ite (fun hpres => ?_) fun hpres => ?_
    · -- an entry is present: free what is below it, then the entry
      have hlink : link s'.memory t i = some (page_ppn.get (s'.memory t i)) :=
        target_of_present hpres
      generalize page_ppn.get (s'.memory t i) = c at hlink ⊢
      have hcrole := D'.tree.child ht' hi hlink
      have finish : ∀ dead'' s'', Dying kept own dead'' r s'' → Freed kept own dead' dead'' s' s'' l c →
          (l ≠ 0 → ∀ j < paging.width l, link s''.memory c j = none) →
          wp OutOfMemory (do
            Kern.setField t i present 0
            let w ← Kern.entry t i
            freePPN (page_ppn.get w) PAGE_SIZE) (fun _ => I (i + 1)) s'' := by
        intro dead'' s'' D'' hf' hempty
        have hct : t ≠ c := by
          rintro rfl
          rw [ht'] at hcrole
          obtain ⟨-, -, hlev, -⟩ := childRole_table (Option.some.inj hcrole).symm
          omega
        have ht'' : dead'' t = some (.table r (l + 1) x) := (hf'.above ht' (by omega)).trans ht'
        have hmem := hf'.memory ht' (by omega) hct
        have hlink' : link s''.memory t i = some c := by rw [link, hmem]; exact hlink
        refine D''.wp_freeSlot ht'' hi hlink' (fun h => hempty (by omega)) ?_
        intro s₃ D₃ hnone hsame hpages hrest
        have hcrole'' := D''.tree.child ht'' hi hlink'
        have hnotc'' : ∀ {u r₁ l₁ x₁}, dead'' u = some (.table r₁ l₁ x₁) → l + 1 ≤ l₁ → u ≠ c := by
          rintro u r₁ l₁ x₁ hu hlu rfl
          rw [hu] at hcrole''
          obtain ⟨-, -, hlev, -⟩ := childRole_table (Option.some.inj hcrole'').symm
          omega
        have hnotc : ∀ {u r₁ l₁ x₁}, dead u = some (.table r₁ l₁ x₁) → l + 1 ≤ l₁ → u ≠ c := by
          rintro u r₁ l₁ x₁ hu hlu rfl
          rw [hf.above hu hlu, hu] at hcrole
          obtain ⟨-, -, hlev, -⟩ := childRole_table (Option.some.inj hcrole).symm
          omega
        refine ⟨_, D₃, ?_, ?_⟩
        · refine (hf.step hf' (by omega) fun hu hlu _ => hnotc hu hlu).step (m := l + 1) (k := t)
            ⟨?_, ?_, fun hq => hpages _ hq, hrest⟩ le_rfl fun _ _ h => h
          · intro u r₁ l₁ x₁ hu hlu
            rw [update_of_ne (hnotc'' hu hlu)]
          · intro u r₁ l₁ x₁ hu hlu hut
            funext j
            refine hsame u ?_ (hnotc'' hu hlu) j fun h => hut h.1
            rw [hu]
            exact Option.some_ne_none _
        · intro j hj
          by_cases hji : j = i
          · rw [hji, hnone]
          · rw [link, hsame t (by rw [ht'']; exact Option.some_ne_none _) hct j (fun h => hji h.2),
              hmem]
            exact hgone j (by omega)
      have hbelow : wp OutOfMemory (do
          ArchMemory.freeTables l c
          Kern.setField t i present 0
          let w ← Kern.entry t i
          freePPN (page_ppn.get w) PAGE_SIZE) (fun _ => I (i + 1)) s' := by
        rw [wp_bind]
        cases l with
        | zero =>
          rw [ArchMemory.freeTables, wp_pure]
          exact finish dead' s' D' Freed.refl fun h => absurd rfl h
        | succ m =>
          rw [childRole_of_ne paging r x i (by omega)] at hcrole
          exact ih (by omega) D' hcrole fun dead'' s'' D'' hf' hg => finish dead'' s'' D'' hf' fun _ => hg
      refine wp_ite (fun _ => ?_) fun _ => hbelow
      rw [wp_bind]
      exact wp_assert (D'.sizes ht' hi hpres) hbelow
    · -- nothing is present
      rw [wp_pure]
      refine ⟨dead', D', hf, fun j hj => ?_⟩
      by_cases hji : j = i
      · rw [hji, link, target, if_pos (not_not.mp hpres)]
      · exact hgone j (by omega)

/-- The destructor frees every page of the tree that no other tree maps. -/
theorem wp_delete {Q : PUnit → Kernel → Prop} (D : Dying kept own dead r s)
    (hr : IsRoot paging dead r)
    (hQ : ∀ s', Tables kept own s' → (∀ q, own q ≠ none ∨ kept q → s'.memory q = s.memory q) →
      SameRest s s' → Q ⟨⟩ s') :
    wp OutOfMemory (ArchMemory.delete r) Q s := by
  unfold ArchMemory.delete
  rw [wp_bind]
  refine wp_freeTables (Nat.le_refl 4) D hr ?_
  intro dead' s' D' hf hgone
  have hr' : IsRoot paging dead' r := (hf.above hr (Nat.le_refl 4)).trans hr
  have hrole := D'.table hr'
  have hr0 := D'.ne_zero hr'
  have hk : ¬kept r := by
    intro hk
    rw [IsRoot, D'.apart hk] at hr'
    cases hr'
  have hheld : heldBy kept own dead' r := .inr ⟨by rw [hr']; exact Option.some_ne_none _, hrole.1⟩
  refine wp_freePPN D'.tables.pm (.inr hheld) hr0 hrole.2 fun pm hn hpm => ?_
  refine hQ _ ((D'.tables.free hheld hr0 hpm).keptCongr fun q => ?_) ?_ ?_
  · constructor
    · exact fun hq => ⟨.inl hq, fun h => hk (h ▸ hq)⟩
    · rintro ⟨hq | hq, hqr⟩
      · exact hq
      · exact absurd (D'.tree.only_root D'.sole hgone hq.1) hqr
  · intro q hq
    have hqr : q ≠ r := by
      rintro rfl
      exact hq.elim (fun h => h hrole.1) hk
    show update _ r _ q = _
    rw [update_of_ne hqr, hf.pages hq]
  · exact hf.rest.trans ⟨rfl, rfl, rfl, rfl, hn⟩

end KPanic
