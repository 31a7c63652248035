import KPanic.Lib.TreeSplit
import KPanic.Arch.PageHierarchy

/-!
# `unmapPage`

`Cut own own' s s' l`: the mapping of `v` is gone, and so are the tables for `v` below level `l`;
the entry for `v` of the table at level `l` has been cleared. There was nothing else below it.
-/

namespace KPanic

open BitField (Word)
open Function
open PageTree
open CopyOnWrite
open Wp

variable {users kept : ℕ → Prop} {own own' : Own} {s s' s'' : Kernel} {t c r l x i p v : ℕ}
  {allowed : Panic → Prop}

/-- All tables are those of one tree. -/
def Sole (own : Own) (r : ℕ) : Prop := ∀ {t r' l x}, own t = some (.table r' l x) → r' = r

/-! ### One entry -/

/-- The table has no entry. -/
def Emptied (memory : ℕ → Page) (t : ℕ) : Prop := ∀ i < PAGE_TABLE_ENTRIES, present.get (memory t i) = 0

-- not the instance that looks at 512 entries whenever a goal is compared with another
noncomputable instance (memory : ℕ → Page) (t : ℕ) : Decidable (Emptied memory t) :=
  Classical.propDecidable _

theorem wp_checkAndRemove {Q : Bool → Kernel → Prop} :
    wp allowed (ArchMemory.checkAndRemove t i) Q s ↔
      Q (decide (Emptied (s.setEntry t i 0).memory t)) (s.setEntry t i 0) := by
  have hall : (List.range PAGE_TABLE_ENTRIES).all
      (fun j => present.get ((s.setEntry t i 0).memory t j) = 0) =
        decide (Emptied (s.setEntry t i 0).memory t) := by
    rw [Bool.eq_iff_iff, List.all_eq_true, decide_eq_true_iff]
    simp only [List.mem_range, decide_eq_true_eq]
    rfl
  unfold ArchMemory.checkAndRemove
  rw [wp_bind, wp_setEntry, wp_bind, wp_get, wp_pure, hall]

namespace TablesOf

/-- Clear an entry and keep what it pointed to: an empty table, or a page. -/
theorem detach (T : TablesOf users kept own s) (hsole : Sole own r)
    (ht : own t = some (.table r l x)) (hi : i < paging.width l)
    (hlink : link s.memory t i = some c)
    (hempty : l ≠ 1 → ∀ j, j < paging.width (l - 1) → link s.memory c j = none) :
    TablesOf users (fun q => kept q ∨ q = c) (update own c none) (s.setEntry t i 0) := by
  have hc := T.tree.child ht hi hlink
  refine T.setEntry ht (entryOk_zero users l) ?_ ?_ (.inl T.zero) ?_ ?_
  · exact T.tree.detachSole hsole ht hi hlink (setSlot 0 none target_zero) hempty
  · intro q
    by_cases hq : q = c
    · subst hq
      simp [hc]
    · rw [update_of_ne hq]
      simp [hq]
  · intro q hq
    by_cases hqc : q = c
    · rw [hqc, update_self]
    · rw [update_of_ne hqc]
      exact T.apart (hq.resolve_right hqc)
  · intro u r' l' x' hu
    by_cases huc : u = c
    · rw [huc, update_self] at hu
      cases hu
    · rw [update_of_ne huc] at hu
      exact .inl hu

/-- What was kept for a moment is free again. -/
theorem free_detached (T : TablesOf users (fun q => kept q ∨ q = c) own s) (hc : ¬kept c) (hc0 : c ≠ 0)
    {pm : PageManager} {f : Page}
    (hpm : PmInv (fun q => (own q ≠ none ∨ kept q ∨ q = c) ∧ q ≠ c) pm (update s.memory c f)) :
    TablesOf users kept own { s with pm := pm, memory := update s.memory c f } := by
  refine (T.free (.inr rfl) hc0 hpm).keptCongr fun q => ?_
  constructor
  · exact fun hq => ⟨.inl hq, fun h => hc (h ▸ hq)⟩
  · exact fun hq => hq.1.resolve_right hq.2

end TablesOf

/-- The entry at `i` of `t` is cleared, and `c`, to which it pointed, is freed. -/
structure Detached (users kept : ℕ → Prop) (own : Own) (s s' : Kernel) (t i c : ℕ) : Prop where
  tables : TablesOf users kept (update own c none) s'
  zero : s'.memory t i = 0
  same : ∀ u, u ≠ c → ∀ j, ¬(u = t ∧ j = i) → s'.memory u j = s.memory u j
  rest : SameRest s s'

/-- The kernel after a page is freed. -/
def Kernel.freed (s : Kernel) (p : ℕ) (pm : PageManager) : Kernel :=
  { s with pm := pm, memory := update s.memory p fun _ => BitVec.allOnes 64 }

theorem Kernel.freed_of_ne {pm : PageManager} {q : ℕ} (h : q ≠ p) :
    (s.freed p pm).memory q = s.memory q := update_of_ne h _ _

theorem detached (T : TablesOf users kept own s) (hsole : Sole own r)
    (ht : own t = some (.table r l x)) (hi : i < paging.width l) (hlink : link s.memory t i = some c)
    (hempty : l ≠ 1 → ∀ j, j < paging.width (l - 1) → link s.memory c j = none) {pm : PageManager}
    (hn : pm.number_of_pages_ = s.pm.number_of_pages_)
    (hpm : PmInv (fun q => (own q ≠ none ∨ kept q) ∧ q ≠ c) pm
      (update (s.setEntry t i 0).memory c fun _ => BitVec.allOnes 64)) :
    Detached users kept own s ((s.setEntry t i 0).freed c pm) t i c := by
  have hc := T.tree.child ht hi hlink
  have hct : c ≠ t := by
    rintro rfl
    rw [ht] at hc
    obtain ⟨hl, -, hlev, -⟩ := childRole_table (Option.some.inj hc).symm
    have := (T.tree.level ht).1
    omega
  have hkept : ¬kept c := by
    intro h
    rw [T.apart h] at hc
    cases hc
  have T1 := T.detach hsole ht hi hlink hempty
  refine ⟨T1.free_detached hkept (T.ne_zero hc) (hpm.congr fun q => ?_), ?_, fun u hu j hmiss => ?_,
    ⟨rfl, rfl, rfl, rfl, hn⟩⟩
  · by_cases hq : q = c
    · simp [hq]
    · simp [hq]
  · rw [Kernel.freed_of_ne hct.symm, Kernel.setEntry_self]
  · rw [Kernel.freed_of_ne hu, Kernel.setEntry_of_ne hmiss]

/-- The entry of a page table. It is cleared only after the page is freed. -/
theorem wp_detachPage (T : TablesOf users kept own s) (hsole : Sole own r)
    (ht : own t = some (.table r 1 x)) (hi : i < PAGE_TABLE_ENTRIES)
    (hlink : link s.memory t i = some p) (hcow : s.cow_map_ p = []) {Q : Bool → Kernel → Prop}
    (hQ : ∀ s', Detached users kept own s s' t i p → Q (decide (Emptied s'.memory t)) s') :
    wp allowed (do
      Kern.setField t i present 0
      freePPN p PAGE_SIZE
      Kern.setEntry t i 0
      ArchMemory.checkAndRemove t i) Q s := by
  have hp := T.tree.child ht (show i < paging.width 1 from hi) hlink
  have hpt : p ≠ t := by
    rintro rfl
    rw [ht] at hp
    cases hp
  have hheld : own p ≠ none ∨ kept p := .inl (by rw [hp]; exact Option.some_ne_none _)
  have htheld : own t ≠ none ∨ kept t := .inl (by rw [ht]; exact Option.some_ne_none _)
  rw [wp_bind, wp_setField, wp_bind]
  have hpm1 : PmInv (fun q => own q ≠ none ∨ kept q) s.pm
      (s.setEntry t i (present.put (s.memory t i) 0)).memory := by
    refine T.pm.write fun q hq => Kernel.setEntry_page ?_
    rintro rfl
    exact hq htheld
  refine wp_freePPN hpm1 hheld (T.ne_zero hp) hcow fun pm hn hpm => ?_
  rw [wp_bind, wp_setEntry, wp_checkAndRemove, Kernel.setEntry_setEntry]
  -- clearing the entry and freeing the page commute
  have hswap : Kernel.setEntry ((s.setEntry t i (present.put (s.memory t i) 0)).freed p pm) t i 0 =
      (s.setEntry t i 0).freed p pm := by
    unfold Kernel.freed Kernel.setEntry
    dsimp only
    rw [update_of_ne hpt.symm, update_self, update_idem, update_comm hpt.symm, update_idem,
      update_comm hpt]
  have hfinal : PmInv (fun q => (own q ≠ none ∨ kept q) ∧ q ≠ p) pm
      (update (s.setEntry t i 0).memory p fun _ => BitVec.allOnes 64) := by
    refine hpm.write fun q hq => ?_
    by_cases hqp : q = p
    · rw [hqp, update_self, update_self]
    · have hqt : q ≠ t := by
        rintro rfl
        exact hq ⟨htheld, hqp⟩
      rw [update_of_ne hqp, update_of_ne hqp, Kernel.setEntry_page hqt, Kernel.setEntry_page hqt]
  have hdetached := detached T hsole ht (show i < paging.width 1 from hi) hlink
    (fun h => absurd rfl h) hn hfinal
  have hresult := hQ _ hdetached
  rw [← hswap] at hresult
  exact hresult

/-- The entry of a table above. -/
theorem wp_removeTable (T : TablesOf users kept own s) (hsole : Sole own r)
    (ht : own t = some (.table r (l + 1) x)) (hl : 1 ≤ l) (hi : i < paging.width (l + 1))
    (hlink : link s.memory t i = some c) (hempty : Emptied s.memory c) (hcow : s.cow_map_ c = [])
    {Q : Bool → Kernel → Prop}
    (hQ : ∀ s', Detached users kept own s s' t i c → Q (decide (Emptied s'.memory t)) s') :
    wp allowed (ArchMemory.removeTable true t i c) Q s := by
  have hc := T.tree.child ht hi hlink
  have hct : c ≠ t := by
    rintro rfl
    rw [ht] at hc
    obtain ⟨-, -, hlev, -⟩ := childRole_table (Option.some.inj hc).symm
    omega
  have hheld : own c ≠ none ∨ kept c := .inl (by rw [hc]; exact Option.some_ne_none _)
  have htheld : own t ≠ none ∨ kept t := .inl (by rw [ht]; exact Option.some_ne_none _)
  have hnone : l + 1 ≠ 1 → ∀ j, j < paging.width (l + 1 - 1) → link s.memory c j = none := by
    intro _ j hj
    exact if_pos (hempty j (Nat.lt_of_lt_of_le hj (paging.width_le _)))
  unfold ArchMemory.removeTable
  rw [if_pos rfl, wp_bind, wp_checkAndRemove, wp_bind]
  have hpm1 : PmInv (fun q => own q ≠ none ∨ kept q) s.pm (s.setEntry t i 0).memory := by
    refine T.pm.write fun q hq => Kernel.setEntry_page ?_
    rintro rfl
    exact hq htheld
  refine wp_freePPN hpm1 hheld (T.ne_zero hc) hcow fun pm hn hpm => ?_
  rw [wp_pure]
  have hresult := hQ _ (detached T hsole ht hi hlink hnone hn hpm)
  have hmem : Emptied ((s.setEntry t i 0).freed c pm).memory t ↔ Emptied (s.setEntry t i 0).memory t := by
    unfold Emptied
    rw [Kernel.freed_of_ne hct.symm]
  rw [decide_eq_decide.mpr hmem] at hresult
  exact hresult

/-! ### The tables for a page -/

section Stations

variable (T : TablesOf users kept own s) (hr : IsRoot paging own r) (hv : paging.InRange v)
  {b : Bool} (hm : KPanic.space own s.memory r v = some (p, b))

include T hr hv hm

omit T in
theorem walk_some {k : ℕ} (hk : k ≤ 4) : walk paging (link s.memory) r v k = some (tableAt s.memory r v (4 - k)) := by
  have h4 : walk paging (link s.memory) r v 4 = some p := by rw [walk_space hr hv, hm]; rfl
  have hsome : walk paging (link s.memory) r v k ≠ none := by
    intro hnone
    have hall : ∀ m, walk paging (link s.memory) r v (k + m) = none := by
      intro m
      induction m with
      | zero => exact hnone
      | succ m ih => exact walk_none ih
    have hlast := hall (4 - k)
    rw [Nat.add_sub_cancel' hk, h4] at hlast
    cases hlast
  obtain ⟨t, ht⟩ := Option.ne_none_iff_exists'.mp hsome
  rw [tableAt, show 4 - (4 - k) = k by omega, ht]
  rfl

omit T in
theorem tableAt_zero : tableAt s.memory r v 0 = p := by
  have h4 : walk paging (link s.memory) r v 4 = some p := by rw [walk_space hr hv, hm]; rfl
  rw [tableAt, h4]
  rfl

omit T in
/-- The entry of each table points to the next table, and the last to the page. -/
theorem station_link (hl : l < 4) :
    link s.memory (tableAt s.memory r v (l + 1)) (paging.slot v (l + 1)) =
      some (tableAt s.memory r v l) := by
  have hhere := walk_some hr hv hm (k := 3 - l) (by omega)
  rw [show 4 - (3 - l) = l + 1 by omega] at hhere
  have hnext := walk_some hr hv hm (k := 3 - l + 1) (by omega)
  rw [show 4 - (3 - l + 1) = l by omega, walk_step hhere, show 4 - (3 - l) = l + 1 by omega] at hnext
  exact hnext

theorem station_own (hl : 1 ≤ l) (hl' : l ≤ 4) : own (tableAt s.memory r v l) = some (placeOf r l v) :=
  (tables_of_walk T.tree hr hv (by rw [hm]; exact Option.some_ne_none _) hl hl').1

theorem station_zero : own (tableAt s.memory r v 0) = some (.leaf v) := by
  rw [tableAt_zero hr hv hm]
  exact space_own T.tree hm

theorem station_ne {k : ℕ} (hk : k < l) (hl : l ≤ 4) :
    tableAt s.memory r v l ≠ tableAt s.memory r v k := by
  intro heq
  have hown := station_own T hr hv hm (l := l) (by omega) hl
  rw [heq] at hown
  cases k with
  | zero =>
    rw [station_zero T hr hv hm] at hown
    cases hown
  | succ k =>
    rw [station_own T hr hv hm (by omega) (by omega)] at hown
    injection hown with hown
    injection hown with _ hlevel _
    omega

end Stations

/-- Below every table lies a page. -/
def Dense (own : Own) (memory : ℕ → Page) (r : ℕ) : Prop :=
  ∀ {t l x}, own t = some (.table r l x) → l < 4 →
    ∃ w, space own memory r w ≠ none ∧ w / PAGE_TABLE_ENTRIES ^ l = x

/-- There is another page below the table for `v` at level `l`. -/
def Occupied (sp : ℕ → ℕ → Option (ℕ × Bool)) (r v l : ℕ) : Prop :=
  ∃ w, w ≠ v ∧ sp r w ≠ none ∧ w / PAGE_TABLE_ENTRIES ^ l = v / PAGE_TABLE_ENTRIES ^ l

theorem Occupied.mono {sp : ℕ → ℕ → Option (ℕ × Bool)} {k : ℕ} (h : Occupied sp r v l) (hk : l ≤ k) :
    Occupied sp r v k := by
  obtain ⟨w, hne, hw, heq⟩ := h
  refine ⟨w, hne, hw, ?_⟩
  rw [← Nat.add_sub_cancel' hk, pow_add, ← Nat.div_div_eq_div_mul, heq, Nat.div_div_eq_div_mul]

structure Cut (users kept : ℕ → Prop) (r v : ℕ) (own own' : Own) (s s' : Kernel) (l : ℕ) : Prop where
  tables : TablesOf users kept own' s'
  gone : ∀ k < l, own' (tableAt s.memory r v k) = none
  stay : ∀ q, (∀ k < l, q ≠ tableAt s.memory r v k) → own' q = own q
  same : ∀ u, (∀ k < l, u ≠ tableAt s.memory r v k) →
    ∀ j, ¬(u = tableAt s.memory r v l ∧ j = paging.slot v l) → s'.memory u j = s.memory u j
  cut : s'.memory (tableAt s.memory r v l) (paging.slot v l) = 0
  alone : ∀ k < l, 1 ≤ k → ¬Occupied (space own s.memory) r v k
  rest : SameRest s s'

section Cut

variable (T : TablesOf users kept own s) (hr : IsRoot paging own r) (hv : paging.InRange v)
  {b : Bool} (hm : KPanic.space own s.memory r v = some (p, b))

include T hr hv hm

omit T in
theorem Cut.first (h : Detached users kept own s s' (tableAt s.memory r v 1) (paging.slot v 1) p) :
    Cut users kept r v own (update own p none) s s' 1 where
  tables := h.tables
  gone k hk := by
    rw [show k = 0 by omega, tableAt_zero hr hv hm, update_self]
  stay q hq := by
    have hqp := hq 0 (by decide)
    rw [tableAt_zero hr hv hm] at hqp
    exact update_of_ne hqp _ _
  same u hu := by
    have hup := hu 0 (by decide)
    rw [tableAt_zero hr hv hm] at hup
    exact h.same u hup
  cut := h.zero
  alone k hk hk' := by omega
  rest := h.rest

/-- A table that is not empty has another page below it. -/
theorem Cut.occupied (h : Cut users kept r v own own' s s' l) (hsole : Sole own r)
    (hdense : Dense own s.memory r) (hl : 1 ≤ l) (hl' : l < 4)
    (hne : ¬Emptied s'.memory (tableAt s.memory r v l)) : Occupied (space own s.memory) r v l := by
  obtain ⟨j, hj, hpres⟩ : ∃ j < PAGE_TABLE_ENTRIES, present.get (s'.memory (tableAt s.memory r v l) j) ≠ 0 := by
    by_contra hall
    push Not at hall
    exact hne hall
  have hjv : j ≠ paging.slot v l := by
    rintro rfl
    rw [h.cut] at hpres
    exact hpres (BitField.get_zero present)
  have hsame := h.same (tableAt s.memory r v l) (fun k hk => station_ne T hr hv hm hk (by omega)) j
    fun hit => hjv hit.2
  rw [hsame] at hpres
  have hown := station_own T hr hv hm hl (by omega)
  have hwidth : paging.width l = PAGE_TABLE_ENTRIES := paging.width_of_lt hl'
  have hlink := target_of_present hpres
  have hchild := T.tree.child hown (by rw [hwidth]; exact hj) hlink
  have hslot : paging.slot v l = v / PAGE_TABLE_ENTRIES ^ (l - 1) % PAGE_TABLE_ENTRIES := rfl
  -- the index of the child is not that of `v`
  have hother : ∀ w, w / PAGE_TABLE_ENTRIES ^ (l - 1) = v / PAGE_TABLE_ENTRIES ^ l * PAGE_TABLE_ENTRIES + j →
      w ≠ v ∧ w / PAGE_TABLE_ENTRIES ^ l = v / PAGE_TABLE_ENTRIES ^ l := by
    intro w hw
    constructor
    · rintro rfl
      rw [hslot, hw, mul_add_mod_self hj] at hjv
      exact hjv rfl
    · have hpow : PAGE_TABLE_ENTRIES ^ l = PAGE_TABLE_ENTRIES ^ (l - 1) * PAGE_TABLE_ENTRIES := by
        rw [← pow_succ, Nat.sub_add_cancel hl]
      rw [hpow, ← Nat.div_div_eq_div_mul, hw, hpow, mul_add_div_self hj]
  by_cases hone : l = 1
  · subst hone
    rw [childRole_one, paging_B] at hchild
    have hmapped : space own s.memory r (v / PAGE_TABLE_ENTRIES ^ 1 * PAGE_TABLE_ENTRIES + j) ≠ none := by
      obtain ⟨r', b', hsp⟩ := own_space T.tree hchild
      obtain ⟨u, hu, -⟩ := (space_iff T.tree).mp hsp
      rw [hsole hu] at hsp
      rw [hsp]
      exact Option.some_ne_none _
    obtain ⟨hwv, heq⟩ := hother _ (by rw [Nat.sub_self, pow_zero, Nat.div_one])
    exact ⟨_, hwv, hmapped, heq⟩
  · rw [childRole_of_ne paging r _ _ hone, paging_B] at hchild
    obtain ⟨w, hw, hidx⟩ := hdense hchild (by omega)
    obtain ⟨hwv, heq⟩ := hother w hidx
    exact ⟨w, hwv, hw, heq⟩

/-- An emptied table goes the way of its page. -/
theorem Cut.next (h : Cut users kept r v own own' s s' l) (hl : 1 ≤ l) (hl' : l < 4)
    (halone : ¬Occupied (space own s.memory) r v l)
    (hd : Detached users kept own' s' s'' (tableAt s.memory r v (l + 1)) (paging.slot v (l + 1))
      (tableAt s.memory r v l)) :
    Cut users kept r v own (update own' (tableAt s.memory r v l) none) s s'' (l + 1) where
  tables := hd.tables
  gone k hk := by
    by_cases hkl : k = l
    · rw [hkl, update_self]
    · rw [update_of_ne (station_ne T hr hv hm (show k < l by omega) (by omega)).symm]
      exact h.gone k (by omega)
  stay q hq := by
    rw [update_of_ne (hq l (by omega))]
    exact h.stay q fun k hk => hq k (by omega)
  same u hu j hmiss := by
    rw [hd.same u (hu l (by omega)) j hmiss]
    exact h.same u (fun k hk => hu k (by omega)) j fun hit => hu l (by omega) hit.1
  cut := hd.zero
  alone k hk hk' := by
    by_cases hkl : k = l
    · rw [hkl]
      exact halone
    · exact h.alone k (by omega) hk'
  rest := h.rest.trans hd.rest

omit T hr hv hm in
theorem Cut.sole (h : Cut users kept r v own own' s s' l) (hsole : Sole own r) : Sole own' r := by
  intro t r' l' x' ht
  have hstay : own' t = own t := by
    refine h.stay t fun k hk heq => ?_
    rw [heq, h.gone k hk] at ht
    cases ht
  rw [hstay] at ht
  exact hsole ht

theorem wp_removeNext (h : Cut users kept r v own own' s s' l) (hsole : Sole own r) (hl : 1 ≤ l)
    (hl' : l < 4) (halone : ¬Occupied (space own s.memory) r v l)
    (hempty : Emptied s'.memory (tableAt s.memory r v l)) (hcow : ∀ q, s.cow_map_ q = [])
    {Q : Bool → Kernel → Prop}
    (hQ : ∀ own'' s'', Cut users kept r v own own'' s s'' (l + 1) →
      Q (decide (Emptied s''.memory (tableAt s.memory r v (l + 1)))) s'') :
    wp allowed (ArchMemory.removeTable true (tableAt s.memory r v (l + 1)) (paging.slot v (l + 1))
      (tableAt s.memory r v l)) Q s' := by
  have hne : ∀ k < l, tableAt s.memory r v (l + 1) ≠ tableAt s.memory r v k :=
    fun k hk => station_ne T hr hv hm (by omega) (by omega)
  have hown : own' (tableAt s.memory r v (l + 1)) = some (placeOf r (l + 1) v) :=
    (h.stay _ hne).trans (station_own T hr hv hm (by omega) (by omega))
  have hlink : link s'.memory (tableAt s.memory r v (l + 1)) (paging.slot v (l + 1)) =
      some (tableAt s.memory r v l) := by
    rw [link, h.same _ hne _ fun hit => station_ne T hr hv hm (show l < l + 1 by omega) (by omega) hit.1]
    exact station_link hr hv hm hl'
  refine wp_removeTable h.tables (h.sole hsole) hown hl (paging.slot_lt hv) hlink hempty ?_
    fun s'' hd => hQ _ s'' (h.next T hr hv hm hl hl' halone hd)
  rw [h.rest.cow]
  exact hcow _

/-- The tables are gone up to the first one that is not empty. -/
def Pruned (users kept : ℕ → Prop) (r v : ℕ) (own : Own) (s s' : Kernel) : Prop :=
  ∃ own' l, 1 ≤ l ∧ l ≤ 4 ∧ Cut users kept r v own own' s s' l ∧
    (l = 4 ∨ Occupied (space own s.memory) r v l)

/-- How far `unmapPage` has come when it has looked at the table at level `l`. -/
def Phase (users kept : ℕ → Prop) (r v : ℕ) (own : Own) (s : Kernel) (l : ℕ) (empty : Bool)
    (s' : Kernel) : Prop :=
  match empty with
  | true => (∃ own', Cut users kept r v own own' s s' l) ∧ Emptied s'.memory (tableAt s.memory r v l)
  | false => Pruned users kept r v own s s'

theorem Cut.phase (h : Cut users kept r v own own' s s' l) (hsole : Sole own r)
    (hdense : Dense own s.memory r) (hl : 1 ≤ l) (hl' : l ≤ 4) :
    Phase users kept r v own s l (decide (Emptied s'.memory (tableAt s.memory r v l))) s' := by
  cases he : decide (Emptied s'.memory (tableAt s.memory r v l)) with
  | true => exact ⟨⟨own', h⟩, of_decide_eq_true he⟩
  | false =>
    refine ⟨own', l, hl, hl', h, ?_⟩
    by_cases htop : l = 4
    · exact .inl htop
    · exact .inr (h.occupied T hr hv hm hsole hdense hl (by omega) (of_decide_eq_false he))

/-- A table is empty only if nothing else was below it. -/
theorem Cut.alone_of_emptied (h : Cut users kept r v own own' s s' l) (hl : 1 ≤ l) (hl' : l < 4)
    (he : Emptied s'.memory (tableAt s.memory r v l)) : ¬Occupied (space own s.memory) r v l := by
  rintro ⟨w, hwv, hmapped, heq⟩
  obtain ⟨⟨q, b'⟩, hq⟩ := Option.ne_none_iff_exists'.mp hmapped
  have hwr : paging.InRange w := by
    obtain ⟨u, hu, -⟩ := (space_iff T.tree).mp hq
    exact inRange_of_table T.tree hu
  obtain ⟨hown, hpres⟩ := tables_of_walk T.tree hr hwr hmapped hl (by omega)
  rw [placeOf, heq] at hown
  rw [T.tree.table_unique hown (station_own T hr hv hm hl (by omega))] at hpres
  by_cases hslot : paging.slot w l = paging.slot v l
  · -- then the entry of `w` is that of `v`, one level down as well
    have hbelow : w / PAGE_TABLE_ENTRIES ^ (l - 1) = v / PAGE_TABLE_ENTRIES ^ (l - 1) := by
      have hw := paging.index_step w hl
      have hv' := paging.index_step v hl
      rw [paging_B] at hw hv'
      rw [← hw, ← hv', heq, hslot]
    by_cases hone : l = 1
    · rw [hone, Nat.sub_self, pow_zero, Nat.div_one, Nat.div_one] at hbelow
      exact hwv hbelow
    · exact h.alone (l - 1) (by omega) (by omega) ⟨w, hwv, hmapped, hbelow⟩
  · have hsame := h.same (tableAt s.memory r v l) (fun k hk => station_ne T hr hv hm hk (by omega))
      (paging.slot w l) fun hit => hslot hit.2
    have hlt : paging.slot w l < PAGE_TABLE_ENTRIES :=
      Nat.lt_of_lt_of_le (paging.slot_lt hwr) (paging.width_le l)
    rw [← hsame] at hpres
    exact hpres (he _ hlt)

/-- One more table is looked at. -/
theorem wp_phase {empty : Bool} (h : Phase users kept r v own s l empty s') (hsole : Sole own r)
    (hdense : Dense own s.memory r) (hl : 1 ≤ l) (hl' : l < 4) (hcow : ∀ q, s.cow_map_ q = []) :
    wp allowed (ArchMemory.removeTable empty (tableAt s.memory r v (l + 1)) (paging.slot v (l + 1))
      (tableAt s.memory r v l)) (Phase users kept r v own s (l + 1)) s' := by
  cases empty with
  | true =>
    obtain ⟨⟨own', hcut⟩, he⟩ := h
    have halone := hcut.alone_of_emptied T hr hv hm hl hl' he
    refine wp_removeNext T hr hv hm hcut hsole hl hl' halone he hcow fun own'' s'' hcut' => ?_
    exact hcut'.phase T hr hv hm hsole hdense (by omega) (by omega)
  | false =>
    unfold ArchMemory.removeTable
    rw [if_neg Bool.false_ne_true, wp_pure]
    have hpruned : Pruned users kept r v own s s' := h
    exact hpruned

theorem wp_unmapPage (hsole : Sole own r) (hdense : Dense own s.memory r)
    (hcow : ∀ q, s.cow_map_ q = []) {Q : Bool → Kernel → Prop}
    (hQ : ∀ s', Pruned users kept r v own s s' → Q true s') :
    wp allowed (ArchMemory.unmapPage r v) Q s := by
  have hw4 : walk paging (link s.memory) r v 4 = some p := by rw [walk_space hr hv, hm]; rfl
  have hown := station_own T hr hv hm (l := 1) (by decide) (by decide)
  have hlink := station_link hr hv hm (l := 0) (by decide)
  rw [tableAt_zero hr hv hm] at hlink
  have hp0 : p ≠ 0 := T.ne_zero (space_own T.tree hm)
  have hpres : present.get (s.memory (tableAt s.memory r v 1) (paging.slot v 1)) ≠ 0 :=
    (tables_of_walk T.tree hr hv (by rw [hm]; exact Option.some_ne_none _) (by decide) (by decide)).2
  unfold ArchMemory.unmapPage
  rw [wp_bind]
  refine wp_resolveMapping T hr hv ?_
  rw [wp_bind]
  have hpage : (mappingAt s.memory r v).page_ppn = p := by simp [mappingAt, hw4]
  have hsize : (mappingAt s.memory r v).page_size = PAGE_SIZE := by simp [mappingAt, hw4]
  rw [hpage, hsize]
  refine wp_assert ⟨hp0, rfl⟩ ?_
  rw [wp_bind, wp_entry, wp_bind]
  refine wp_assert hpres ?_
  -- the part up to the first table
  have hfirst : wp allowed (do
      Kern.setField (tableAt s.memory r v 1) (paging.slot v 1) present 0
      freePPN p PAGE_SIZE
      Kern.setEntry (tableAt s.memory r v 1) (paging.slot v 1) 0
      ArchMemory.checkAndRemove (tableAt s.memory r v 1) (paging.slot v 1))
      (Phase users kept r v own s 1) s := by
    refine wp_detachPage T hsole hown slot_one_lt hlink (hcow p) fun s' hd => ?_
    exact (Cut.first hr hv hm hd).phase T hr hv hm hsole hdense (by decide) (by decide)
  have hall := wp_seq hfirst fun empty s₁ h₁ =>
    wp_seq (wp_phase T hr hv hm h₁ hsole hdense (by decide) (by decide) hcow) fun empty s₂ h₂ =>
    wp_seq (wp_phase T hr hv hm h₂ hsole hdense (by decide) (by decide) hcow) fun empty s₃ h₃ =>
    wp_seq (wp_phase T hr hv hm h₃ hsole hdense (by decide) (by decide) hcow) fun empty s₄ h₄ =>
      show wp allowed (pure true) Q s₄ from (wp_pure true).mpr (hQ s₄ (by
        cases empty with
        | true =>
          obtain ⟨⟨own', hcut⟩, -⟩ := h₄
          exact ⟨own', 4, by decide, le_rfl, hcut, .inl rfl⟩
        | false => exact h₄))
  simp only [wp_bind] at hall ⊢
  exact hall

/-! ### What is left -/

omit T hr hv hm in
theorem Cut.own_of (h : Cut users kept r v own own' s s' l) {q : ℕ} {role : Role ℕ}
    (hq : own' q = some role) : (∀ k < l, q ≠ tableAt s.memory r v k) ∧ own q = some role := by
  have hstay : ∀ k < l, q ≠ tableAt s.memory r v k := by
    rintro k hk rfl
    rw [h.gone k hk] at hq
    cases hq
  exact ⟨hstay, (h.stay q hstay).symm.trans hq⟩

/-- A page table that has an entry for another page is still there, with that entry. -/
theorem Cut.other (h : Cut users kept r v own own' s s' l) (hl : 1 ≤ l) (hl' : l ≤ 4) {r' w : ℕ}
    {y : ℕ × Bool} (hsole : Sole own r) (hw : ¬(r' = r ∧ w = v))
    (ht : own t = some (.table r' 1 (w / PAGE_TABLE_ENTRIES)))
    (hleaf : leaf (s.memory t (w % PAGE_TABLE_ENTRIES)) = some y) :
    own' t = own t ∧ s'.memory t (w % PAGE_TABLE_ENTRIES) = s.memory t (w % PAGE_TABLE_ENTRIES) := by
  obtain rfl := hsole ht
  have hwv : w ≠ v := fun heq => hw ⟨rfl, heq⟩
  have hmapped : space own s.memory r' w ≠ none := by
    rw [space_eq T.tree ht, hleaf]
    exact Option.some_ne_none _
  have hstay : ∀ k < l, t ≠ tableAt s.memory r' v k := by
    rintro k hk rfl
    cases k with
    | zero =>
      rw [station_zero T hr hv hm] at ht
      cases ht
    | succ k =>
      rw [station_own T hr hv hm (by omega) (by omega)] at ht
      injection ht with ht
      injection ht with _ hlevel hidx
      obtain rfl : k = 0 := by omega
      refine h.alone 1 hk le_rfl ⟨w, hwv, hmapped, ?_⟩
      rw [pow_one, ← hidx, Nat.zero_add, pow_one]
  refine ⟨h.stay t hstay, h.same t hstay _ ?_⟩
  rintro ⟨rfl, hslot⟩
  rw [station_own T hr hv hm hl hl'] at ht
  injection ht with ht
  injection ht with _ hlevel hidx
  rw [hlevel, paging.slot_one, paging_B] at hslot
  rw [hlevel, pow_one] at hidx
  have hsplit := Nat.div_add_mod' w PAGE_TABLE_ENTRIES
  rw [hslot, ← hidx, Nat.div_add_mod'] at hsplit
  exact hwv hsplit.symm

theorem Cut.space (h : Cut users kept r v own own' s s' l) (hl : 1 ≤ l) (hl' : l ≤ 4)
    (hsole : Sole own r) :
    KPanic.space own' s'.memory = setAt (KPanic.space own s.memory) r v none := by
  funext r' w
  apply Option.ext
  intro y
  rw [space_iff h.tables.tree]
  unfold setAt
  by_cases hit : r' = r ∧ w = v
  · rw [if_pos hit]
    refine iff_of_false ?_ fun hy => by cases hy
    rintro ⟨t, ht, hleaf⟩
    obtain ⟨rfl, rfl⟩ := hit
    obtain ⟨hstay, hown⟩ := h.own_of ht
    have hone := station_own T hr hv hm (l := 1) le_rfl (by decide)
    rw [placeOf, pow_one] at hone
    obtain rfl := T.tree.table_unique hown hone
    have hl1 : l = 1 := by
      by_contra hne
      exact hstay 1 (by omega) rfl
    subst hl1
    have hcut := h.cut
    rw [paging.slot_one, paging_B] at hcut
    rw [hcut, leaf_none.mpr target_zero] at hleaf
    cases hleaf
  · rw [if_neg hit, space_iff T.tree]
    constructor
    · rintro ⟨t, ht, hleaf⟩
      obtain ⟨hstay, hown⟩ := h.own_of ht
      refine ⟨t, hown, ?_⟩
      rw [← hleaf]
      refine (congrArg leaf (h.same t hstay _ ?_)).symm
      rintro ⟨rfl, hslot⟩
      rw [station_own T hr hv hm hl hl'] at hown
      injection hown with hown
      injection hown with hroot hlevel hidx
      rw [hlevel, paging.slot_one, paging_B] at hslot
      rw [hlevel, pow_one] at hidx
      have hsplit := Nat.div_add_mod' w PAGE_TABLE_ENTRIES
      rw [hslot, ← hidx, Nat.div_add_mod'] at hsplit
      exact hit ⟨hroot.symm, hsplit.symm⟩
    · rintro ⟨t, ht, hleaf⟩
      obtain ⟨hown, hmem⟩ := h.other T hr hv hm hl hl' hsole hit ht hleaf
      exact ⟨t, hown.trans ht, by rw [hmem]; exact hleaf⟩

/-- The page is unmapped, and of its tables those are gone that had nothing else below them. -/
structure Unmapped (users kept : ℕ → Prop) (r v : ℕ) (own own' : Own) (s s' : Kernel) : Prop where
  tables : TablesOf users kept own' s'
  space : KPanic.space own' s'.memory = setAt (KPanic.space own s.memory) r v none
  roles : ∀ {q role}, own' q = some role → own q = some role
  gone : ∀ {q}, own q ≠ none → (own' q = none ↔ ∃ k < 4, q = tableAt s.memory r v k ∧
    (1 ≤ k → ¬Occupied (KPanic.space own s.memory) r v k))
  half : ∀ {i}, PAGE_MAP_LEVEL_4_ENTRIES / 2 ≤ i → s'.memory r i = s.memory r i
  pages : ∀ {q}, kept q → s'.memory q = s.memory q
  rest : SameRest s s'

theorem Pruned.unmapped (h : Pruned users kept r v own s s') (hsole : Sole own r) :
    ∃ own', Unmapped users kept r v own own' s s' := by
  obtain ⟨own', l, hl, hl', hcut, hstop⟩ := h
  have htop : ∀ {k}, l ≤ k → k < 4 → Occupied (KPanic.space own s.memory) r v k := by
    intro k hk hk'
    exact (hstop.resolve_left (by omega)).mono hk
  refine ⟨own', hcut.tables, hcut.space T hr hv hm hl hl' hsole, fun hq => (hcut.own_of hq).2,
    fun {q} hq => ⟨fun hnone => ?_, ?_⟩, fun {i} hi => ?_, fun {q} hq => ?_, hcut.rest⟩
  · by_contra hno
    push Not at hno
    refine hq ?_
    rw [← hcut.stay q fun k hk heq => ?_, hnone]
    obtain ⟨hk1, hocc⟩ := hno k (by omega) heq
    exact hcut.alone k hk hk1 hocc
  · rintro ⟨k, hk, rfl, halone⟩
    refine hcut.gone k ?_
    by_contra hge
    exact halone (by omega) (htop (by omega) hk)
  · have hroot : tableAt s.memory r v 4 = r := rfl
    refine hcut.same r (fun k hk => ?_) i ?_
    · have hne := station_ne T hr hv hm (show k < 4 by omega) le_rfl
      rw [hroot] at hne
      exact hne
    · rintro ⟨heq, hslot⟩
      have hl4 : l = 4 := by
        by_contra hne
        exact station_ne T hr hv hm (show l < 4 by omega) le_rfl (hroot.trans heq)
      have hlt := paging.slot_lt (l := l) hv
      rw [hl4] at hlt
      rw [hslot, hl4] at hi
      exact absurd hlt (Nat.not_lt.mpr hi)
  · have hnone := T.apart hq
    have hnot : ∀ k ≤ 4, q ≠ tableAt s.memory r v k := by
      rintro k hk rfl
      cases k with
      | zero =>
        rw [station_zero T hr hv hm] at hnone
        cases hnone
      | succ k =>
        rw [station_own T hr hv hm (by omega) hk] at hnone
        cases hnone
    funext j
    exact hcut.same q (fun k hk => hnot k (by omega)) j fun hit => hnot l hl' hit.1

theorem Unmapped.dense (U : Unmapped users kept r v own own' s s') (hdense : Dense own s.memory r) :
    Dense own' s'.memory r := by
  intro t l x ht hl
  have hown := U.roles ht
  have hkept : ∀ w, w ≠ v → KPanic.space own s.memory r w ≠ none →
      KPanic.space own' s'.memory r w ≠ none := by
    intro w hwv hw
    rw [U.space, setAt, if_neg fun h => hwv h.2]
    exact hw
  obtain ⟨w, hw, hidx⟩ := hdense hown hl
  by_cases hwv : w = v
  · -- the table is one of those for `v`; it is still there, so there is another page
    obtain rfl := hwv
    have hlevel := (T.tree.level hown).1
    have hstation := station_own T hr hv hm hlevel (by omega)
    rw [placeOf, hidx] at hstation
    obtain rfl := T.tree.table_unique hown hstation
    have hstill : ¬(∃ k < 4, tableAt s.memory r w l = tableAt s.memory r w k ∧
        (1 ≤ k → ¬Occupied (KPanic.space own s.memory) r w k)) := by
      rw [← U.gone (by rw [hown]; exact Option.some_ne_none _), ht]
      exact Option.some_ne_none _
    have hocc : Occupied (KPanic.space own s.memory) r w l := by
      by_contra halone
      exact hstill ⟨l, hl, rfl, fun _ => halone⟩
    obtain ⟨w', hne, hw', heq⟩ := hocc
    exact ⟨w', hkept w' hne hw', heq.trans hidx⟩
  · exact ⟨w, hkept w hwv hw, hidx⟩

/-- The page and the tables that had nothing else below them are free, and nothing else is. -/
theorem Unmapped.freed (U : Unmapped users kept r v own own' s s') {q : ℕ} :
    own' q ≠ none ∨ kept q ↔ (own q ≠ none ∨ kept q) ∧ ∀ k < 4, q = tableAt s.memory r v k →
      1 ≤ k ∧ Occupied (KPanic.space own s.memory) r v k := by
  by_cases hown : own q = none
  · have hown' : own' q = none := by
      by_contra hsome
      obtain ⟨role, hrole⟩ := Option.ne_none_iff_exists'.mp hsome
      rw [U.roles hrole] at hown
      cases hown
    have hnot : ∀ k < 4, q ≠ tableAt s.memory r v k := by
      rintro k hk rfl
      cases k with
      | zero =>
        rw [station_zero T hr hv hm] at hown
        cases hown
      | succ k =>
        rw [station_own T hr hv hm (by omega) (by omega)] at hown
        cases hown
    rw [hown, hown']
    exact ⟨fun h => ⟨h, fun k hk heq => absurd heq (hnot k hk)⟩, fun h => h.1⟩
  · have hkept : ¬kept q := fun h => hown (T.apart h)
    rw [or_iff_left hkept, or_iff_left hkept, Ne, U.gone hown]
    constructor
    · intro h
      refine ⟨hown, fun k hk heq => ?_⟩
      by_contra hfree
      exact h ⟨k, hk, heq, fun hk1 hocc => hfree ⟨hk1, hocc⟩⟩
    · rintro ⟨-, h⟩ ⟨k, hk, heq, halone⟩
      obtain ⟨hk1, hocc⟩ := h k hk heq
      exact halone hk1 hocc

end Cut

end KPanic
