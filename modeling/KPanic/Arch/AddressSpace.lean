import KPanic.Arch.UnmapPage

/-!
# An address space as a finite map

What `resolveMapping` answers for the pages of an address space that `mapPage` and `unmapPage` have
made from a new one. The pages in `fixed` belong to the kernel, among them the tables of the upper
half; those in `held` belong to the caller, who can have them mapped.
-/

namespace KPanic

open BitField (Word)
open Function
open PageTree
open CopyOnWrite
open Wp

def USER_PAGES : ℕ := 2 ^ 35
def VIRTUAL_PAGES : ℕ := 2 ^ 36

variable {fixed held : ℕ → Prop} {own own' : Own} {s s' : Kernel} {r l i p v w : ℕ}

/-! ### What `resolveMapping` answers -/

/-- The page number and the page size. -/
def resolved (s : Kernel) (r w : ℕ) : Except Panic (ℕ × ℕ) :=
  ((ArchMemory.resolveMapping r w).run s).map fun m => (m.1.page_ppn, m.1.page_size)

theorem inRange_of_lt (h : v < USER_PAGES) : paging.InRange v := by
  have hbound : USER_PAGES = paging.top * paging.B ^ (paging.H - 1) := by decide
  rw [Shape.InRange, ← hbound]
  exact h

theorem run_resolveMapping {users kept : ℕ → Prop} (T : TablesOf users kept own s)
    (hr : IsRoot paging own r) (hv : paging.InRange v) :
    (ArchMemory.resolveMapping r v).run s = .ok (mappingAt s.memory r v, s) := by
  obtain ⟨m, t, hrun, rfl, rfl⟩ := returns_of_wp
    (wp_resolveMapping (Q := fun m t => m = mappingAt s.memory r v ∧ t = s) T hr hv ⟨rfl, rfl⟩)
  exact hrun

theorem resolved_eq {users kept : ℕ → Prop} (T : TablesOf users kept own s)
    (hr : IsRoot paging own r) (hv : paging.InRange v) :
    resolved s r v = .ok (match space own s.memory r v with
      | some y => (y.1, PAGE_SIZE)
      | none => (0, 0)) := by
  have hwalk : walk paging (link s.memory) r v 4 = (space own s.memory r v).map Prod.fst := walk_space hr hv
  rw [resolved, run_resolveMapping T hr hv]
  unfold mappingAt
  rw [hwalk]
  cases space own s.memory r v with
  | none => rfl
  | some y => rfl

theorem resolved_none_iff {users kept : ℕ → Prop} (T : TablesOf users kept own s)
    (hr : IsRoot paging own r) (hv : paging.InRange v) :
    resolved s r v = .ok (0, 0) ↔ space own s.memory r v = none := by
  rw [resolved_eq T hr hv]
  cases space own s.memory r v with
  | none => exact iff_of_true rfl rfl
  | some y =>
    refine iff_of_false (fun h => ?_) (Option.some_ne_none y)
    injection h with h
    injection h with _ hsize
    cases hsize

theorem resolved_some_iff {users kept : ℕ → Prop} (T : TablesOf users kept own s)
    (hr : IsRoot paging own r) (hv : paging.InRange v) :
    resolved s r v = .ok (p, PAGE_SIZE) ↔ ∃ b, space own s.memory r v = some (p, b) := by
  rw [resolved_eq T hr hv]
  cases space own s.memory r v with
  | none =>
    refine iff_of_false (fun h => ?_) ?_
    · injection h with h
      injection h with _ hsize
      cases hsize
    · rintro ⟨b, hb⟩
      cases hb
  | some y =>
    constructor
    · intro h
      injection h with h
      injection h with hp _
      exact ⟨y.2, by rw [← hp]⟩
    · rintro ⟨b, hb⟩
      cases hb
      rfl

/-! ### The upper half -/

/-- The kernel's tables from `t` down are its own. -/
def KernelTable (fixed : ℕ → Prop) (memory : ℕ → Page) : ℕ → ℕ → Prop
  | 0, _ => True
  | l + 1, t => fixed t ∧ ∀ i < PAGE_TABLE_ENTRIES, present.get (memory t i) ≠ 0 →
      size.get (memory t i) = 0 → KernelTable fixed memory l (page_ppn.get (memory t i))

theorem KernelTable.congr {memory memory' : ℕ → Page} {t : ℕ} (h : KernelTable fixed memory l t)
    (hsame : ∀ q, fixed q → memory' q = memory q) : KernelTable fixed memory' l t := by
  induction l generalizing t with
  | zero => trivial
  | succ l ih =>
    refine ⟨h.1, fun i hi hpres hsize => ?_⟩
    rw [hsame t h.1] at hpres hsize ⊢
    exact ih (h.2 i hi hpres hsize)

def KernelHalf (fixed : ℕ → Prop) (memory : ℕ → Page) (pml4 : Page) : Prop :=
  ∀ i, PAGE_MAP_LEVEL_4_ENTRIES / 2 ≤ i → i < PAGE_MAP_LEVEL_4_ENTRIES →
    present.get (pml4 i) ≠ 0 → KernelTable fixed memory 3 (page_ppn.get (pml4 i))

theorem KernelHalf.congr {memory memory' : ℕ → Page} {pml4 pml4' : Page}
    (h : KernelHalf fixed memory pml4) (hsame : ∀ q, fixed q → memory' q = memory q)
    (hhalf : ∀ {i}, PAGE_MAP_LEVEL_4_ENTRIES / 2 ≤ i → pml4' i = pml4 i) :
    KernelHalf fixed memory' pml4' := by
  intro i hi hi' hpres
  rw [hhalf hi] at hpres ⊢
  exact (h i hi hi' hpres).congr hsame

/-- The programs only read, and from `s` and `s'` they give the same. -/
def Same (s s' : Kernel) {α : Type} (m m' : Kern α) : Prop :=
  ∃ a : Except Panic α, m.run s = a.map (·, s) ∧ m'.run s' = a.map (·, s')

section Same

variable {α β : Type} {f f' : α → Kern β} {m m' n n' : Kern β}

theorem same_pure (a : α) : Same s s' (pure a) (pure a) := ⟨.ok a, rfl, rfl⟩

theorem same_get {f f' : Kernel → Kern β} (h : Same s s' (f s) (f' s')) :
    Same s s' (get >>= f) (get >>= f') := h

theorem same_entry {t : ℕ} {f f' : Word → Kern β} (hword : s'.memory t i = s.memory t i)
    (h : Same s s' (f (s.memory t i)) (f' (s.memory t i))) :
    Same s s' (Kern.entry t i >>= f) (Kern.entry t i >>= f') := by
  obtain ⟨a, hf, hf'⟩ := h
  refine ⟨a, hf, ?_⟩
  show (f' (s'.memory t i)).run s' = _
  rw [hword]
  exact hf'

theorem same_assert {P : Prop} [Decidable P] {e : Panic} {f f' : PUnit → Kern β}
    (h : Same s s' (f ⟨⟩) (f' ⟨⟩)) : Same s s' (Kern.assert P e >>= f) (Kern.assert P e >>= f') := by
  unfold Kern.assert
  by_cases hp : P
  · rw [if_pos hp]
    exact h
  · rw [if_neg hp]
    exact ⟨.error e, rfl, rfl⟩

theorem same_ite {P : Prop} [Decidable P] (h : P → Same s s' m m') (h' : ¬P → Same s s' n n') :
    Same s s' (if P then m else n) (if P then m' else n') := by
  by_cases hp : P
  · rw [if_pos hp, if_pos hp]
    exact h hp
  · rw [if_neg hp, if_neg hp]
    exact h' hp

end Same

/-- For a page of the kernel only its tables and the upper half of the root are read. -/
theorem resolved_kernel (hw : USER_PAGES ≤ w) (hw' : w < VIRTUAL_PAGES)
    (hkernel : KernelHalf fixed s.memory (s.memory r))
    (hsame : ∀ q, fixed q → s'.memory q = s.memory q)
    (hhalf : ∀ {i}, PAGE_MAP_LEVEL_4_ENTRIES / 2 ≤ i → s'.memory r i = s.memory r i)
    (htotal : s'.pm.number_of_pages_ = s.pm.number_of_pages_) :
    resolved s' r w = resolved s r w := by
  have hindex : PAGE_MAP_LEVEL_4_ENTRIES / 2 ≤ w / PAGE_TABLE_ENTRIES / PAGE_TABLE_ENTRIES /
        PAGE_TABLE_ENTRIES % PAGE_MAP_LEVEL_4_ENTRIES := by
    unfold USER_PAGES at hw
    unfold VIRTUAL_PAGES at hw'
    unfold PAGE_MAP_LEVEL_4_ENTRIES PAGE_TABLE_ENTRIES
    omega
  have hindex' : w / PAGE_TABLE_ENTRIES / PAGE_TABLE_ENTRIES / PAGE_TABLE_ENTRIES %
      PAGE_MAP_LEVEL_4_ENTRIES < PAGE_MAP_LEVEL_4_ENTRIES := Nat.mod_lt _ (by decide)
  have hmod : ∀ n, n % PAGE_TABLE_ENTRIES < PAGE_TABLE_ENTRIES := fun n => Nat.mod_lt n (by decide)
  have hread : Same s s' (ArchMemory.resolveMapping r w) (ArchMemory.resolveMapping r w) := by
    unfold ArchMemory.resolveMapping
    refine same_get ?_
    rw [htotal]
    refine same_assert (same_entry (hhalf hindex) (same_ite (fun _ => same_pure _) fun h4 => ?_))
    obtain ⟨hpdpt, hpds⟩ := hkernel _ hindex hindex' h4
    refine same_entry (congrFun (hsame _ hpdpt) _) (same_ite (fun h3 => ?_) fun _ => ?_)
    · obtain ⟨hpd, hpts⟩ := hpds _ (hmod _) h3.1 h3.2
      refine same_assert (same_entry (congrFun (hsame _ hpd) _) (same_ite (fun h2 => ?_) fun _ => ?_))
      · obtain ⟨hpt, -⟩ := hpts _ (hmod _) h2.1 h2.2
        refine same_assert (same_entry (congrFun (hsame _ hpt) _) (same_ite (fun _ => same_pure _) fun _ => ?_))
        exact same_assert (same_pure _)
      · exact same_ite (fun _ => same_pure _) fun _ => same_pure _
    · exact same_ite (fun _ => same_assert (same_pure _)) fun _ => same_pure _
  obtain ⟨a, hrun, hrun'⟩ := hread
  rw [resolved, resolved, hrun, hrun']
  cases a with
  | error e => rfl
  | ok m => rfl

/-! ### Address spaces -/

/-- The kernel, before the address space is made. -/
structure KernelReady (fixed held : ℕ → Prop) (s : Kernel) : Prop where
  pm : PmInv (fun q => fixed q ∨ held q) s.pm s.memory
  zero : fixed 0
  apart : ∀ {q}, fixed q → ¬held q
  unshared : ∀ q, s.cow_map_ q = []
  kernel : KernelHalf fixed s.memory s.kernel_page_map_level_4

/-- The states that the calls for the address space at `r` lead to. The caller can take pages from
the page manager; a page that gets mapped is no longer the caller's. -/
inductive Reached (fixed : ℕ → Prop) (r : ℕ) : (ℕ → Prop) → Kernel → Prop
  | new {held : ℕ → Prop} {s s' : Kernel} (h : KernelReady fixed held s)
      (hrun : (ArchMemory.new).run s = .ok (r, s')) : Reached fixed r held s'
  | allocPPN {held : ℕ → Prop} {s s' : Kernel} {p : ℕ} (h : Reached fixed r held s)
      (hrun : (allocPPN PAGE_SIZE).run s = .ok (p, s')) :
      Reached fixed r (fun q => held q ∨ q = p) s'
  | mapPage {held : ℕ → Prop} {s s' : Kernel} {v p user_access : ℕ} {mapped : Bool}
      (h : Reached fixed r held s) (hv : v < USER_PAGES) (hp : held p)
      (hrun : (ArchMemory.mapPage r v p user_access).run s = .ok (mapped, s')) :
      Reached fixed r (fun q => held q ∧ ¬(mapped = true ∧ q = p)) s'
  | unmapPage {held : ℕ → Prop} {s s' : Kernel} {v : ℕ} {unmapped : Bool}
      (h : Reached fixed r held s) (hv : v < USER_PAGES)
      (hrun : (ArchMemory.unmapPage r v).run s = .ok (unmapped, s')) : Reached fixed r held s'

structure SpaceInv (fixed held : ℕ → Prop) (r : ℕ) (own : Own) (s : Kernel) : Prop where
  tables : TablesOf (fun _ => True) (fun q => fixed q ∨ held q) own s
  root : IsRoot paging own r
  sole : Sole own r
  dense : Dense own s.memory r
  zero : fixed 0
  apart : ∀ {q}, fixed q → ¬held q
  unshared : ∀ q, s.cow_map_ q = []
  kernel : KernelHalf fixed s.memory (s.memory r)

/-- The page map level 4 of a new address space: half empty, half the kernel's. -/
theorem newSpace {f g : Page} {pm : PageManager} (h : KernelReady fixed held s)
    (hfree : ¬((fun _ => none : Own) r ≠ none ∨ fixed r ∨ held r))
    (T : TablesOf (fun _ => True) (fun q => (fixed q ∨ held q) ∨ q = r) (fun _ => none) (s.alloc r pm))
    (hlow : ∀ i < PAGE_MAP_LEVEL_4_ENTRIES / 2, f i = 0)
    (hhigh : ∀ i, PAGE_MAP_LEVEL_4_ENTRIES / 2 ≤ i → f i = s.kernel_page_map_level_4 i) :
    ∃ own, SpaceInv fixed held r own (((s.alloc r pm).setPage r g).setPage r f) := by
  have hused : ¬(fixed r ∨ held r) := fun hr => hfree (.inr hr)
  have hne : ∀ {q}, fixed q ∨ held q → q ≠ r := by
    rintro q hq rfl
    exact hused hq
  have hempty : ∀ u, ¬IsTable (fun _ => none : Own) u := by
    rintro u ⟨r', l, x, hu⟩
    cases hu
  have T2 := (T.setPage (f := g) (.inr (.inr rfl)) (hempty r)).setPage (f := f) (.inr (.inr rfl)) (hempty r)
  generalize hs : ((s.alloc r pm).setPage r g).setPage r f = s₂ at T2
  have hpage : s₂.memory r = f := by
    rw [← hs]
    exact update_self _ _ _
  have hother : ∀ {q}, q ≠ r → s₂.memory q = s.memory q := by
    intro q hq
    rw [← hs]
    show update (update (update s.memory r _) r _) r _ q = _
    rw [update_of_ne hq, update_of_ne hq, update_of_ne hq]
  have hcow : s₂.cow_map_ = s.cow_map_ := by
    rw [← hs]
    rfl
  have htree : Tree paging (link s₂.memory) (update (fun _ => none) r (some (.table r paging.H 0))) := by
    refine T2.tree.addRoot rfl (fun _ _ => rfl) fun j hj => ?_
    rw [link, hpage, hlow j hj, target_zero]
  have htable : ∀ {u r' l x}, update (fun _ => none : Own) r (some (.table r paging.H 0)) u =
      some (.table r' l x) → u = r ∧ r' = r ∧ l = 4 := by
    intro u r' l x hu
    by_cases hur : u = r
    · rw [hur, update_self] at hu
      cases hu
      exact ⟨hur, rfl, rfl⟩
    · rw [update_of_ne hur] at hu
      cases hu
  refine ⟨update (fun _ => none) r (some (.table r paging.H 0)),
    ⟨T2.pm.congr fun q => ?_, .inl h.zero, fun {q} hq => update_of_ne (hne hq) _ _, htree, ?_⟩,
    update_self _ _ _, fun ht => (htable ht).2.1, ?_, h.zero, h.apart, ?_, ?_⟩
  · by_cases hq : q = r
    · simp [hq]
    · simp [hq]
  · intro u r' l x i hu hi
    obtain ⟨rfl, -, rfl⟩ := htable hu
    rw [hpage, hlow i hi]
    exact entryOk_zero _ 4
  · intro u l x hu hl
    have hl4 := (htable hu).2.2
    omega
  · intro q
    rw [hcow]
    exact h.unshared q
  · rw [hpage]
    exact h.kernel.congr (fun q hq => hother (hne (.inl hq))) fun hi => hhigh _ hi

theorem SpaceInv.new (h : KernelReady fixed held s) : wp OutOfMemory ArchMemory.new
    (fun r s' => ∃ own, SpaceInv fixed held r own s') s := by
  have T0 : TablesOf (fun _ => True) (fun q => fixed q ∨ held q) (fun _ => none) s := by
    refine ⟨h.pm.congr fun q => ⟨fun hq => hq.resolve_left fun hne => hne rfl, .inr⟩, .inl h.zero,
      fun _ => rfl, ⟨?_, ?_, ?_, ?_, ?_⟩, ?_⟩
    · intro t r l x ht
      cases ht
    · intro t r x ht
      cases ht
    · intro t r l x i c ht
      cases ht
    · intro c r l x hc
      cases hc
    · intro c v hc
      cases hc
    · intro t r l x i ht
      cases ht
  unfold ArchMemory.new
  rw [wp_bind]
  refine wp_allocPPN_tables T0 fun r pm hfree _ T1 => ?_
  simp only [wp_bind, wp_get, wp_setPage, wp_pure]
  refine newSpace h hfree T1 (fun i hi => ?_) fun i hi => ?_
  · exact if_pos hi
  · exact if_neg (Nat.not_lt.mpr hi)

theorem SpaceInv.allocPPN (I : SpaceInv fixed held r own s) :
    wp OutOfMemory (allocPPN PAGE_SIZE)
      (fun p s' => SpaceInv fixed (fun q => held q ∨ q = p) r own s') s := by
  refine wp_allocPPN_tables I.tables fun p pm hfree hn T1 => ?_
  have hne : ∀ {q}, own q ≠ none ∨ fixed q ∨ held q → q ≠ p := by
    rintro q hq rfl
    exact hfree hq
  have hsame : ∀ {q}, own q ≠ none ∨ fixed q ∨ held q → (s.alloc p pm).memory q = s.memory q :=
    fun hq => Kernel.alloc_of_ne (hne hq)
  have hspace : space own (s.alloc p pm).memory = space own s.memory := by
    refine space_congr I.tables.tree T1.tree fun ht => hsame (.inl ?_)
    rw [ht]
    exact Option.some_ne_none _
  have hroot : (s.alloc p pm).memory r = s.memory r := by
    refine hsame (.inl ?_)
    rw [I.root]
    exact Option.some_ne_none _
  refine ⟨T1.keptCongr fun q => or_assoc.symm, I.root, I.sole, fun ht hl => ?_, I.zero,
    fun {q} hq hheld => ?_, I.unshared, ?_⟩
  · rw [hspace]
    exact I.dense ht hl
  · exact hheld.elim (I.apart hq) (hne (.inr (.inl hq)))
  · rw [hroot]
    exact I.kernel.congr (fun q hq => hsame (.inr (.inl hq))) fun _ => rfl

/-- What `mapPage` leaves when it maps. -/
theorem SpaceInv.mapped (I : SpaceInv fixed held r own s) (hp : held p)
    (T : TablesOf (fun _ => True) (fun q => (fixed q ∨ held q) ∧ q ≠ p) own' s')
    (hc : Change (fun q => fixed q ∨ held q) r v own own' s s'
      (setAt (space own s.memory) r v (some (p, true)))) :
    SpaceInv fixed (fun q => held q ∧ q ≠ p) r own' s' := by
  have hfixed : ∀ q, fixed q → s'.memory q = s.memory q :=
    fun q hq => hc.pages (.inr (.inl hq)) (I.tables.not_table_of_kept (.inl hq))
  refine ⟨T.keptCongr fun q => ?_, hc.keep I.root, fun {t r' l x} ht => ?_, fun {t l x} ht hl => ?_,
    I.zero, fun hq hheld => I.apart hq hheld.1, fun q => ?_, I.kernel.congr hfixed hc.half⟩
  · constructor
    · rintro (hq | hq)
      · exact ⟨.inl hq, fun heq => I.apart hq (heq ▸ hp)⟩
      · exact ⟨.inr hq.1, hq.2⟩
    · rintro ⟨hq | hq, hne⟩
      · exact .inl hq
      · exact .inr ⟨hq, hne⟩
  · obtain hold | hnew := hc.path ht
    · exact I.sole hold
    · exact hnew.1
  · rw [hc.space]
    obtain hold | ⟨-, -, rfl⟩ := hc.path ht
    · obtain ⟨w, hw, hidx⟩ := I.dense hold hl
      refine ⟨w, ?_, hidx⟩
      unfold setAt
      split
      · exact Option.some_ne_none _
      · exact hw
    · refine ⟨v, ?_, rfl⟩
      rw [setAt, if_pos ⟨rfl, rfl⟩]
      exact Option.some_ne_none _
  · rw [hc.rest.cow]
    exact I.unshared q

/-- What `unmapPage` leaves. -/
theorem SpaceInv.unmapped (I : SpaceInv fixed held r own s) (hv : paging.InRange v) {b : Bool}
    (hm : space own s.memory r v = some (p, b))
    (U : Unmapped (fun _ => True) (fun q => fixed q ∨ held q) r v own own' s s') :
    SpaceInv fixed held r own' s' := by
  have hroot : IsRoot paging own' r := by
    have hstill : own' r ≠ none := by
      intro hnone
      obtain ⟨k, hk, heq, -⟩ := (U.gone (by rw [I.root]; exact Option.some_ne_none _)).mp hnone
      have hne := station_ne I.tables I.root hv hm hk le_rfl
      exact hne heq
    obtain ⟨role, hrole⟩ := Option.ne_none_iff_exists'.mp hstill
    have hold := U.roles hrole
    rw [I.root] at hold
    rw [IsRoot, hrole, hold]
  refine ⟨U.tables, hroot, fun ht => I.sole (U.roles ht),
    U.dense I.tables I.root hv hm I.dense, I.zero, I.apart, fun q => ?_,
    I.kernel.congr (fun q hq => U.pages (.inl hq)) U.half⟩
  rw [U.rest.cow]
  exact I.unshared q

theorem held_ne_zero (I : SpaceInv fixed held r own s) (hp : held p) : p ≠ 0 := by
  rintro rfl
  exact I.apart I.zero hp

theorem wp_unmapPage_none {users kept : ℕ → Prop} {allowed : Panic → Prop} {Q : Bool → Kernel → Prop}
    (T : TablesOf users kept own s) (hr : IsRoot paging own r) (hv : paging.InRange v)
    (hfree : space own s.memory r v = none) (he : allowed .notMapped) :
    wp allowed (ArchMemory.unmapPage r v) Q s := by
  have hw4 : walk paging (link s.memory) r v 4 = none := by rw [walk_space hr hv, hfree]; rfl
  have hpage : (mappingAt s.memory r v).page_ppn = 0 := by simp [mappingAt, hw4]
  unfold ArchMemory.unmapPage
  rw [wp_bind]
  refine wp_resolveMapping T hr hv ?_
  rw [wp_bind, Kern.assert, if_neg fun h => h.1 hpage, wp_throw]
  exact he

/-- The calls keep the invariant. -/
theorem Reached.spaceInv (h : Reached fixed r held s) : ∃ own, SpaceInv fixed held r own s := by
  induction h with
  | new h hrun => exact of_wp (SpaceInv.new h) hrun
  | allocPPN _ hrun ih =>
    obtain ⟨own, I⟩ := ih
    have I' := of_wp I.allocPPN hrun
    exact ⟨own, I'⟩
  | @mapPage held s s' v p user mapped _ hv hp hrun ih =>
    obtain ⟨own, I⟩ := ih
    by_cases hfree : space own s.memory r v = none
    · have hnew : wp OutOfMemory (ArchMemory.mapPage r v p user) (fun mapped s' =>
          ∃ own', SpaceInv fixed (fun q => held q ∧ ¬(mapped = true ∧ q = p)) r own' s') s := by
        refine wp_mapPage_new I.tables I.root (inRange_of_lt hv) hfree (.inr hp) (held_ne_zero I hp) trivial ?_
        intro own' s' T hc
        have I' := I.mapped hp T hc
        refine ⟨own', ?_⟩
        simpa using I'
      exact of_wp hnew hrun
    · have hold : wp (fun _ => True) (ArchMemory.mapPage r v p user) (fun mapped s' => mapped = false ∧ s' = s) s :=
        wp_mapPage_old I.tables I.root (inRange_of_lt hv) hfree ⟨rfl, rfl⟩
      obtain ⟨rfl, rfl⟩ := of_wp hold hrun
      refine ⟨own, ?_⟩
      simpa using I
  | @unmapPage held s s' v unmapped _ hv hrun ih =>
    obtain ⟨own, I⟩ := ih
    cases hm : space own s.memory r v with
    | none =>
      have hfails : wp (fun _ => True) (ArchMemory.unmapPage r v) (fun _ _ => False) s :=
        wp_unmapPage_none I.tables I.root (inRange_of_lt hv) hm trivial
      exact (of_wp hfails hrun).elim
    | some y =>
      have hunmap : wp (fun _ => True) (ArchMemory.unmapPage r v) (fun _ s' =>
          ∃ own', SpaceInv fixed held r own' s') s := by
        refine wp_unmapPage I.tables I.root (inRange_of_lt hv) hm I.sole I.dense I.unshared fun s' h => ?_
        obtain ⟨own', U⟩ := h.unmapped I.tables I.root (inRange_of_lt hv) hm I.sole
        exact ⟨own', I.unmapped (inRange_of_lt hv) hm U⟩
      exact of_wp hunmap hrun

/-! ### What the calls do to the map -/

/-- The pages other than `v` keep what they were mapped to. -/
theorem SpaceInv.others (I : SpaceInv fixed held r own s) {users kept : ℕ → Prop} {y : Option (ℕ × Bool)}
    (T : TablesOf users kept own' s') (hr : IsRoot paging own' r)
    (hspace : space own' s'.memory = setAt (space own s.memory) r v y)
    (hfixed : ∀ q, fixed q → s'.memory q = s.memory q)
    (hhalf : ∀ {i}, PAGE_MAP_LEVEL_4_ENTRIES / 2 ≤ i → s'.memory r i = s.memory r i)
    (hrest : SameRest s s') (hw : w < VIRTUAL_PAGES) (hne : w ≠ v) :
    resolved s' r w = resolved s r w := by
  by_cases huser : w < USER_PAGES
  · rw [resolved_eq T hr (inRange_of_lt huser), resolved_eq I.tables I.root (inRange_of_lt huser), hspace,
      setAt, if_neg fun h => hne h.2]
  · exact resolved_kernel (Nat.not_lt.mp huser) hw I.kernel hfixed hhalf hrest.total

/-- `mapPage` maps the page that was unmapped and no other one; what was mapped stays as it is. -/
def MapsPages (held : ℕ → Prop) (r : ℕ) (s : Kernel) : Prop :=
  ∀ v p user_access, v < USER_PAGES → held p →
    (resolved s r v = .ok (0, 0) → match (ArchMemory.mapPage r v p user_access).run s with
      | .ok (mapped, s') => mapped = true ∧ resolved s' r v = .ok (p, PAGE_SIZE) ∧
        ∀ w < VIRTUAL_PAGES, w ≠ v → resolved s' r w = resolved s r w
      | .error e => e = .outOfMemory) ∧
    (resolved s r v ≠ .ok (0, 0) → (ArchMemory.mapPage r v p user_access).run s = .ok (false, s))

theorem SpaceInv.mapsPages (I : SpaceInv fixed held r own s) : MapsPages held r s := by
  intro v p user_access hv hp
  have hrange := inRange_of_lt hv
  refine ⟨fun hfree => ?_, fun hmapped => ?_⟩
  · rw [resolved_none_iff I.tables I.root hrange] at hfree
    have hrun : wp OutOfMemory (ArchMemory.mapPage r v p user_access) (fun mapped s' => mapped = true ∧
        resolved s' r v = .ok (p, PAGE_SIZE) ∧ ∀ w < VIRTUAL_PAGES, w ≠ v → resolved s' r w = resolved s r w) s := by
      refine wp_mapPage_new I.tables I.root hrange hfree (.inr hp) (held_ne_zero I hp) trivial fun own' s' T hc => ?_
      have hfixed : ∀ q, fixed q → s'.memory q = s.memory q :=
        fun q hq => hc.pages (.inr (.inl hq)) (I.tables.not_table_of_kept (.inl hq))
      refine ⟨rfl, ?_, fun w hw hne => I.others T (hc.keep I.root) hc.space hfixed hc.half hc.rest hw hne⟩
      rw [resolved_some_iff T (hc.keep I.root) hrange, hc.space]
      exact ⟨true, if_pos ⟨rfl, rfl⟩⟩
    cases h : (ArchMemory.mapPage r v p user_access).run s with
    | ok x =>
      have hmap := of_wp hrun h
      exact hmap
    | error e =>
      have hmem := error_of_wp hrun h
      exact hmem
  · rw [Ne, resolved_none_iff I.tables I.root hrange] at hmapped
    have hold : wp (fun _ => False) (ArchMemory.mapPage r v p user_access) (fun mapped s' => mapped = false ∧ s = s') s :=
      wp_mapPage_old I.tables I.root hrange hmapped ⟨rfl, rfl⟩
    obtain ⟨b, s', hrun, rfl, rfl⟩ := returns_of_wp hold
    exact hrun

/-- The page manager has given out the page. -/
def InUse (s : Kernel) (q : ℕ) : Prop :=
  q < s.pm.number_of_pages_ ∧ Bitmap.getBit s.pm.page_usage_table_.bitmap_ q = true

theorem inUse_iff {users kept : ℕ → Prop} (T : TablesOf users kept own s) {q : ℕ} :
    InUse s q ↔ own q ≠ none ∨ kept q :=
  ⟨fun h => (T.pm.used h.1).mp h.2, fun h => ⟨T.pm.bound h, (T.pm.used (T.pm.bound h)).mpr h⟩⟩

/-- No other mapped page has its entry below the table for `v` at level `l`. -/
def Alone (s : Kernel) (r v l : ℕ) : Prop :=
  ∀ w < USER_PAGES, w ≠ v → w / PAGE_TABLE_ENTRIES ^ l = v / PAGE_TABLE_ENTRIES ^ l →
    resolved s r w = .ok (0, 0)

theorem lt_of_space {memory : ℕ → Page} (h : space own memory r w ≠ none) : w < USER_PAGES := by
  unfold space at h
  split at h
  · rename_i hin
    have hbound : USER_PAGES = paging.top * paging.B ^ (paging.H - 1) := by decide
    rw [hbound]
    exact hin.2
  · exact absurd rfl h

theorem alone_iff {users kept : ℕ → Prop} (T : TablesOf users kept own s) (hr : IsRoot paging own r) :
    Alone s r v l ↔ ¬Occupied (space own s.memory) r v l := by
  constructor
  · rintro h ⟨w, hne, hw, heq⟩
    have hlt := lt_of_space hw
    exact hw ((resolved_none_iff T hr (inRange_of_lt hlt)).mp (h w hlt hne heq))
  · intro h w hlt hne heq
    rw [resolved_none_iff T hr (inRange_of_lt hlt)]
    by_contra hw
    exact h ⟨w, hne, hw, heq⟩

/-- `unmapPage` frees the page and the tables that it leaves empty. -/
def UnmapsPages (r : ℕ) (s : Kernel) : Prop :=
  ∀ v p, v < USER_PAGES → resolved s r v = .ok (p, PAGE_SIZE) → ∃ m s',
    (ArchMemory.resolveMapping r v).run s = .ok (m, s) ∧
    (ArchMemory.unmapPage r v).run s = .ok (true, s') ∧ resolved s' r v = .ok (0, 0) ∧
    (∀ w < VIRTUAL_PAGES, w ≠ v → resolved s' r w = resolved s r w) ∧
    ∀ q, InUse s' q ↔ InUse s q ∧ q ≠ p ∧ ¬(q = m.pt_ppn ∧ Alone s r v 1) ∧
      ¬(q = m.pd_ppn ∧ Alone s r v 2) ∧ ¬(q = m.pdpt_ppn ∧ Alone s r v 3)

theorem SpaceInv.unmapsPages (I : SpaceInv fixed held r own s) : UnmapsPages r s := by
  intro v p hv hmapped
  have hrange := inRange_of_lt hv
  obtain ⟨b, hm⟩ := (resolved_some_iff I.tables I.root hrange).mp hmapped
  obtain ⟨unmapped, s', hrun, rfl, own', U⟩ := returns_of_wp (wp_unmapPage (Q := fun unmapped s' =>
      unmapped = true ∧ ∃ own', Unmapped (fun _ => True) (fun q => fixed q ∨ held q) r v own own' s s')
    I.tables I.root hrange hm I.sole I.dense I.unshared
    fun s' h => ⟨rfl, h.unmapped I.tables I.root hrange hm I.sole⟩)
  have I' := I.unmapped hrange hm U
  refine ⟨_, s', run_resolveMapping I.tables I.root hrange, hrun, ?_, fun w hw hne => ?_, fun q => ?_⟩
  · rw [resolved_none_iff I'.tables I'.root hrange, U.space]
    exact if_pos ⟨rfl, rfl⟩
  · exact I.others U.tables I'.root U.space (fun q hq => U.pages (.inl hq)) U.half U.rest hw hne
  · rw [inUse_iff U.tables, inUse_iff I.tables, alone_iff I.tables I.root, alone_iff I.tables I.root,
      alone_iff I.tables I.root]
    rw [U.freed I.tables I.root hrange hm]
    refine and_congr_right fun _ => ?_
    constructor
    · intro h
      refine ⟨fun heq => ?_, fun hk => hk.2 (h 1 (by decide) hk.1).2, fun hk => hk.2 (h 2 (by decide) hk.1).2,
        fun hk => hk.2 (h 3 (by decide) hk.1).2⟩
      rw [← tableAt_zero I.root hrange hm] at heq
      exact absurd (h 0 (by decide) heq).1 (by decide)
    · rintro ⟨hp, h1, h2, h3⟩ k hk heq
      match k, hk with
      | 0, _ =>
        rw [tableAt_zero I.root hrange hm] at heq
        exact absurd heq hp
      | 1, _ => exact ⟨by decide, by_contra fun hocc => h1 ⟨heq, hocc⟩⟩
      | 2, _ => exact ⟨by decide, by_contra fun hocc => h2 ⟨heq, hocc⟩⟩
      | 3, _ => exact ⟨by decide, by_contra fun hocc => h3 ⟨heq, hocc⟩⟩

/-! ### The indices of a page -/

/-- `m` has the indices that belong to the page `v`. -/
structure IndicesOf (v : ℕ) (m : ArchMemoryMapping) : Prop where
  pml4i : m.pml4i = v / PAGE_TABLE_ENTRIES / PAGE_TABLE_ENTRIES / PAGE_TABLE_ENTRIES % PAGE_MAP_LEVEL_4_ENTRIES
  pdpti : m.pdpti = v / PAGE_TABLE_ENTRIES / PAGE_TABLE_ENTRIES % PAGE_TABLE_ENTRIES
  pdi : m.pdi = v / PAGE_TABLE_ENTRIES % PAGE_TABLE_ENTRIES
  pti : m.pti = v % PAGE_TABLE_ENTRIES

/-- `resolveMapping` takes the page number apart in the same way, whatever it finds. -/
theorem wp_indices : wp (fun _ => True) (ArchMemory.resolveMapping r v) (fun m _ => IndicesOf v m) s := by
  have hdone : ∀ {m : ArchMemoryMapping} {t : Kernel}, IndicesOf v m →
      wp (fun _ => True) (pure m : Kern ArchMemoryMapping) (fun m _ => IndicesOf v m) t :=
    fun h => (wp_pure _).mpr h
  unfold ArchMemory.resolveMapping
  refine wp_skip fun _ _ => wp_skip fun _ _ => wp_skip fun _ _ => wp_ite (fun _ => hdone ⟨rfl, rfl, rfl, rfl⟩) fun _ => ?_
  refine wp_skip fun _ _ => wp_ite (fun _ => ?_) fun _ => ?_
  · refine wp_skip fun _ _ => wp_skip fun _ _ => wp_ite (fun _ => ?_) fun _ => ?_
    · refine wp_skip fun _ _ => wp_skip fun _ _ => wp_ite (fun _ => hdone ⟨rfl, rfl, rfl, rfl⟩) fun _ => ?_
      exact wp_skip fun _ _ => hdone ⟨rfl, rfl, rfl, rfl⟩
    · exact wp_ite (fun _ => hdone ⟨rfl, rfl, rfl, rfl⟩) fun _ => hdone ⟨rfl, rfl, rfl, rfl⟩
  · exact wp_ite (fun _ => wp_skip fun _ _ => hdone ⟨rfl, rfl, rfl, rfl⟩) fun _ => hdone ⟨rfl, rfl, rfl, rfl⟩

theorem virtAddr_eq (pml4i pdpti pdi pti : ℕ) : ArchMemory.virtAddr pml4i pdpti pdi pti =
    (((pml4i * PAGE_TABLE_ENTRIES + pdpti) * PAGE_TABLE_ENTRIES + pdi) * PAGE_TABLE_ENTRIES + pti) * PAGE_SIZE := by
  unfold ArchMemory.virtAddr PAGE_TABLE_ENTRIES PAGE_SIZE
  simp only [Nat.shiftLeft_eq]
  ring

theorem virtAddr_div (pml4i pdpti pdi pti : ℕ) : ArchMemory.virtAddr pml4i pdpti pdi pti / PAGE_SIZE =
    ((pml4i * PAGE_TABLE_ENTRIES + pdpti) * PAGE_TABLE_ENTRIES + pdi) * PAGE_TABLE_ENTRIES + pti := by
  rw [virtAddr_eq, Nat.mul_div_cancel _ (by decide)]

/-- The indices determine the page. -/
theorem IndicesOf.virtAddr {m : ArchMemoryMapping} (h : IndicesOf v m) (hv : v < VIRTUAL_PAGES) :
    ArchMemory.virtAddr m.pml4i m.pdpti m.pdi m.pti = v * PAGE_SIZE := by
  have htop : v / PAGE_TABLE_ENTRIES / PAGE_TABLE_ENTRIES / PAGE_TABLE_ENTRIES < PAGE_MAP_LEVEL_4_ENTRIES := by
    unfold VIRTUAL_PAGES at hv
    unfold PAGE_TABLE_ENTRIES PAGE_MAP_LEVEL_4_ENTRIES
    omega
  rw [virtAddr_eq, h.pml4i, h.pdpti, h.pdi, h.pti, Nat.mod_eq_of_lt htop, Nat.div_add_mod', Nat.div_add_mod',
    Nat.div_add_mod']

/-- Indices in range are those of the page that they determine. -/
theorem IndicesOf.of_virtAddr {pml4i pdpti pdi pti : ℕ} {m : ArchMemoryMapping}
    (h : IndicesOf (ArchMemory.virtAddr pml4i pdpti pdi pti / PAGE_SIZE) m) (h4 : pml4i < PAGE_MAP_LEVEL_4_ENTRIES)
    (h3 : pdpti < PAGE_TABLE_ENTRIES) (h2 : pdi < PAGE_TABLE_ENTRIES) (h1 : pti < PAGE_TABLE_ENTRIES) :
    m.pml4i = pml4i ∧ m.pdpti = pdpti ∧ m.pdi = pdi ∧ m.pti = pti := by
  have hdiv : ∀ a, ∀ b < PAGE_TABLE_ENTRIES, (a * PAGE_TABLE_ENTRIES + b) / PAGE_TABLE_ENTRIES = a := by
    intro a b hb
    rw [Nat.mul_comm, Nat.mul_add_div (by decide), Nat.div_eq_of_lt hb, Nat.add_zero]
  have hmod : ∀ a, ∀ b < PAGE_TABLE_ENTRIES, (a * PAGE_TABLE_ENTRIES + b) % PAGE_TABLE_ENTRIES = b := by
    intro a b hb
    rw [Nat.mul_add_mod', Nat.mod_eq_of_lt hb]
  rw [virtAddr_div] at h
  refine ⟨?_, ?_, ?_, ?_⟩
  · rw [h.pml4i, hdiv _ _ h1, hdiv _ _ h2, hdiv _ _ h3, Nat.mod_eq_of_lt h4]
  · rw [h.pdpti, hdiv _ _ h1, hdiv _ _ h2, hmod _ _ h3]
  · rw [h.pdi, hdiv _ _ h1, hmod _ _ h2]
  · rw [h.pti, hmod _ _ h1]

/-- What `resolveMapping` takes for the four indices, and what `virtAddr` makes of them. -/
structure Decomposes (r : ℕ) (s : Kernel) : Prop where
  inverse : ∀ v m t, v < VIRTUAL_PAGES → (ArchMemory.resolveMapping r v).run s = .ok (m, t) →
    ArchMemory.virtAddr m.pml4i m.pdpti m.pdi m.pti = v * PAGE_SIZE
  injective : ∀ v w m m' t t', v < VIRTUAL_PAGES → w < VIRTUAL_PAGES →
    (ArchMemory.resolveMapping r v).run s = .ok (m, t) → (ArchMemory.resolveMapping r w).run s = .ok (m', t') →
    (m.pml4i, m.pdpti, m.pdi, m.pti) = (m'.pml4i, m'.pdpti, m'.pdi, m'.pti) → v = w
  indices : ∀ pml4i pdpti pdi pti m t, pml4i < PAGE_MAP_LEVEL_4_ENTRIES → pdpti < PAGE_TABLE_ENTRIES →
    pdi < PAGE_TABLE_ENTRIES → pti < PAGE_TABLE_ENTRIES →
    (ArchMemory.resolveMapping r (ArchMemory.virtAddr pml4i pdpti pdi pti / PAGE_SIZE)).run s = .ok (m, t) →
    m.pml4i = pml4i ∧ m.pdpti = pdpti ∧ m.pdi = pdi ∧ m.pti = pti

theorem decomposes (r : ℕ) (s : Kernel) : Decomposes r s where
  inverse _ _ _ hv hrun := (of_wp wp_indices hrun).virtAddr hv
  injective v w m m' _ _ hv hw hrun hrun' heq := by
    have hpage := (of_wp wp_indices hrun).virtAddr hv
    have hpage' := (of_wp wp_indices hrun').virtAddr hw
    simp only [Prod.mk.injEq] at heq
    rw [heq.1, heq.2.1, heq.2.2.1, heq.2.2.2, hpage'] at hpage
    exact (Nat.mul_right_cancel (by decide) hpage).symm
  indices _ _ _ _ _ _ h4 h3 h2 h1 hrun := (of_wp wp_indices hrun).of_virtAddr h4 h3 h2 h1

/-- The page tables of an address space are a finite map, which `mapPage` and `unmapPage` update. -/
theorem addressSpace_isMap (h : Reached fixed r held s) :
    MapsPages held r s ∧ UnmapsPages r s ∧ Decomposes r s := by
  obtain ⟨own, I⟩ := h.spaceInv
  exact ⟨I.mapsPages, I.unmapsPages, decomposes r s⟩

/-- Eight pages; page 0 is reserved, and page 1 has been given out. -/
def eightPages : Kernel where
  memory _ := fun _ => BitVec.allOnes 64
  pm := ⟨((((Bitmap.new 8).setBit 0).2).setBit 1).2, 8, 2⟩
  kernel_page_map_level_4 := fun _ => 0
  cow_map_ _ := []
  process_list_ _ := none
  pid_counter_ := 0

theorem eightPages_ready : KernelReady (· = 0) (· = 1) eightPages where
  pm := ⟨Bitmap.setBit_ok (Bitmap.setBit_ok ⟨rfl, rfl⟩ (by decide)) (by decide), rfl, by decide,
    by decide, by
      rintro p (rfl | rfl)
      · decide
      · decide, .inl rfl, fun _ _ _ _ => rfl, by
      intro p hp
      change p < 2 at hp
      omega⟩
  zero := rfl
  apart := by
    rintro q rfl
    decide
  unshared _ := rfl
  kernel i _ _ hpres := absurd (BitField.get_zero present) hpres

theorem addressSpace_isMap_eight : ∃ s s', (ArchMemory.new).run eightPages = .ok (2, s) ∧
    (ArchMemory.mapPage 2 5 1 1).run s = .ok (true, s') ∧ MapsPages (· = 1) 2 s ∧ UnmapsPages 2 s' := by
  have hruns : (match (ArchMemory.new).run eightPages with
      | .ok (r, s) => r == 2 && (match (ArchMemory.mapPage 2 5 1 1).run s with
        | .ok (mapped, _) => mapped
        | .error _ => false)
      | .error _ => false) = true := by decide +kernel
  split at hruns
  · rename_i r s hnew
    obtain ⟨hroot, hmaps⟩ := Bool.and_eq_true_iff.mp hruns
    obtain rfl := beq_iff_eq.mp hroot
    have hreached := Reached.new eightPages_ready hnew
    split at hmaps
    · rename_i mapped s' hmap
      subst hmaps
      have hreached' := hreached.mapPage (by decide) rfl hmap
      exact ⟨s, s', hnew, hmap, (addressSpace_isMap hreached).1, (addressSpace_isMap hreached').2.1⟩
    · cases hmaps
  · cases hruns

end KPanic
