import KPanic.Kernel.VmTrees

/-!
# `fork` copies the pages

What the loops of `copyPagesToNewArchMemCOW` and `copyPagesToNewArchMem` have done when they come to a
virtual page. Both leave the child with the contents of the parent; the first one shares its pages.
-/

namespace KPanic

open Function
open PageTree
open CopyOnWrite
open Wp

variable {kept : ℕ → Prop} {mode : ForkMode} {own own' own'' : Own} {s₀ s s' : Kernel}
  {r rc p v proc pid t : ℕ} {b : Bool} {pr prc : UserProcess}

/-- The pages below `v` of the tree at `r` are copied to the one at `rc`, which was empty. -/
structure Copied (mode : ForkMode) (kept : ℕ → Prop) (own own' : Own) (s₀ s : Kernel) (r rc v : ℕ) : Prop where
  inv : VmInv kept own' s
  keep : ∀ {u role}, own u = some role → own' u = some role
  roots : ∀ u, IsRoot paging own' u ↔ IsRoot paging own u
  links : ∀ {u l x i}, own u = some (.table r l x) → link s.memory u i = link s₀.memory u i
  phys : ∀ r' u, r' ≠ rc → (space own' s.memory r' u).map Prod.fst = (space own s₀.memory r' u).map Prod.fst
  view : ∀ r', r' ≠ rc → pageAt own' s r' = pageAt own s₀ r'
  free : ∀ u, v ≤ u → space own' s.memory rc u = none
  copy : ∀ u, u < v → pageAt own' s rc u = pageAt own s₀ r u
  same : mode = .cow → ∀ u, u < v →
    (space own' s.memory rc u).map Prod.fst = (space own s₀.memory r u).map Prod.fst
  list : s.process_list_ = s₀.process_list_
  counter : s.pid_counter_ = s₀.pid_counter_
  total : s.pm.number_of_pages_ = s₀.pm.number_of_pages_

namespace Copied

theorem start (V : VmInv kept own s) (hempty : ∀ u, space own s.memory rc u = none) :
    Copied mode kept own own s s r rc 0 where
  inv := V
  keep := id
  roots _ := Iff.rfl
  links _ := rfl
  phys _ _ _ := rfl
  view _ _ := rfl
  free u _ := hempty u
  copy _ hu := absurd hu (Nat.not_lt_zero _)
  same _ _ hu := absurd hu (Nat.not_lt_zero _)
  list := rfl
  counter := rfl
  total := rfl

theorem sameTables (C : Copied mode kept own own' s₀ s r rc v) : SameTables own s₀.memory r s := by
  intro t l x i ht hi
  refine ⟨C.links ht, fun hp => ?_⟩
  exact ((C.inv.tables.words (C.keep ht) hi).flags hp).1

theorem unmapped (C : Copied mode kept own own' s₀ s r rc v) (h : space own s₀.memory r v = none) :
    Copied mode kept own own' s₀ s r rc (v + 1) where
  inv := C.inv
  keep := C.keep
  roots := C.roots
  links := C.links
  phys := C.phys
  view := C.view
  free u hu := C.free u (by omega)
  copy u hu := by
    rcases Nat.lt_succ_iff_lt_or_eq.mp hu with hlt | rfl
    · exact C.copy u hlt
    · rw [pageAt_none.mpr h, pageAt_none]
      exact C.free u (Nat.le_refl u)
  same hmode u hu := by
    rcases Nat.lt_succ_iff_lt_or_eq.mp hu with hlt | rfl
    · exact C.same hmode u hlt
    · rw [h, C.free u (Nat.le_refl u)]
  list := C.list
  counter := C.counter
  total := C.total

/-- The page that the parent maps, and the entry that the loop has come to. -/
theorem mapped (C : Copied mode kept own own' s₀ s r rc v) (hne : r ≠ rc)
    (ht : own t = some (placeOf r 1 v)) (hm : space own s₀.memory r v ≠ none) :
    ∃ p b, space own' s.memory r v = some (p, b) ∧ own' t = some (placeOf r 1 v) ∧ leaf (s.memory t (paging.slot v 1)) = some (p, b) := by
  obtain ⟨y, hy⟩ := Option.ne_none_iff_exists'.mp hm
  have hphys := C.phys r v hne
  rw [hy, Option.map_some, Option.map_eq_some_iff] at hphys
  obtain ⟨⟨p, b⟩, hspace, rfl⟩ := hphys
  have hplace := C.keep ht
  refine ⟨y.1, b, hspace, hplace, ?_⟩
  rw [placeOf, pow_one] at hplace
  rw [slot_eq.1, ← space_eq C.inv.tables.tree hplace, hspace]

end Copied

theorem setAt_comm {sp : ℕ → ℕ → Option (ℕ × Bool)} {x y : Option (ℕ × Bool)} (h : r ≠ rc) :
    setAt (setAt sp rc v x) r v y = setAt (setAt sp r v y) rc v x := by
  funext r' u
  unfold setAt
  by_cases h1 : r' = r ∧ u = v
  · rw [if_pos h1, if_neg (by rw [h1.1]; exact fun h2 => h h2.1), if_pos h1]
  · rw [if_neg h1, if_neg h1]

theorem page_of_leaf {w : BitField.Word} (h : leaf w = some (p, b)) : page_ppn.get w = p := by
  have ht := target_of_leaf h
  unfold target at ht
  split at ht
  · cases ht
  · exact Option.some.inj ht

/-- What one pass changes when it shares the page `p`. -/
structure SharePass (kept : ℕ → Prop) (own own' : Own) (s s' : Kernel) (r rc v p proc pid : ℕ) : Prop where
  tables : Tables kept own' s'
  space : space own' s'.memory =
    setAt (setAt (space own s.memory) r v (some (p, false))) rc v (some (p, false))
  keep : ∀ {u role}, own u = some role → own' u = some role
  roots : ∀ u, IsRoot paging own' u ↔ IsRoot paging own u
  links : ∀ {u l x i}, own u = some (.table r l x) → link s'.memory u i = link s.memory u i
  mem : ∀ {r' u q b}, KPanic.space own s.memory r' u = some (q, b) → s'.memory q = s.memory q
  cow : s'.cow_map_ = update s.cow_map_ p (((s.cow_map_ p).insert proc).insert pid)
  list : s'.process_list_ = s.process_list_
  counter : s'.pid_counter_ = s.pid_counter_
  total : s'.pm.number_of_pages_ = s.pm.number_of_pages_

theorem Copied.share (C : Copied .cow kept own own' s₀ s r rc v) (hne : r ≠ rc)
    (hr : rootOf s proc = some r) (hrc : rootOf s pid = some rc)
    (hm : space own' s.memory r v = some (p, b)) (P : SharePass kept own' own'' s s' r rc v p proc pid) :
    Copied .cow kept own own'' s₀ s' r rc (v + 1) := by
  have hfree := C.free v (Nat.le_refl v)
  have hfst : ∀ r' u, r' ≠ rc →
      (space own'' s'.memory r' u).map Prod.fst = (space own' s.memory r' u).map Prod.fst := by
    intro r' u hr'
    rw [P.space, setAt_of_ne fun h => hr' h.1]
    exact fst_setAt hm
  have hview : ∀ r', r' ≠ rc → pageAt own'' s' r' = pageAt own' s r' := by
    intro r' hr'
    funext u
    have h := hfst r' u hr'
    unfold pageAt CopyOnWrite.view
    cases hx : space own' s.memory r' u with
    | none =>
      rw [hx, Option.map_none, Option.map_eq_none_iff] at h
      rw [h]
      rfl
    | some x =>
      rw [hx, Option.map_some, Option.map_eq_some_iff] at h
      obtain ⟨y, hy, hfst⟩ := h
      rw [hy, Option.map_some, Option.map_some, hfst, P.mem hx]
  have hold : ∀ u, u ≠ v → space own'' s'.memory rc u = space own' s.memory rc u := by
    intro u hu
    rw [P.space, setAt_of_ne fun h => hu h.2, setAt_of_ne fun h => hu h.2]
  have hself : space own'' s'.memory rc v = some (p, false) := by rw [P.space, setAt_self]
  have hpar : (space own s₀.memory r v).map Prod.fst = some p := by
    rw [← C.phys r v hne, hm]
    rfl
  refine ⟨⟨P.tables, ?_, fun hu => ?_, fun hu => ?_⟩, fun hu => P.keep (C.keep hu), fun u => ?_, fun hu => ?_,
    fun r' u hr' => ?_, fun r' hr' => ?_, fun u hu => ?_, fun u hu => ?_, fun hmode u hu => ?_,
    P.list.trans C.list, P.counter.trans C.counter, P.total.trans C.total⟩
  · rw [P.space, P.cow, rootOf_congr P.list]
    exact C.inv.sharing.share hr hrc hm hfree
  · rw [rootOf_congr P.list] at hu
    exact (P.roots _).mpr (C.inv.root hu)
  · rw [P.list] at hu
    rw [P.counter]
    exact C.inv.counter hu
  · exact (P.roots u).trans (C.roots u)
  · rw [P.links (C.keep hu), C.links hu]
  · rw [hfst r' u hr', C.phys r' u hr']
  · rw [hview r' hr', C.view r' hr']
  · rw [hold u (by omega)]
    exact C.free u (by omega)
  · rcases Nat.lt_succ_iff_lt_or_eq.mp hu with hlt | rfl
    · rw [← C.copy u hlt]
      unfold pageAt CopyOnWrite.view
      rw [hold u (by omega)]
      cases hx : space own' s.memory rc u with
      | none => rfl
      | some x => rw [Option.map_some, Option.map_some, P.mem hx]
    · rw [← C.view r hne]
      unfold pageAt CopyOnWrite.view
      rw [hself, hm, Option.map_some, Option.map_some, P.mem hm]
  · rcases Nat.lt_succ_iff_lt_or_eq.mp hu with hlt | rfl
    · rw [hold u (by omega), C.same hmode u hlt]
    · rw [hself, hpar]
      rfl

/-- Writing a flag of an entry leaves all links. -/
theorem link_setEntry {w : BitField.Word} {i : ℕ} (h : target w = link s.memory t i) (u j : ℕ) :
    link (s.setEntry t i w).memory u j = link s.memory u j := by
  by_cases hit : u = t ∧ j = i
  · obtain ⟨rfl, rfl⟩ := hit
    rw [link, Kernel.setEntry_self, h]
  · rw [link, Kernel.setEntry_of_ne hit]
    rfl

theorem listed_of_root (h : rootOf s pid = some r) : (s.process_list_ pid).isSome = true := by
  rw [← Option.isSome_map (f := UserProcess.page_map_level_4_)]
  rw [rootOf] at h
  rw [h]
  rfl

/-- One pass of the loop that shares the pages. -/
theorem wp_sharePage (C : Copied .cow kept own own' s₀ s r rc v) (hv : paging.InRange v)
    (ht : own t = some (placeOf r 1 v)) (hm : space own s₀.memory r v ≠ none)
    (hr : rootOf s₀ proc = some r) (hrc : rootOf s₀ pid = some rc) (hne : r ≠ rc) :
    wp OutOfMemory (do
      let w ← Kern.entry t (paging.slot v 1)
      let vpn_mapped ← ArchMemory.copyPageHierarchy r v (page_ppn.get w) rc 0
      Kern.assert (vpn_mapped = true) .alreadyMapped
      Kern.setField t (paging.slot v 1) writeable 0
      let w ← Kern.entry t (paging.slot v 1)
      addToCOWMap (page_ppn.get w) proc pid)
      (fun _ s' => ∃ own'', Copied .cow kept own own'' s₀ s' r rc (v + 1)) s := by
  obtain ⟨p, b, hspace, hplace, hleaf⟩ := C.mapped hne ht hm
  have hr' : rootOf s proc = some r := by rw [rootOf_congr C.list]; exact hr
  have hrc' : rootOf s pid = some rc := by rw [rootOf_congr C.list]; exact hrc
  have hfree := C.free v (Nat.le_refl v)
  rw [wp_bind, wp_entry, page_of_leaf hleaf, wp_bind]
  refine wp_copyPageHierarchy_share C.inv.tables (C.inv.root hrc') hv (C.inv.root hr') hne hspace hfree
    fun own₁ s₁ T₁ hc₁ => ?_
  rw [wp_bind]
  refine wp_assert rfl ?_
  have hword : s₁.memory t = s.memory t := hc₁.other hplace hne
  have hleaf₁ : leaf (s₁.memory t (paging.slot v 1)) = some (p, b) := by rw [hword]; exact hleaf
  obtain ⟨T₂, hc₂⟩ := flagPage T₁ (hc₁.keep hplace) hleaf₁ (n := 0) (by decide)
  have htarget : target (writeable.put (s₁.memory t (paging.slot v 1)) 0) = link s₁.memory t (paging.slot v 1) := by
    have hok := flagWord_ok (T₁.words (hc₁.keep hplace) (l := 1) slot_one_lt) hleaf₁ (n := 0) (by decide)
    rw [target_of_leaf hok.2, link, target_of_leaf hleaf₁]
  have hppn : page_ppn.get (writeable.put (s₁.memory t (paging.slot v 1)) 0) = p := by
    rw [BitField.get_put_disjoint _ _ (by decide), page_of_leaf hleaf₁]
  rw [wp_bind, wp_setField, wp_bind, wp_entry, Kernel.setEntry_self, hppn]
  generalize hs₂ : s₁.setEntry t (paging.slot v 1) (writeable.put (s₁.memory t (paging.slot v 1)) 0) = s₂ at T₂ hc₂ ⊢
  have hlist : s₂.process_list_ = s.process_list_ := hc₂.rest.list.trans hc₁.rest.list
  unfold addToCOWMap
  rw [wp_bind, wp_get, wp_bind]
  refine wp_assert ⟨?_, ?_⟩ ?_
  · rw [hlist]
    exact listed_of_root hr'
  · rw [hlist]
    exact listed_of_root hrc'
  rw [wp_set]
  refine ⟨own₁, C.share hne hr' hrc' hspace ⟨T₂.other rfl rfl, ?_, hc₁.keep, fun u => ⟨?_, ?_⟩, fun hu => ?_,
    fun hx => ?_, ?_, hlist, hc₂.rest.counter.trans hc₁.rest.counter, hc₂.rest.total.trans hc₁.rest.total⟩⟩
  · show space own₁ s₂.memory = _
    rw [hc₂.space, hc₁.space, setAt_comm hne]
    rfl
  · exact fun hu => hc₁.roots hu
  · exact fun hu => hc₁.keep hu
  · show link s₂.memory _ _ = _
    rw [← hs₂, link_setEntry htarget, link, hc₁.other hu hne]
    rfl
  · show s₂.memory _ = _
    have hmapped := C.inv.mapped hx
    have hleaf₂ := hc₁.keep (space_own C.inv.tables.tree hx)
    rw [hc₂.pages (.inl (by rw [hleaf₂]; exact Option.some_ne_none _)) (TablesOf.not_table_of_leaf hleaf₂),
      hc₁.pages hmapped.1 hmapped.2]
  · show update s₂.cow_map_ p _ = _
    rw [hc₂.rest.cow, hc₁.rest.cow]


/-- One pass of the loop that copies the pages. -/
theorem wp_newPage (C : Copied .eager kept own own' s₀ s r rc v) (hv : paging.InRange v)
    (ht : own t = some (placeOf r 1 v)) (hm : space own s₀.memory r v ≠ none)
    (hr : IsRoot paging own r) (hrc : IsRoot paging own rc) (hne : r ≠ rc) :
    wp OutOfMemory (do
      let phys_page ← allocPPN PAGE_SIZE
      let vpn_mapped ← ArchMemory.copyPageHierarchy r v phys_page rc 1
      Kern.assert (vpn_mapped = true) .alreadyMapped
      let w ← Kern.entry t (paging.slot v 1)
      ArchMemory.copyPage phys_page (page_ppn.get w))
      (fun _ s' => ∃ own'', Copied .eager kept own own'' s₀ s' r rc (v + 1)) s := by
  obtain ⟨p, b, hspace, hplace, hleaf⟩ := C.mapped hne ht hm
  have hfree := C.free v (Nat.le_refl v)
  rw [wp_bind]
  refine C.inv.wp_alloc fun q s₁ H₁ hq₁ hzero hsame => ?_
  rw [wp_bind]
  refine wp_copyPageHierarchy_new H₁.inv.tables ((C.roots rc).mpr hrc) hv ((C.roots r).mpr hr) hne
    (by rw [hq₁.space, hspace]; exact Option.some_ne_none _) (by rw [hq₁.space, hfree]) (.inr rfl) H₁.ne_zero hzero
    fun own₂ s₂ T₂ hc₂ => ?_
  obtain ⟨V₂, M⟩ := H₁.mapped (by rw [hq₁.space, hfree]) T₂ hc₂
  rw [wp_bind]
  refine wp_assert rfl ?_
  have htable : ∀ {u l x}, own' u = some (.table r l x) → s₂.memory u = s.memory u := by
    intro u l x hu
    rw [hc₂.other hu hne, hsame u (H₁.ne_own hu)]
  rw [wp_bind, wp_entry, htable hplace, page_of_leaf hleaf]
  refine wp_copyPage ?_
  have hnew : space own₂ s₂.memory rc v = some (q, true) := by rw [M.space, setAt_self]
  obtain ⟨V₃, hspace₃, hview₃⟩ := V₂.setPage hnew (s₂.memory p)
  have hsp : ∀ r' u, ¬(r' = rc ∧ u = v) →
      space own₂ (s₂.setPage q (s₂.memory p)).memory r' u = space own' s.memory r' u := by
    intro r' u hmiss
    rw [hspace₃, M.space, setAt_of_ne hmiss, hq₁.space]
  have hview : ∀ r' u, ¬(r' = rc ∧ u = v) →
      pageAt own₂ (s₂.setPage q (s₂.memory p)) r' u = pageAt own' s r' u := by
    intro r' u hmiss
    rw [hview₃, if_neg hmiss, M.pageAt, if_neg hmiss, hq₁.page]
  have hcopied : pageAt own₂ (s₂.setPage q (s₂.memory p)) rc v = pageAt own' s r v := by
    rw [hview₃, if_pos ⟨rfl, rfl⟩, M.mem (by rw [hq₁.space]; exact hspace), hq₁.mem hspace, pageAt, view, hspace]
    rfl
  have hlist : s₂.process_list_ = s.process_list_ := M.rest.list.trans hq₁.rest.list
  refine ⟨own₂, V₃, fun hu => hc₂.keep (C.keep hu), fun u => (M.roots u).trans (C.roots u), fun {u l x i} hu => ?_,
    fun r' u hr' => ?_, fun r' hr' => ?_, fun u hu => ?_, fun u hu => ?_, fun h => ?_, hlist.trans C.list, ?_, ?_⟩
  · have huq : u ≠ q := H₁.ne_own (C.keep hu)
    have hpage : (s₂.setPage q (s₂.memory p)).memory u = s₂.memory u := update_of_ne huq _ _
    rw [link, hpage, htable (C.keep hu)]
    exact C.links hu
  · rw [hsp r' u fun h => hr' h.1, C.phys r' u hr']
  · rw [← C.view r' hr']
    exact funext fun u => hview r' u fun h => hr' h.1
  · rw [hsp rc u (by omega)]
    exact C.free u (by omega)
  · rcases Nat.lt_succ_iff_lt_or_eq.mp hu with hlt | rfl
    · rw [hview rc u (by omega), C.copy u hlt]
    · rw [hcopied, C.view r hne]
  · cases h
  · exact (M.rest.counter.trans hq₁.rest.counter).trans C.counter
  · exact (M.rest.total.trans hq₁.rest.total).trans C.total

/-! ### The loops -/

/-- All pages are copied. -/
theorem Copied.all (C : Copied mode kept own own' s₀ s r rc (paging.top * PAGE_TABLE_ENTRIES ^ 3)) :
    pageAt own' s rc = pageAt own s₀ r ∧
    (mode = .cow → ∀ u, (space own' s.memory rc u).map Prod.fst = (space own s₀.memory r u).map Prod.fst) := by
  have hout : ∀ u, paging.top * PAGE_TABLE_ENTRIES ^ 3 ≤ u →
      space own s₀.memory r u = none ∧ space own' s.memory rc u = none := by
    intro u hu
    refine ⟨?_, C.free u hu⟩
    rw [space, if_neg]
    exact fun h => Nat.not_lt.mpr hu h.2
  constructor
  · funext u
    by_cases hu : u < paging.top * PAGE_TABLE_ENTRIES ^ 3
    · exact C.copy u hu
    · obtain ⟨h1, h2⟩ := hout u (Nat.not_lt.mp hu)
      rw [pageAt_none.mpr h1, pageAt_none.mpr h2]
  · intro hmode u
    by_cases hu : u < paging.top * PAGE_TABLE_ENTRIES ^ 3
    · exact C.same hmode u hu
    · obtain ⟨h1, h2⟩ := hout u (Nat.not_lt.mp hu)
      rw [h1, h2]

/-- What `fork` makes of the page tables of the parent at `r` and the child at `rc`. -/
abbrev AllCopied (mode : ForkMode) (kept : ℕ → Prop) (own own' : Own) (s s' : Kernel) (r rc : ℕ) : Prop :=
  Copied mode kept own own' s s' r rc (paging.top * PAGE_TABLE_ENTRIES ^ 3)

theorem wp_copyPagesToNewArchMemCOW (V : VmInv kept own s) (hr : rootOf s proc = some r)
    (hrc : rootOf s pid = some rc) (hne : r ≠ rc) (hempty : ∀ u, space own s.memory rc u = none)
    {Q : PUnit → Kernel → Prop} (hQ : ∀ own' s', AllCopied .cow kept own own' s s' r rc → Q ⟨⟩ s') :
    wp OutOfMemory (ArchMemory.copyPagesToNewArchMemCOW r rc proc pid) Q s := by
  refine wp_mono (wp_forEachPage (I := fun v s' => ∃ own', Copied .cow kept own own' s s' r rc v)
    V.tables.tree (V.root hr) ?_ ?_ ?_ ⟨own, Copied.start V hempty⟩) fun _ s' ⟨own', C⟩ => hQ own' s' C
  · exact fun v s' ⟨own', C⟩ => C.sameTables
  · exact fun v s' ⟨own', C⟩ hnone => ⟨own', C.unmapped hnone⟩
  · exact fun v s' t ⟨own', C⟩ hv ht hm => wp_sharePage C hv ht hm hr hrc hne

theorem wp_copyPagesToNewArchMem (V : VmInv kept own s) (hr : IsRoot paging own r) (hrc : IsRoot paging own rc)
    (hne : r ≠ rc) (hempty : ∀ u, space own s.memory rc u = none)
    {Q : PUnit → Kernel → Prop} (hQ : ∀ own' s', AllCopied .eager kept own own' s s' r rc → Q ⟨⟩ s') :
    wp OutOfMemory (ArchMemory.copyPagesToNewArchMem r rc) Q s := by
  refine wp_mono (wp_forEachPage (I := fun v s' => ∃ own', Copied .eager kept own own' s s' r rc v)
    V.tables.tree hr ?_ ?_ ?_ ⟨own, Copied.start V hempty⟩) fun _ s' ⟨own', C⟩ => hQ own' s' C
  · exact fun v s' ⟨own', C⟩ => C.sameTables
  · exact fun v s' ⟨own', C⟩ hnone => ⟨own', C.unmapped hnone⟩
  · exact fun v s' t ⟨own', C⟩ hv ht hm => wp_newPage C hv ht hm hr hrc hne

end KPanic
