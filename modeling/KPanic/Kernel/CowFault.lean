import KPanic.Kernel.VmInvariant

/-!
# Write faults on shared pages

`handleLocked` gives the faulting process a writable page with the same contents, and nobody else
notices: the three cases of the source are one operation of `Sharing`, taken once or twice.
-/

namespace KPanic

open BitField (Word)
open Function
open PageTree
open CopyOnWrite
open Wp

variable {kept : ℕ → Prop} {own own' : Own} {s s' : Kernel} {t r ro v p q proc : ℕ} {b b' : Bool}

/-- What the handler leaves, for a fault of `proc`, whose tree is at `r`, on the page `p` at `v`. -/
structure Unshared (own own' : Own) (s s' : Kernel) (proc r v p : ℕ) : Prop where
  roots : ∀ u, IsRoot paging own' u ↔ IsRoot paging own u
  page : ∃ q, space own' s'.memory r v = some (q, true) ∧ ((s.cow_map_ p).length = 1 → q = p)
  others : ∀ r' u, ¬(r' = r ∧ u = v) →
    (space own' s'.memory r' u).map Prod.fst = (space own s.memory r' u).map Prod.fst
  view : pageAt own' s' = pageAt own s
  cow : s'.cow_map_ = update s.cow_map_ p
    (if (s.cow_map_ p).length ≤ 2 then [] else (s.cow_map_ p).erase proc)
  list : s'.process_list_ = s.process_list_
  counter : s'.pid_counter_ = s.pid_counter_
  total : s'.pm.number_of_pages_ = s.pm.number_of_pages_

theorem mapped_number (hr : IsRoot paging own r) (hv : paging.InRange v) {memory : ℕ → Page}
    (hm : space own memory r v = some (p, b)) : (mappingAt memory r v).page_ppn = p := by
  show (walk paging (link memory) r v 4).getD 0 = p
  rw [walk_space hr hv, hm]
  rfl

@[simp] theorem wp_erase {Q : PUnit → Kernel → Prop} :
    wp OutOfMemory (COWManager.erase p proc) Q s ↔
      Q ⟨⟩ { s with cow_map_ := update s.cow_map_ p ((s.cow_map_ p).erase proc) } := by
  rw [COWManager.erase, wp_modify]

theorem wp_setPte {m : ArchMemoryMapping} (h : m.pt_ppn ≠ 0) {f : BitField.Field} {n : ℕ}
    {Q : PUnit → Kernel → Prop}
    (hQ : Q ⟨⟩ (s.setEntry m.pt_ppn m.pti (f.put (s.memory m.pt_ppn m.pti) n))) :
    wp OutOfMemory (COWManager.setPte m f n) Q s := by
  unfold COWManager.setPte
  rw [wp_bind]
  refine wp_assert h ?_
  rw [wp_setField]
  exact hQ

/-- The last sharer keeps its page. -/
theorem wp_lastSharer (V : VmInv kept own s) (hroot : rootOf s proc = some r)
    (hv : paging.InRange v) (hm : space own s.memory r v = some (p, b))
    (hlast : s.cow_map_ p = [proc]) {Q : PUnit → Kernel → Prop}
    (hQ : ∀ s', VmInv kept own s' →
      space own s'.memory = setAt (space own s.memory) r v (some (p, true)) →
      (∀ {r u q b}, space own s.memory r u = some (q, b) → s'.memory q = s.memory q) →
      SameRest { s with cow_map_ := update s.cow_map_ p [] } s' → Q ⟨⟩ s') :
    wp OutOfMemory (do
      COWManager.setPte (mappingAt s.memory r v) writeable 1
      COWManager.erase p proc) Q s := by
  have hr := V.root hroot
  obtain ⟨hown, hleaf⟩ := entry_of_space V.tables hr hv hm
  obtain ⟨T', hc⟩ := flagPage V.tables hown hleaf (n := 1) (by decide)
  rw [wp_bind]
  refine wp_setPte (V.tables.ne_zero hown) ?_
  rw [wp_erase]
  have herase : (s.cow_map_ p).erase proc = [] := by rw [hlast, List.erase_cons_head]
  show Q ⟨⟩ { s.setEntry _ _ _ with cow_map_ := update s.cow_map_ p ((s.cow_map_ p).erase proc) }
  rw [herase]
  refine hQ _ ?_ hc.space (fun hq => hc.pages (V.mapped hq).1 (V.mapped hq).2) ⟨rfl, rfl, rfl, rfl, rfl⟩
  refine ⟨T'.other rfl rfl, ?_, V.root, V.counter⟩
  have hspace : space own (s.setEntry _ _ _).memory =
      setAt (space own s.memory) r v (some (p, true)) := hc.space
  have S := V.sharing.unshare hlast hroot hm
  rw [← hspace] at S
  exact S

/-- The kernel after a fault of `proc` was given the page `q` with the contents of `p`. -/
def Kernel.moved (s : Kernel) (pm : PageManager) (t i p q proc : ℕ) : Kernel :=
  { ((s.alloc q pm).setEntry t i (copyWord ((s.alloc q pm).memory t i) q 1)).setPage q
      ((s.alloc q pm).memory p) with
    cow_map_ := update s.cow_map_ p ((s.cow_map_ p).erase proc) }

structure MovedAway (kept : ℕ → Prop) (own own' : Own) (s s' : Kernel) (proc r v p q : ℕ) :
    Prop where
  inv : VmInv kept own' s'
  roots : ∀ u, IsRoot paging own' u ↔ IsRoot paging own u
  space : space own' s'.memory = setAt (space own s.memory) r v (some (q, true))
  mem : ∀ {r u c b}, KPanic.space own s.memory r u = some (c, b) → s'.memory c = s.memory c
  copy : s'.memory q = s.memory p
  rest : SameRest { s with cow_map_ := update s.cow_map_ p ((s.cow_map_ p).erase proc) } s'

/-- The two writes are to different pages. -/
theorem Kernel.setPage_setEntry {f : Page} {i : ℕ} {w : Word} (h : t ≠ q) :
    (s.setPage q f).setEntry t i w = (s.setEntry t i w).setPage q f := by
  simp only [Kernel.setPage, Kernel.setEntry, update_of_ne h]
  congr 1
  exact update_comm h.symm _ _ _

/-- One of several sharers gets a page of its own. -/
theorem moveAway (V : VmInv kept own s) (hroot : rootOf s proc = some r)
    (hv : paging.InRange v) (hm : space own s.memory r v = some (p, b))
    (hk : proc ∈ s.cow_map_ p) (hlen : 2 ≤ (s.cow_map_ p).length) {pm : PageManager}
    (hq : ¬(own q ≠ none ∨ kept q)) (hn : pm.number_of_pages_ = s.pm.number_of_pages_)
    (T1 : Tables (fun u => kept u ∨ u = q) own (s.alloc q pm)) :
    ∃ own', MovedAway kept own own' s
      (s.moved pm (tableAt s.memory r v 1) (paging.slot v 1) p q proc) proc r v p q := by
  have hr := V.root hroot
  have hnone : own q = none := by_contra fun h => hq (.inl h)
  have hq0 : q ≠ 0 := by
    rintro rfl
    exact hq (.inr V.tables.zero)
  have hne : ∀ {u role}, own u = some role → u ≠ q := by
    rintro u role hu rfl
    rw [hnone] at hu
    cases hu
  obtain ⟨hown, hleaf⟩ := entry_of_space V.tables hr hv hm
  have hsp : space own (s.alloc q pm).memory = space own s.memory :=
    space_congr V.tables.tree T1.tree fun hu => Kernel.alloc_of_ne (hne hu)
  -- another sharer maps the page at the same place
  obtain ⟨k', hk', hkne⟩ : ∃ k' ∈ s.cow_map_ p, k' ≠ proc := by
    by_contra hall
    push Not at hall
    have hperm : s.cow_map_ p = List.replicate (s.cow_map_ p).length proc :=
      List.eq_replicate_iff.mpr ⟨rfl, hall⟩
    have hnd := V.sharing.nodup p
    rw [hperm, List.nodup_replicate] at hnd
    omega
  obtain ⟨ro, vo, bo, hro, hmo⟩ := V.sharing.sharer hk'
  obtain rfl := V.sharing.place hm hmo
  have hrne : ro ≠ r := by
    rintro rfl
    exact hkne (V.sharing.rootInj hro hroot)
  have hword : (s.alloc q pm).memory (tableAt s.memory r vo 1) = s.memory (tableAt s.memory r vo 1) :=
    Kernel.alloc_of_ne (hne hown)
  obtain ⟨T2, hc⟩ := movePage T1 hown (by rw [hword]; exact hleaf) hrne (by rw [hsp]; exact hmo)
    (.inr rfl) hq0
  have T3 := T2.keptCongr (K := kept) fun u =>
    ⟨fun hu => ⟨.inl hu, fun h => hq (.inr (h ▸ hu))⟩, fun ⟨hu, huq⟩ => hu.resolve_right huq⟩
  have hqleaf : update own q (some (Role.leaf vo)) q = some (.leaf vo) := update_self _ _ _
  have hpq : p ≠ q := hne (space_own V.tables.tree hm)
  have hcopy : (s.alloc q pm).memory p = s.memory p := Kernel.alloc_of_ne hpq
  have T4 := T3.setPage (p := q) (f := (s.alloc q pm).memory p)
    (.inl (by rw [hqleaf]; exact Option.some_ne_none _)) (TablesOf.not_table_of_leaf hqleaf)
  have hsp4 := space_congr (m := (s.moved pm (tableAt s.memory r vo 1)
      (paging.slot vo 1) p q proc).memory) T3.tree T4.tree (fun {u r l x} hu => by
    refine update_of_ne ?_ _ _
    rintro rfl
    rw [hqleaf] at hu
    cases hu)
  rw [hc.space, hsp] at hsp4
  refine ⟨update own q (some (.leaf vo)), ?_, fun u => ⟨hc.roots, hc.keep⟩, hsp4, ?_, ?_,
    ⟨rfl, rfl, rfl, rfl, hn⟩⟩
  · refine ⟨T4.other rfl rfl, ?_, fun {pid u} hu => ?_, V.counter⟩
    · have S := V.sharing.moveAway hk hlen hroot hm (V.fresh_of_none hnone)
      rw [← hsp4] at S
      exact S
    · exact hc.keep (V.root hu)
  · intro r' u c b' hcm
    have hcown := space_own V.tables.tree hcm
    have hct : c ≠ tableAt s.memory r vo 1 := by
      rintro rfl
      rw [hcown] at hown
      cases hown
    show update _ q _ c = _
    rw [update_of_ne (hne hcown), Kernel.setEntry_page hct, Kernel.alloc_of_ne (hne hcown)]
  · show update _ q _ q = _
    rw [update_self, hcopy]

/-- Mapping a copy of the page shows nothing new. -/
theorem view_moved (hm : space own s.memory r v = some (p, b))
    (hsp : space own' s'.memory = setAt (space own s.memory) r v (some (q, true)))
    (hmem : ∀ {r u c b}, space own s.memory r u = some (c, b) → s'.memory c = s.memory c)
    (hq : s'.memory q = s.memory p) : pageAt own' s' = pageAt own s := by
  funext r' u
  unfold pageAt
  rw [hsp, view_setAt fun _ _ _ _ h => hmem h]
  split
  · rename_i hit
    rw [hit.1, hit.2, hq, view, hm]
    rfl
  · rfl

theorem fst_setAt {sp : ℕ → ℕ → Option (ℕ × Bool)} {r' u : ℕ} (h : sp r v = some (p, b)) :
    (setAt sp r v (some (p, b')) r' u).map Prod.fst = (sp r' u).map Prod.fst := by
  unfold setAt
  split
  · rename_i hit
    rw [hit.1, hit.2, h]
    rfl
  · rfl

theorem wp_first {k : ℕ} {ks : List ℕ} (h : s.cow_map_ p = k :: ks) {Q : ℕ → Kernel → Prop}
    (hQ : Q k s) : wp OutOfMemory (COWManager.first p) Q s := by
  rw [COWManager.first, wp_bind, wp_get, h]
  exact (wp_pure _).mpr hQ

theorem wp_copyPage {Q : PUnit → Kernel → Prop} (hQ : Q ⟨⟩ (s.setPage q (s.memory p))) :
    wp OutOfMemory (ArchMemory.copyPage q p) Q s := by
  rw [ArchMemory.copyPage, wp_bind, wp_get, wp_setPage]
  exact hQ

/-- The part of the handler under the lock, when the mapping that was looked up still holds. -/
theorem wp_handleLocked (V : VmInv kept own s) (hroot : rootOf s proc = some r) {address : ℕ}
    (hv : paging.InRange (address / PAGE_SIZE))
    (hm : space own s.memory r (address / PAGE_SIZE) = some (p, b)) (hshared : s.cow_map_ p ≠ [])
    {Q : PUnit → Kernel → Prop}
    (hQ : ∀ own' s', VmInv kept own' s' → Unshared own own' s s' proc r (address / PAGE_SIZE) p →
      Q ⟨⟩ s') :
    wp OutOfMemory
      (COWManager.handleLocked proc address (mappingAt s.memory r (address / PAGE_SIZE))) Q s := by
  generalize hva : address / PAGE_SIZE = v at hv hm hQ ⊢
  have hr := V.root hroot
  have hk : proc ∈ s.cow_map_ p := (V.sharing.mem_iff hshared hroot).mpr ⟨v, b, hm⟩
  have hppn := mapped_number hr hv hm
  have hmne : space own s.memory r v ≠ none := by rw [hm]; exact Option.some_ne_none _
  obtain ⟨hown, -⟩ := entry_of_space V.tables hr hv hm
  unfold COWManager.handleLocked
  rw [wp_bind, wp_get, wp_bind, hppn, hva]
  refine wp_assert hk ?_
  have hlen0 : (s.cow_map_ p).length ≠ 0 := fun h => hshared (List.length_eq_zero_iff.mp h)
  rw [if_neg hlen0]
  refine wp_ite (fun hlen => ?_) fun hlen1 => ?_
  · -- case 1: only this process is left
    obtain ⟨k, hks⟩ := List.length_eq_one_iff.mp hlen
    rw [hks, List.mem_singleton] at hk
    subst hk
    refine wp_lastSharer V hroot hv hm hks fun s' V' hsp hmem hrest => hQ own s' V' ?_
    have hother : ∀ r' u, (space own s'.memory r' u).map Prod.fst =
        (space own s.memory r' u).map Prod.fst := by
      intro r' u
      rw [hsp]
      exact fst_setAt hm
    refine ⟨fun _ => Iff.rfl, ⟨p, by rw [hsp, setAt_self], fun _ => rfl⟩, fun r' u _ => hother r' u,
      view_congr hother fun _ _ _ _ h => hmem h, ?_, hrest.list, hrest.counter, hrest.total⟩
    rw [hrest.cow, if_pos (by omega)]
  · have hlen : 2 ≤ (s.cow_map_ p).length := by omega
    have hown' : own (mappingAt s.memory r v).pt_ppn = some (placeOf r 1 v) := hown
    have ht0 := V.tables.ne_zero hown'
    have hpt : p ≠ (mappingAt s.memory r v).pt_ppn := by
      intro h
      have hpown := space_own V.tables.tree hm
      rw [h, hown'] at hpown
      cases hpown
    refine wp_ite (fun hlen2 => ?_) fun hlen2 => ?_
    · -- case 2: the other process keeps the page
      rw [wp_bind]
      refine wp_allocPPN_tables V.tables fun q pm hq hn T1 => ?_
      obtain ⟨own', M⟩ := moveAway V hroot hv hm hk hlen hq hn T1
      rw [wp_bind]
      refine wp_setPte ht0 ?_
      rw [wp_bind]
      refine wp_setPte ht0 ?_
      rw [Kernel.setEntry_self, Kernel.setEntry_setEntry, wp_bind]
      refine wp_copyPage ?_
      rw [Kernel.setEntry_page hpt, wp_bind, wp_erase]
      show wp OutOfMemory _ Q
        (s.moved pm (tableAt s.memory r v 1) (paging.slot v 1) p q proc)
      generalize s.moved pm (tableAt s.memory r v 1) (paging.slot v 1) p q proc = s' at M ⊢
      -- the one that is left
      have hcow' : s'.cow_map_ p = (s.cow_map_ p).erase proc := by
        rw [M.rest.cow]
        exact update_self _ _ _
      obtain ⟨k, hks⟩ : ∃ k, s'.cow_map_ p = [k] := by
        rw [← List.length_eq_one_iff, hcow', List.length_erase_of_mem hk]
        omega
      have hk' : k ≠ proc ∧ k ∈ s.cow_map_ p := by
        rw [← (V.sharing.nodup p).mem_erase_iff, ← hcow', hks]
        exact List.mem_singleton_self k
      obtain ⟨ro, vo, bo, hro, hmo⟩ := V.sharing.sharer hk'.2
      obtain rfl := V.sharing.place hm hmo
      obtain ⟨other, hother, rfl⟩ := Option.map_eq_some_iff.mp hro
      have hother' : s'.process_list_ k = some other := by
        rw [M.rest.list]
        exact hother
      have hrne : other.page_map_level_4_ ≠ r := by
        intro h
        rw [h] at hro
        exact hk'.1 (V.sharing.rootInj hro hroot)
      have hm' : space own' s'.memory other.page_map_level_4_ vo = some (p, bo) := by
        rw [M.space, setAt_of_ne fun h => hrne h.1, hmo]
      rw [wp_bind]
      refine wp_first hks ?_
      rw [wp_bind]
      refine wp_getProcess hother' ?_
      rw [wp_bind]
      refine wp_resolveMapping M.inv.tables (M.inv.root (rootOf_eq hother')) hv ?_
      refine wp_lastSharer M.inv (rootOf_eq hother') hv hm' hks fun s'' V'' hsp hmem hrest => ?_
      have hfst : ∀ r' u, (space own' s''.memory r' u).map Prod.fst =
          (space own' s'.memory r' u).map Prod.fst := by
        intro r' u
        rw [hsp]
        exact fst_setAt hm'
      refine hQ own' s'' V'' ⟨M.roots, ⟨q, ?_, fun h => by omega⟩, ?_, ?_, ?_,
        hrest.list.trans M.rest.list, hrest.counter.trans M.rest.counter,
        hrest.total.trans M.rest.total⟩
      · rw [hsp, setAt_of_ne fun h => hrne h.1.symm, M.space, setAt_self]
      · intro r' u hne
        rw [hfst, M.space, setAt_of_ne hne]
      · have hview : pageAt own' s'' = pageAt own' s' :=
          view_congr hfst fun _ _ _ _ h => hmem h
        rw [hview, view_moved hm M.space M.mem M.copy]
      · rw [hrest.cow, if_pos (by omega)]
        show update s'.cow_map_ p [] = _
        rw [M.rest.cow]
        exact update_idem _ _ _
    · -- case 3: the others go on sharing
      rw [wp_bind]
      refine wp_allocPPN_tables V.tables fun q pm hq hn T1 => ?_
      obtain ⟨own', M⟩ := moveAway V hroot hv hm hk hlen hq hn T1
      have htq : (mappingAt s.memory r v).pt_ppn ≠ q := by
        rintro rfl
        exact hq (.inl fun h => by rw [hown'] at h; cases h)
      rw [wp_bind]
      refine wp_copyPage ?_
      rw [wp_bind]
      refine wp_setPte ht0 ?_
      rw [wp_bind]
      refine wp_setPte ht0 ?_
      rw [Kernel.setEntry_self, Kernel.setEntry_setEntry, Kernel.setPage_setEntry htq, wp_erase]
      have hword : ((s.alloc q pm).setPage q ((s.alloc q pm).memory p)).memory
          (mappingAt s.memory r v).pt_ppn = (s.alloc q pm).memory (mappingAt s.memory r v).pt_ppn :=
        update_of_ne htq _ _
      rw [hword]
      show Q ⟨⟩ (s.moved pm (tableAt s.memory r v 1) (paging.slot v 1) p q proc)
      generalize s.moved pm (tableAt s.memory r v 1) (paging.slot v 1) p q proc = s' at M ⊢
      refine hQ own' s' M.inv ⟨M.roots, ⟨q, by rw [M.space, setAt_self], fun h => by omega⟩, ?_,
        view_moved hm M.space M.mem M.copy, ?_, M.rest.list, M.rest.counter, M.rest.total⟩
      · intro r' u hne
        rw [M.space, setAt_of_ne hne]
      · rw [M.rest.cow, if_neg (by omega)]

end KPanic
