import KPanic.Kernel.VmActs

/-!
# Page faults, against the private memories

What `handlePageFault` does to an address that is not mapped is `Proc.fault`; what it does to a
shared page cannot be seen.
-/

namespace KPanic

open Function
open PageTree
open CopyOnWrite
open Wp

variable {kept : ℕ → Prop} {own own' : Own} {s s' : Kernel} {v p proc address thread : ℕ}
  {pr : UserProcess} {t : UserThread} {content : Content} {D : ℕ → ℕ → Prop}

/-! ### Addresses -/

theorem inRange_of_user (h : address < USER_BREAK) : paging.InRange (address / PAGE_SIZE) := by
  have htop : paging.top = 256 := rfl
  rw [Shape.InRange, htop]
  simp only [paging_B, paging_H, PAGE_TABLE_ENTRIES, PAGE_SIZE, USER_BREAK] at h ⊢
  omega

/-- The page that a stack grows by. -/
def stackVpn (start : StackStart) (pages : ℕ) : ℕ := (start - PAGE_SIZE * pages) / PAGE_SIZE

theorem stackVpn_eq (start : StackStart) (pages : ℕ) :
    stackVpn start pages = start.val / PAGE_SIZE - pages := by
  exact Nat.sub_mul_div _ _ _

theorem stackVpn_pos (start : StackStart) {pages : ℕ} (h : pages ≤ STACK_MAX_PAGES) :
    0 < stackVpn start pages := by
  have hlow : 0x2AAAAAAB4AAA ≤ start.val := start.property.2.1
  rw [stackVpn_eq]
  simp only [STACK_MAX_PAGES, PAGE_SIZE] at h ⊢
  omega

theorem stackVpn_inRange (start : StackStart) (pages : ℕ) :
    paging.InRange (stackVpn start pages) := by
  have hhigh : start.val < 0x00007fffffffdfff := start.property.2.2
  have huser : USER_BREAK = 0x0000800000000000 := rfl
  exact inRange_of_user (by omega)

/-! ### Faults that map a page -/

theorem pageAt_none {r : ℕ} : pageAt own s r v = none ↔ space own s.memory r v = none := by
  rw [pageAt, view, Option.map_eq_none_iff]

/-- The kernel fails to map the page, and the process exits. -/
theorem wp_giveUp (H : Holds kept own s p) (hpr : s.process_list_ proc = some pr)
    {Q : PUnit → Kernel → Prop}
    (hQ : ∀ s', Acts kept own own s s' proc pr (absProc own s pr).exit D → Q ⟨⟩ s') :
    wp OutOfMemory (do
      freePPN p PAGE_SIZE
      exit proc) Q s := by
  rw [wp_bind]
  refine H.wp_free fun s' V hquiet => ?_
  refine wp_exit V (by rw [hquiet.rest.list]; exact hpr) (D := D) fun s'' hacts => ?_
  rw [absProc_congr (congrFun hquiet.page _)] at hacts
  exact hQ s'' (hacts.after_quiet hquiet)

theorem wp_loadPage (V : VmInv kept own s) (hpr : s.process_list_ proc = some pr)
    (hv : paging.InRange (address / PAGE_SIZE))
    (hfree : space own s.memory pr.page_map_level_4_ (address / PAGE_SIZE) = none)
    {Q : PUnit → Kernel → Prop}
    (hQ : ∀ own' s', Acts kept own own' s s' proc pr
      ((absProc own s pr).load (address / PAGE_SIZE) content) D → Q ⟨⟩ s') :
    wp OutOfMemory (loadPage proc address content) Q s := by
  have hr := V.root (rootOf_eq hpr)
  unfold loadPage
  rw [wp_bind]
  refine wp_getProcess hpr ?_
  rw [wp_bind]
  refine V.wp_alloc fun p s₁ H₁ hq₁ _ _ => ?_
  have hpr₁ : s₁.process_list_ proc = some pr := by rw [hq₁.rest.list]; exact hpr
  have hgiveUp : ∀ {Q : PUnit → Kernel → Prop},
      (∀ s', Acts kept own own s s' proc pr (absProc own s pr).exit D → Q ⟨⟩ s') →
      wp OutOfMemory (do
        freePPN p PAGE_SIZE
        exit proc) Q s₁ := by
    intro Q hQ
    refine wp_giveUp H₁ hpr₁ (D := D) fun s' hacts => hQ s' ?_
    rw [absProc_congr (congrFun hq₁.page _)] at hacts
    exact hacts.after_quiet hq₁
  cases content with
  | unreadable => exact hgiveUp fun s' hacts => hQ own s' hacts
  | noSection => exact hgiveUp fun s' hacts => hQ own s' hacts
  | found page =>
    show wp OutOfMemory (Kern.setPage p page >>= _) Q s₁
    rw [wp_bind]
    refine H₁.wp_setPage fun s₂ H₂ hq₂ hpage => ?_
    have hq := hq₁.trans hq₂
    have hfree₂ : space own s₂.memory pr.page_map_level_4_ (address / PAGE_SIZE) = none := by
      rw [hq.space]
      exact hfree
    have hpr₂ : s₂.process_list_ proc = some pr := by rw [hq.rest.list]; exact hpr
    rw [wp_bind]
    refine H₂.wp_mapPage hr hv hfree₂ fun own' s₃ V₃ M => ?_
    rw [if_neg (by decide), wp_pure]
    have hacts := M.acts (D := D) V₃ hpr₂ hfree₂
    rw [hpage, absProc_congr (congrFun hq.page _)] at hacts
    exact hQ own' s₃ (hacts.after_quiet hq)

theorem wp_setStackPages (V : VmInv kept own s) (hpr : s.process_list_ proc = some pr)
    {pages : BitVec 16} {Q : PUnit → Kernel → Prop}
    (hQ : ∀ s', Acts kept own own s s' proc pr { absProc own s pr with
      thread_list_ := pr.thread_list_.modify thread fun t => { t with stack_pages_ := pages } }
      D → Q ⟨⟩ s') :
    wp OutOfMemory (setStackPages proc thread pages) Q s := by
  rw [setStackPages, wp_modify, hpr]
  have h := Acts.setProc (D := D) (P := { absProc own s pr with
    thread_list_ := pr.thread_list_.modify thread fun t => { t with stack_pages_ := pages } })
    V hpr rfl
  exact hQ _ h

theorem wp_increaseUserStackSize (V : VmInv kept own s) (hpr : s.process_list_ proc = some pr)
    (ht : pr.thread_list_[thread]? = some t) {Q : PUnit → Kernel → Prop}
    (hQ : ∀ own' s', Acts kept own own' s s' proc pr ((absProc own s pr).growStack thread) D →
      Q ⟨⟩ s') :
    wp OutOfMemory (increaseUserStackSize proc thread) Q s := by
  have hr := V.root (rootOf_eq hpr)
  have hgrow : (absProc own s pr).growStack thread =
      if (t.stack_pages_ + 1).toNat > STACK_MAX_PAGES ∨
        pageAt own s pr.page_map_level_4_ (stackVpn t.stack_start_addr_ (t.stack_pages_ + 1).toNat) ≠ none
      then (absProc own s pr).exit
      else { (absProc own s pr).map
          (stackVpn t.stack_start_addr_ (t.stack_pages_ + 1).toNat) (fun _ => 0) with
        thread_list_ := pr.thread_list_.modify thread fun u =>
          { u with stack_pages_ := t.stack_pages_ + 1 } } := by
    have ht' : (absProc own s pr).thread_list_[thread]? = some t := ht
    unfold Proc.growStack
    rw [ht']
    rfl
  unfold increaseUserStackSize
  rw [wp_bind]
  refine wp_getProcess hpr ?_
  rw [ht]
  refine wp_ite (fun hmax => ?_) fun hmax => ?_
  · refine wp_exit V hpr (D := D) fun s' hacts => hQ own s' ?_
    rw [hgrow, if_pos (.inl hmax)]
    exact hacts
  · show wp OutOfMemory (allocPPN PAGE_SIZE >>= fun ppn =>
      ArchMemory.mapPage pr.page_map_level_4_
        (stackVpn t.stack_start_addr_ (t.stack_pages_ + 1).toNat) ppn 1 >>= _) Q s
    have hv := stackVpn_inRange t.stack_start_addr_ (t.stack_pages_ + 1).toNat
    generalize stackVpn t.stack_start_addr_ (t.stack_pages_ + 1).toNat = v at hv hgrow ⊢
    rw [wp_bind]
    refine V.wp_alloc fun p s₁ H₁ hq₁ hzero _ => ?_
    have hpr₁ : s₁.process_list_ proc = some pr := by rw [hq₁.rest.list]; exact hpr
    rw [wp_bind]
    cases hspace : space own s.memory pr.page_map_level_4_ v with
    | none =>
      have hfree₁ : space own s₁.memory pr.page_map_level_4_ v = none := by rw [hq₁.space, hspace]
      refine H₁.wp_mapPage hr hv hfree₁ fun own' s₂ V₂ M => ?_
      rw [if_neg (by decide)]
      have hacts := M.acts (D := D) V₂ hpr₁ hfree₁
      rw [hzero, absProc_congr (congrFun hq₁.page _)] at hacts
      refine wp_setStackPages V₂ hacts.self (D := stays) fun s₃ hacts' => hQ own' s₃ ?_
      rw [hacts.absProc] at hacts'
      rw [hgrow, if_neg]
      · exact (hacts.after_quiet hq₁).trans hacts' fun _ _ => id
      · rw [not_or, not_not, pageAt_none]
        exact ⟨hmax, hspace⟩
    | some y =>
      refine wp_mapPage_old H₁.inv.tables hr hv (by rw [hq₁.space, hspace]; exact Option.some_ne_none _) ?_
      rw [if_pos rfl]
      refine wp_giveUp H₁ hpr₁ (D := D) fun s' hacts => hQ own s' ?_
      rw [hgrow, if_pos]
      · rw [absProc_congr (congrFun hq₁.page _)] at hacts
        exact hacts.after_quiet hq₁
      · right
        rw [Ne, pageAt_none, hspace]
        exact Option.some_ne_none _

/-! ### The classification of faults -/

/-- What `addrShared` looks up. -/
theorem wp_addrShared (V : VmInv kept own s) (hpr : s.process_list_ proc = some pr)
    (hv : paging.InRange (address / PAGE_SIZE)) {Q : Bool → Kernel → Prop}
    (hQ : Q (!(s.cow_map_ (mappingAt s.memory pr.page_map_level_4_
      (address / PAGE_SIZE)).page_ppn).isEmpty) s) :
    wp OutOfMemory (COWManager.addrShared proc address) Q s := by
  unfold COWManager.addrShared
  rw [wp_bind]
  refine wp_getProcess hpr ?_
  rw [wp_bind]
  refine wp_resolveMapping V.tables (V.root (rootOf_eq hpr)) hv ?_
  rw [ppnShared, wp_bind, wp_get, wp_pure]
  exact hQ

theorem unmapped_number {r : ℕ} (hr : IsRoot paging own r) (hv : paging.InRange v)
    {memory : ℕ → Page} (hm : space own memory r v = none) : (mappingAt memory r v).page_ppn = 0 := by
  show (walk paging (link memory) r v 4).getD 0 = 0
  rw [walk_space hr hv, hm]
  rfl

/-- Page 0 is never mapped, so nothing shares it. -/
theorem VmInv.zero_not_shared (V : VmInv kept own s) : s.cow_map_ 0 = [] :=
  V.not_shared fun _ hu => V.tables.ne_zero hu rfl

theorem wp_handlePageFault_unmapped (V : VmInv kept own s) (hpr : s.process_list_ proc = some pr)
    (hfree : address < USER_BREAK →
      space own s.memory pr.page_map_level_4_ (address / PAGE_SIZE) = none)
    {Q : PUnit → Kernel → Prop}
    (hQ : ∀ own' s', Acts kept own own' s s' proc pr ((absProc own s pr).fault address content) D →
      Q ⟨⟩ s') :
    wp OutOfMemory (handlePageFault proc address false content) Q s := by
  have hr := V.root (rootOf_eq hpr)
  have hexit : address < null_reference_check_border_ ∨ address ≥ USER_BREAK →
      wp OutOfMemory (exit proc) Q s := by
    intro h
    refine wp_exit V hpr (D := D) fun s' hacts => hQ own s' ?_
    rw [Proc.fault, if_pos h]
    exact hacts
  unfold handlePageFault checkPageFaultIsValid
  rw [wp_bind]
  refine wp_ite (fun hlow => ?_) fun hlow => ?_
  · rw [wp_pure, if_neg (by decide)]
    exact hexit (.inl hlow)
  refine wp_ite (fun hhigh => ?_) fun hhigh => ?_
  · rw [wp_pure, if_neg (by decide)]
    exact hexit (.inr hhigh)
  rw [if_neg (by decide), wp_pure, if_pos rfl]
  have huser : address < USER_BREAK := Nat.not_le.mp hhigh
  have hv := inRange_of_user huser
  have hnone := hfree huser
  unfold handleValid
  rw [wp_bind]
  refine wp_getProcess hpr ?_
  rw [wp_bind]
  refine wp_addrShared V hpr hv ?_
  rw [unmapped_number hr hv hnone, V.zero_not_shared, if_neg (by decide)]
  cases hstack : addrIsWithinAnyUserStack pr.thread_list_ address with
  | none =>
    have hfault : (absProc own s pr).fault address content =
        (absProc own s pr).load (address / PAGE_SIZE) content := by
      have hstack' : addrIsWithinAnyUserStack (absProc own s pr).thread_list_ address = none := hstack
      rw [Proc.fault, if_neg (not_or.mpr ⟨hlow, hhigh⟩), hstack']
    refine wp_loadPage V hpr hv hnone (D := D) fun own' s' hacts => hQ own' s' ?_
    rw [hfault]
    exact hacts
  | some thread =>
    have hfault : (absProc own s pr).fault address content =
        (absProc own s pr).growStack thread := by
      have hstack' : addrIsWithinAnyUserStack (absProc own s pr).thread_list_ address =
        some thread := hstack
      rw [Proc.fault, if_neg (not_or.mpr ⟨hlow, hhigh⟩), hstack']
    have hlt : thread < pr.thread_list_.length := by
      unfold addrIsWithinAnyUserStack at hstack
      split at hstack
      · cases hstack
      · exact (List.findIdx?_eq_some_iff_findIdx_eq.mp hstack).1
    refine wp_increaseUserStackSize V hpr (List.getElem?_eq_getElem hlt) (D := D)
      fun own' s' hacts => hQ own' s' ?_
    rw [hfault]
    exact hacts

/-! ### Write faults -/

/-- Where a page moves: at the page of the fault, if it is shared by two or more. -/
def movedAt (own : Own) (s : Kernel) (r v : ℕ) : ℕ → ℕ → Prop := fun r' u =>
  r' = r ∧ u = v ∧ ∃ p b, space own s.memory r v = some (p, b) ∧ 2 ≤ (s.cow_map_ p).length

theorem Unshared.acts {b : Bool} (U : Unshared own own' s s' proc pr.page_map_level_4_ v p)
    (V : VmInv kept own' s') (hpr : s.process_list_ proc = some pr)
    (hm : space own s.memory pr.page_map_level_4_ v = some (p, b)) (hshared : s.cow_map_ p ≠ []) :
    Acts kept own own' s s' proc pr (absProc own s pr) (movedAt own s pr.page_map_level_4_ v) where
  inv := V
  roots := U.roots
  list := by rw [U.list, as_absProc, ← hpr, update_eq_self]
  page := by
    rw [U.view]
    rfl
  others _ _ := by rw [U.view]
  phys {r' u c b'} hcm hmoved := by
    by_cases hat : r' = pr.page_map_level_4_ ∧ u = v
    · obtain ⟨rfl, rfl⟩ := hat
      rw [hm] at hcm
      cases hcm
      obtain ⟨q, hq, hsame⟩ := U.page
      have hlen : (s.cow_map_ p).length ≠ 0 := fun h => hshared (List.length_eq_zero_iff.mp h)
      have hone : (s.cow_map_ p).length = 1 := by
        by_contra hne
        exact hmoved ⟨rfl, rfl, p, b, hm, by omega⟩
      rw [hsame hone] at hq
      exact ⟨true, hq⟩
    · have h := U.others r' u hat
      rw [hcm, Option.map_some, Option.map_eq_some_iff] at h
      obtain ⟨⟨c', b''⟩, hc', rfl⟩ := h
      exact ⟨b'', hc'⟩
  counter := U.counter
  total := U.total

theorem wp_handlePageFault_shared (V : VmInv kept own s) (hpr : s.process_list_ proc = some pr)
    (hlow : ¬address < null_reference_check_border_) (huser : address < USER_BREAK)
    (hm : space own s.memory pr.page_map_level_4_ (address / PAGE_SIZE) = some (p, false))
    {Q : PUnit → Kernel → Prop}
    (hQ : ∀ own' s', VmInv kept own' s' →
      Unshared own own' s s' proc pr.page_map_level_4_ (address / PAGE_SIZE) p → Q ⟨⟩ s') :
    wp OutOfMemory (handlePageFault proc address true content) Q s := by
  have hr := V.root (rootOf_eq hpr)
  have hv := inRange_of_user huser
  have hshared : s.cow_map_ p ≠ [] := by
    intro h
    have hw := (V.sharing.writes_iff hm).mpr h
    cases hw
  have hnumber := mapped_number hr hv hm
  have hisEmpty : (!(s.cow_map_ p).isEmpty) = true := by
    rw [Bool.not_eq_true', List.isEmpty_eq_false_iff]
    exact hshared
  unfold handlePageFault checkPageFaultIsValid
  rw [wp_bind, if_neg hlow, if_neg (Nat.not_le.mpr huser), if_pos rfl]
  refine wp_addrShared V hpr hv ?_
  rw [hnumber, hisEmpty, if_pos rfl]
  unfold handleValid
  rw [wp_bind]
  refine wp_getProcess hpr ?_
  rw [wp_bind]
  refine wp_addrShared V hpr hv ?_
  rw [hnumber, hisEmpty, if_pos rfl]
  unfold COWManager.handleCOWPageFault
  rw [wp_bind]
  refine wp_getProcess hpr ?_
  rw [wp_bind]
  refine wp_resolveMapping V.tables hr hv ?_
  exact wp_handleLocked V (rootOf_eq hpr) hv hm hshared hQ

end KPanic
