import KPanic.Kernel.VmRuns

/-!
# Pages in use and sharer sets

In every state that a run reaches, the pages in use are those of the kernel and those that the trees of
the processes reach, and `cow_map_` names the processes that map a page. Runs may call `execv`, where the process
that calls it shares no page.
-/

namespace KPanic

open Function
open PageTree
open CopyOnWrite
open Wp

variable {kept : ℕ → Prop} {mode : ForkMode} {own own' : Own} {s s₀ s' : Kernel} {op : Op}
  {pid pid' v v' p : ℕ} {w w' : Bool} {pr : UserProcess}

/-- `restructureProcessForExecv` leaves its process in `cow_map_`, so the process must not be there. -/
def Op.Allowed (s : Kernel) : Op → Prop
  | .execv proc true _ => ∀ p, proc ∉ s.cow_map_ p
  | _ => True

inductive VmReached (mode : ForkMode) (s₀ : Kernel) : Kernel → Prop
  | start : VmReached mode s₀ s₀
  | next {s s' : Kernel} (op : Op) : VmReached mode s₀ s → op.Allowed s → (step mode op).run s = .ok (⟨⟩, s') →
      VmReached mode s₀ s'

/-- `PageManager::getNumFreePages` -/
def PageManager.getNumFreePages (pm : PageManager) : ℕ := pm.page_usage_table_.getNumFreeBits

/-- The hardware finds the user page `p` for `v`, and permits writes if `w`. -/
def Maps (s : Kernel) (pid v p : ℕ) (w : Bool) : Prop :=
  v < USER_PAGES ∧ ∃ pr, s.process_list_ pid = some pr ∧ translate s.memory v 4 pr.page_map_level_4_ = some (p, true, w)

/-! ### Steps -/

theorem wp_step_allowed (L : Live kept own s) (hop : op.Allowed s) :
    wp OutOfMemory (step mode op) (fun _ s' => ∃ own', Live kept own' s' ∧
      s'.pm.number_of_pages_ = s.pm.number_of_pages_) s := by
  by_cases hexec : op.IsExecv
  · cases op with
    | execv proc loads start =>
      refine wp_onProcess (fun _ => ⟨own, L, rfl⟩) fun pr hpr (_ : ∀ f, (abs own s).onProc proc false f = _) => ?_
      refine wp_restructure L hpr (fun hloads => ?_) fun own' s' P h _ => ⟨own', h.live, h.total⟩
      subst hloads
      exact hop
    | createProcess | fork | access | exit | destroy => cases hexec
  · exact wp_mono (wp_step L hexec) fun _ s' ⟨own', h⟩ => ⟨own', h.live, h.total⟩

theorem VmReached.live (hnone : NoProcesses s₀) (h : VmReached mode s₀ s) :
    ∃ own, Live (InUse s₀) own s ∧ s.pm.number_of_pages_ = s₀.pm.number_of_pages_ := by
  induction h with
  | start => exact ⟨_, hnone.live, rfl⟩
  | next op _ hop hstep ih =>
    obtain ⟨own, L, hn⟩ := ih
    obtain ⟨own', L', hn'⟩ := of_wp (wp_step_allowed L hop) hstep
    exact ⟨own', L', hn'.trans hn⟩

/-! ### Pages in use -/

/-- Some process reaches the page from its page map. -/
def ReachedBy (s : Kernel) (pid p : ℕ) : Prop :=
  ∃ pr, s.process_list_ pid = some pr ∧ Reachable paging (link s.memory) pr.page_map_level_4_ p

structure PagesAccounted (mode : ForkMode) (s₀ s : Kernel) : Prop where
  inUse : ∀ p, InUse s p ↔ InUse s₀ p ∨ ∃ pid, ReachedBy s pid p
  kernel : ∀ p, InUse s₀ p → ∀ pid, ¬ReachedBy s pid p
  tables : ∀ pid pid' p, pid ≠ pid' → ReachedBy s pid p → ReachedBy s pid' p → ∃ v w w', Maps s pid v p w ∧ Maps s pid' v p w'
  fails : ∀ op e, op.Allowed s → (step mode op).run s = .error e → e = .outOfMemory
  freed : (∀ pid, s.process_list_ pid = none) → s.pm.getNumFreePages = s₀.pm.getNumFreePages

theorem userPages_eq : USER_PAGES = paging.top * paging.B ^ (paging.H - 1) := by decide

theorem VmInv.maps_iff (V : VmInv kept own s) : Maps s pid v p w ↔
    ∃ pr, s.process_list_ pid = some pr ∧ space own s.memory pr.page_map_level_4_ v = some (p, w) := by
  have htrans : ∀ {pr}, s.process_list_ pid = some pr → v < USER_PAGES → translate s.memory v 4 pr.page_map_level_4_ =
      (space own s.memory pr.page_map_level_4_ v).map fun y => (y.1, true, y.2) := by
    intro pr hpr hv
    have hv' := inRange_of_lt hv
    refine translate_table V.tables hv' (by decide) ?_
    rw [placeOf, ← paging_H, ← paging_B, paging.index_root hv']
    exact V.root (rootOf_eq hpr)
  constructor
  · rintro ⟨hv, pr, hpr, ht⟩
    rw [htrans hpr hv] at ht
    obtain ⟨⟨q, b⟩, hm, heq⟩ := Option.map_eq_some_iff.mp ht
    cases heq
    exact ⟨pr, hpr, hm⟩
  · rintro ⟨pr, hpr, hm⟩
    have hv : v < USER_PAGES := lt_of_space (by rw [hm]; exact Option.some_ne_none _)
    refine ⟨hv, pr, hpr, ?_⟩
    rw [htrans hpr hv, hm]
    rfl

theorem VmInv.maps_of_walk (V : VmInv kept own s) (hpr : s.process_list_ pid = some pr) (hv : paging.InRange v)
    (hw : walk paging (link s.memory) pr.page_map_level_4_ v paging.H = some p) : ∃ w, Maps s pid v p w := by
  obtain ⟨t, ht, hlink⟩ := (V.tables.tree.walk_leaf_iff (V.root (rootOf_eq hpr)) hv).mp hw
  obtain ⟨b, hleaf⟩ := leaf_of_target hlink
  exact ⟨b, V.maps_iff.mpr ⟨pr, hpr, (space_iff V.tables.tree).mpr ⟨t, ht, hleaf⟩⟩⟩

theorem Live.reachedBy (L : Live kept own s) : own p ≠ none ↔ ∃ pid, ReachedBy s pid p := by
  rw [L.inv.tables.tree.own_iff_reachable]
  constructor
  · rintro ⟨r, hr, hp⟩
    obtain ⟨pid, hpid⟩ := L.owned hr
    obtain ⟨pr, hpr, rfl⟩ := Option.map_eq_some_iff.mp hpid
    exact ⟨pid, pr, hpr, hp⟩
  · rintro ⟨pid, pr, hpr, hp⟩
    exact ⟨_, L.inv.root (rootOf_eq hpr), hp⟩

theorem VmInv.tables_apart (V : VmInv kept own s) (hne : pid ≠ pid') (h : ReachedBy s pid p) (h' : ReachedBy s pid' p) :
    ∃ v w w', Maps s pid v p w ∧ Maps s pid' v p w' := by
  obtain ⟨pr, hpr, hp⟩ := h
  obtain ⟨pr', hpr', hp'⟩ := h'
  have hroots : pr.page_map_level_4_ ≠ pr'.page_map_level_4_ := by
    intro heq
    exact hne (V.sharing.rootInj (rootOf_eq hpr) (heq ▸ rootOf_eq hpr'))
  obtain ⟨v, hv, hw, hw'⟩ := V.tables.tree.reachable_both (V.root (rootOf_eq hpr)) (V.root (rootOf_eq hpr')) hroots hp hp'
  obtain ⟨b, hm⟩ := V.maps_of_walk hpr hv hw
  obtain ⟨b', hm'⟩ := V.maps_of_walk hpr' hv hw'
  exact ⟨v, b, b', hm, hm'⟩

theorem Live.freePages (L : Live (InUse s₀) own s) (hnone : NoProcesses s₀)
    (hn : s.pm.number_of_pages_ = s₀.pm.number_of_pages_) (hempty : ∀ pid, s.process_list_ pid = none) :
    s.pm.getNumFreePages = s₀.pm.getNumFreePages := by
  have hown : ∀ q, own q = none := by
    intro q
    by_contra hq
    obtain ⟨pid, pr, hpr, -⟩ := L.reachedBy.mp hq
    rw [hempty] at hpr
    cases hpr
  have hpm := L.inv.tables.pm
  refine Bitmap.numFree_congr hpm.ok hnone.pm.ok ?_ fun i hi => ?_
  · rw [hpm.bits, hnone.pm.bits, hn]
  · rw [hpm.bits] at hi
    refine Bool.eq_iff_iff.mpr ?_
    rw [hpm.used hi, hnone.pm.used (hn ▸ hi), hown]
    exact or_iff_right (by simp)

theorem pages_accounted (hnone : NoProcesses s₀) (h : VmReached mode s₀ s) : PagesAccounted mode s₀ s := by
  obtain ⟨own, L, hn⟩ := h.live hnone
  refine ⟨fun p => ?_, fun p hp pid hreach => ?_, fun _ _ _ => L.inv.tables_apart, fun op e hop he => ?_, L.freePages hnone hn⟩
  · rw [inUse_iff L.inv.tables, L.reachedBy, or_comm]
  · exact L.reachedBy.mpr ⟨pid, hreach⟩ (L.inv.tables.apart hp)
  · exact show OutOfMemory e from error_of_wp (wp_step_allowed L hop) he

theorem pages_accounted_created : ∃ s,
    (step .cow (.createProcess true topStack ⟨0, 0, 0⟩)).run (.ofPages 16) = .ok (⟨⟩, s) ∧
      PagesAccounted .cow (.ofPages 16) s := by
  obtain ⟨s, hstep⟩ := createProcess_ofPages
  exact ⟨s, hstep, pages_accounted (ofPages_noProcesses (by decide) (by decide)) (.next (.createProcess _ _ _) .start trivial hstep)⟩

/-! ### Sharers -/

structure SharersExact (s : Kernel) : Prop where
  nodup : ∀ p, (s.cow_map_ p).Nodup
  mem_iff : ∀ p pid, s.cow_map_ p ≠ [] → (pid ∈ s.cow_map_ p ↔ ∃ v w, Maps s pid v p w)
  writes : ∀ pid v p w, Maps s pid v p w → (w = true ↔ s.cow_map_ p = [])
  shared : ∀ pid v p w pid' v' w', Maps s pid v p w → Maps s pid' v' p w' → pid ≠ pid' → s.cow_map_ p ≠ []
  place : ∀ pid v p w pid' v' w', Maps s pid v p w → Maps s pid' v' p w' → v' = v

theorem VmInv.sharersExact (V : VmInv kept own s) : SharersExact s where
  nodup := V.sharing.nodup
  mem_iff p pid hp := by
    constructor
    · intro hk
      obtain ⟨r, v, b, hr, hm⟩ := V.sharing.sharer hk
      obtain ⟨pr, hpr, rfl⟩ := Option.map_eq_some_iff.mp hr
      exact ⟨v, b, V.maps_iff.mpr ⟨pr, hpr, hm⟩⟩
    · rintro ⟨v, w, hm⟩
      obtain ⟨pr, hpr, hm⟩ := V.maps_iff.mp hm
      exact (V.sharing.mem_iff hp (rootOf_eq hpr)).mpr ⟨v, w, hm⟩
  writes pid v p w hm := by
    obtain ⟨pr, hpr, hm⟩ := V.maps_iff.mp hm
    exact V.sharing.writes_iff hm
  shared pid v p w pid' v' w' hm hm' hne := by
    obtain ⟨pr, hpr, hm⟩ := V.maps_iff.mp hm
    obtain ⟨pr', hpr', hm'⟩ := V.maps_iff.mp hm'
    refine V.sharing.shared_of_two hm hm' fun heq => ?_
    exact hne (V.sharing.rootInj (rootOf_eq hpr) (heq ▸ rootOf_eq hpr'))
  place pid v p w pid' v' w' hm hm' := by
    obtain ⟨pr, hpr, hm⟩ := V.maps_iff.mp hm
    obtain ⟨pr', hpr', hm'⟩ := V.maps_iff.mp hm'
    exact V.sharing.place hm hm'

theorem sharers_exact (hnone : NoProcesses s₀) (h : VmReached mode s₀ s) : SharersExact s := by
  obtain ⟨own, L, -⟩ := h.live hnone
  exact L.inv.sharersExact

theorem sharers_exact_created : ∃ s,
    (step .cow (.createProcess true topStack ⟨0, 0, 0⟩)).run (.ofPages 16) = .ok (⟨⟩, s) ∧ SharersExact s := by
  obtain ⟨s, hstep⟩ := createProcess_ofPages
  exact ⟨s, hstep, sharers_exact (ofPages_noProcesses (by decide) (by decide)) (.next (.createProcess _ _ _) .start trivial hstep)⟩

end KPanic
