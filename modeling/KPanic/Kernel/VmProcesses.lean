import KPanic.Kernel.VmFork

/-!
# Processes come and go

The specifications of process creation, `fork`, `execv` and the removal of a process: what they leave of
the invariant, and what each process has in its memory afterwards.
-/

namespace KPanic

open Function
open PageTree
open CopyOnWrite
open Wp

variable {kept : ℕ → Prop} {own own' own'' : Own} {s s' s'' : Kernel} {r rc p v proc pid : ℕ}
  {pr pr' : UserProcess} {P : Proc} {D : ℕ → ℕ → Prop}

/-! ### The list of processes -/

theorem rootOf_setProc (pr : UserProcess) :
    rootOf (s.setProc pid (some pr)) = update (rootOf s) pid (some pr.page_map_level_4_) := by
  funext k
  by_cases hk : k = pid
  · subst hk
    rw [update_self]
    show (update s.process_list_ k (some pr) k).map _ = _
    rw [update_self]
    rfl
  · rw [update_of_ne hk]
    show (update s.process_list_ pid (some pr) k).map _ = _
    rw [update_of_ne hk]
    rfl

theorem rootOf_remove : rootOf (s.setProc pid none) = update (rootOf s) pid none := by
  funext k
  by_cases hk : k = pid
  · subst hk
    rw [update_self]
    show (update s.process_list_ k none k).map _ = _
    rw [update_self]
    rfl
  · rw [update_of_ne hk]
    show (update s.process_list_ pid none k).map _ = _
    rw [update_of_ne hk]
    rfl

theorem pageAt_setProc (o : Option UserProcess) : pageAt own (s.setProc pid o) = pageAt own s := rfl

/-- A process that shares nothing gets a tree that no process has. -/
theorem VmInv.setTree (V : VmInv kept own s) (hshare : ∀ p, pid ∉ s.cow_map_ p) (hpid : pid < s.pid_counter_)
    (hr : IsRoot paging own pr.page_map_level_4_) (hunowned : ∀ k, rootOf s k ≠ some pr.page_map_level_4_) :
    VmInv kept own (s.setProc pid (some pr)) := by
  refine ⟨V.tables.other rfl rfl, ?_, fun {k u} hu => ?_, fun {k} hk => ?_⟩
  · rw [rootOf_setProc]
    exact V.sharing.setRoot hshare hunowned
  · rw [rootOf_setProc] at hu
    by_cases hk : k = pid
    · rw [hk, update_self] at hu
      cases hu
      exact hr
    · rw [update_of_ne hk] at hu
      exact V.root hu
  · show k < s.pid_counter_
    by_cases hkp : k = pid
    · rw [hkp]
      exact hpid
    · have h : update s.process_list_ pid (some pr) k ≠ none := hk
      rw [update_of_ne hkp] at h
      exact V.counter h

/-- A process that is not listed shares nothing. -/
theorem VmInv.not_sharing (V : VmInv kept own s) (h : s.process_list_ pid = none) (p : ℕ) : pid ∉ s.cow_map_ p := by
  intro hmem
  obtain ⟨r, v, b, hr, -⟩ := V.sharing.sharer hmem
  rw [rootOf, h] at hr
  cases hr

theorem VmInv.unlisted (V : VmInv kept own s) : s.process_list_ s.pid_counter_ = none := by
  by_contra h
  exact Nat.lt_irrefl _ (V.counter h)

/-- What all processes see, when one of them is new, changed or gone. -/
theorem abs_update {o : Option UserProcess} (hlist : s'.process_list_ = update s.process_list_ pid o)
    (hview : ∀ k pr, k ≠ pid → s.process_list_ k = some pr →
      pageAt own' s' pr.page_map_level_4_ = pageAt own s pr.page_map_level_4_) :
    (abs own' s').proc = update (abs own s).proc pid (o.map (absProc own' s')) := by
  funext k
  show (s'.process_list_ k).map (absProc own' s') = _
  rw [hlist]
  by_cases hk : k = pid
  · rw [hk, update_self, update_self]
  · rw [update_of_ne hk, update_of_ne hk]
    show _ = (s.process_list_ k).map (absProc own s)
    cases hs : s.process_list_ k with
    | none => rfl
    | some pr => rw [Option.map_some, Option.map_some, absProc_congr (hview k pr hk hs)]

/-! ### The trees of the processes -/

/-- The invariant between two operations: each tree belongs to a process, and no process has anything mapped
where null pointers point to. -/
structure Live (kept : ℕ → Prop) (own : Own) (s : Kernel) : Prop where
  inv : VmInv kept own s
  owned : ∀ {u}, IsRoot paging own u → ∃ pid, rootOf s pid = some u
  nullFree : ∀ {pid pr}, s.process_list_ pid = some pr → (absProc own s pr).NullFree

/-- After the destructor, with the list of processes that is left. -/
theorem vmInv_deleted (h : Deleted kept own own' s s' r) (l : ℕ → Option UserProcess)
    (S : Sharing (drop (space own s.memory) r) s.cow_map_ (rootOf { s' with process_list_ := l }))
    (hroots : ∀ {k u}, rootOf { s' with process_list_ := l } k = some u → u ≠ r ∧ IsRoot paging own u)
    (hlisted : ∀ {k}, l k ≠ none → k < s.pid_counter_) : VmInv kept own' { s' with process_list_ := l } := by
  refine ⟨h.tables.other rfl rfl, ?_, fun hu => (h.roots _).mpr (hroots hu), fun hk => ?_⟩
  · show Sharing (space own' s'.memory) s'.cow_map_ _
    rw [h.rest.cow, h.space]
    exact S
  · show _ < s'.pid_counter_
    rw [h.rest.counter]
    exact hlisted hk

theorem pageAt_deleted (h : Deleted kept own own' s s' r) {r' : ℕ} (hr : r' ≠ r) :
    pageAt own' s' r' = pageAt own s r' := by
  funext u
  unfold pageAt
  rw [h.space]
  exact view_drop (fun _ _ _ _ => h.mem) hr

/-! ### A new page -/

/-- A page of zeros that has been mapped. -/
structure NewPage (own own' : Own) (s s' : Kernel) (r v p : ℕ) : Prop where
  roots : ∀ u, IsRoot paging own' u ↔ IsRoot paging own u
  space : space own' s'.memory = setAt (space own s.memory) r v (some (p, true))
  mem : ∀ {r u c b}, KPanic.space own s.memory r u = some (c, b) → s'.memory c = s.memory c
  page : s'.memory p = fun _ => 0
  rest : SameRest s s'

theorem NewPage.pageAt (N : NewPage own own' s s' r v p) (r' u : ℕ) :
    pageAt own' s' r' u = if r' = r ∧ u = v then some (fun _ => 0) else pageAt own s r' u := by
  unfold KPanic.pageAt
  rw [N.space, view_setAt fun _ _ _ _ h => N.mem h, N.page]

/-- `allocPPN`, `mapPage` and the assertion that it has mapped the page. -/
theorem VmInv.wp_newPage (V : VmInv kept own s) (hr : IsRoot paging own r) (hv : paging.InRange v)
    (hfree : space own s.memory r v = none) {α : Type} {k : ℕ → Kern α} {Q : α → Kernel → Prop}
    (hQ : ∀ p own' s', VmInv kept own' s' → NewPage own own' s s' r v p → wp OutOfMemory (k p) Q s') :
    wp OutOfMemory (do
      let ppn ← allocPPN PAGE_SIZE
      let mapped ← ArchMemory.mapPage r v ppn 1
      Kern.assert (mapped = true) .alreadyMapped
      k ppn) Q s := by
  rw [wp_bind]
  refine V.wp_alloc fun p s₁ H₁ hq₁ hzero _ => ?_
  rw [wp_bind]
  refine H₁.wp_mapPage hr hv (by rw [hq₁.space, hfree]) fun own' s₂ V₂ M => ?_
  rw [wp_bind]
  refine wp_assert rfl (hQ p own' s₂ V₂ ⟨M.roots, ?_, fun hm => ?_, ?_, hq₁.rest.trans M.rest⟩)
  · rw [M.space, hq₁.space]
  · rw [M.mem (by rw [hq₁.space]; exact hm), hq₁.mem hm]
  · rw [M.page, hzero]


theorem argsVpn_inRange : paging.InRange argsVpn := by
  have h : argsVpn * PAGE_SIZE / PAGE_SIZE = argsVpn := Nat.mul_div_cancel _ (by decide)
  rw [← h]
  exact inRange_of_user (by decide)

/-- The first page of a stack lies below the arguments. -/
theorem stack_ne_args (start : StackStart) : stackVpn start 1 ≠ argsVpn := by
  have hhigh : start.val < 0x00007fffffffdfff := start.property.2.2
  have hargs : argsVpn = 0x7fffffffe := by decide
  rw [stackVpn_eq, hargs]
  simp only [PAGE_SIZE]
  omega

theorem wp_newStack (V : VmInv kept own s) (hr : IsRoot paging own r) (start : StackStart)
    (hfree : space own s.memory r (stackVpn start 1) = none) {Q : UserThread → Kernel → Prop}
    (hQ : ∀ p own' s', VmInv kept own' s' → NewPage own own' s s' r (stackVpn start 1) p → Q ⟨start, 1⟩ s') :
    wp OutOfMemory (newStack r start) Q s := by
  have hvpn : start.val / PAGE_SIZE - 1 = stackVpn start 1 := (stackVpn_eq start 1).symm
  unfold newStack
  dsimp only
  rw [hvpn]
  refine V.wp_newPage hr (stackVpn_inRange start 1) hfree fun p own' s' V' N => ?_
  rw [wp_pure]
  exact hQ p own' s' V' N

/-! ### Process creation -/

theorem VmInv.nextPID (V : VmInv kept own s) : VmInv kept own { s with pid_counter_ := s.pid_counter_ + 1 } :=
  ⟨V.tables.other rfl rfl, V.sharing, V.root, fun h => Nat.lt_succ_of_lt (V.counter h)⟩

theorem wp_getNewPID {Q : ℕ → Kernel → Prop} (hQ : Q s.pid_counter_ { s with pid_counter_ := s.pid_counter_ + 1 }) :
    wp OutOfMemory getNewPID Q s := by
  rw [getNewPID, wp_bind, wp_get, wp_bind, wp_set, wp_pure]
  exact hQ

/-- A process that the list has got, with an empty tree. -/
structure Listed (kept : ℕ → Prop) (own : Own) (s s' : Kernel) (r : ℕ) (p : UserProcess) : Prop where
  inv : VmInv kept (withRoot own r) s'
  new : own r = none
  tree : p.page_map_level_4_ = r
  space : space (withRoot own r) s'.memory = space own s.memory
  mem : ∀ {r u c b}, KPanic.space own s.memory r u = some (c, b) → s'.memory c = s.memory c
  cow : s'.cow_map_ = s.cow_map_
  list : s'.process_list_ = update s.process_list_ s.pid_counter_ (some p)
  counter : s'.pid_counter_ = s.pid_counter_ + 1
  total : s'.pm.number_of_pages_ = s.pm.number_of_pages_

/-- What both constructors of `UserProcess` begin with. -/
theorem wp_listed (V : VmInv kept own s) {α : Type} {p : ℕ → UserProcess} (hp : ∀ r, (p r).page_map_level_4_ = r)
    {k : ℕ → ℕ → Kern α} {Q : α → Kernel → Prop}
    (hQ : ∀ r s', Listed kept own s s' r (p r) → wp OutOfMemory (k s.pid_counter_ r) Q s') :
    wp OutOfMemory (do
      let pid ← getNewPID
      let page_map_level_4_ ← ArchMemory.new
      setProcess pid (some (p page_map_level_4_))
      k pid page_map_level_4_) Q s := by
  rw [wp_bind]
  refine wp_getNewPID ?_
  rw [wp_bind]
  refine V.nextPID.wp_new fun r s₁ V₁ hnew hq => ?_
  rw [wp_bind, wp_setProcess]
  have hnone : s₁.process_list_ s.pid_counter_ = none := by
    rw [hq.rest.list]
    exact V.unlisted
  have hroots : ∀ j, rootOf s₁ j ≠ some (p r).page_map_level_4_ := by
    intro j hj
    rw [hp, rootOf_congr (s := s) hq.rest.list] at hj
    have hroot := V.root hj
    rw [IsRoot, hnew] at hroot
    cases hroot
  refine hQ r _ ⟨V₁.setTree (V₁.not_sharing hnone) ?_ ?_ hroots, hnew, hp r, hq.space, hq.mem, hq.rest.cow, ?_,
    hq.rest.counter, hq.rest.total⟩
  · rw [hq.rest.counter]
    exact Nat.lt_succ_self _
  · rw [hp]
    exact update_self _ _ _
  · show update s₁.process_list_ _ _ = _
    rw [hq.rest.list]


/-! ### Removal -/

/-- What is left without the process `pid`, whose tree was at `r`. -/
structure Removed (kept : ℕ → Prop) (own own' : Own) (s s' : Kernel) (pid r : ℕ) : Prop where
  inv : VmInv kept own' s'
  roots : ∀ u, IsRoot paging own' u ↔ u ≠ r ∧ IsRoot paging own u
  space : space own' s'.memory = drop (space own s.memory) r
  others : ∀ r', r' ≠ r → pageAt own' s' r' = pageAt own s r'
  list : s'.process_list_ = update s.process_list_ pid none
  counter : s'.pid_counter_ = s.pid_counter_
  total : s'.pm.number_of_pages_ = s.pm.number_of_pages_

/-- The kernel after `eraseProcessFromCOWMap`. -/
def Kernel.eraseSharer (s : Kernel) (pid : ℕ) : Kernel := { s with cow_map_ := fun p => (s.cow_map_ p).erase pid }

theorem Kernel.eraseSharer_eq (h : ∀ p, pid ∉ s.cow_map_ p) : s.eraseSharer pid = s := by
  have hcow : (fun p => (s.cow_map_ p).erase pid) = s.cow_map_ := funext fun p => List.erase_of_not_mem (h p)
  unfold Kernel.eraseSharer
  rw [hcow]

theorem VmInv.wp_remove (V : VmInv kept own s) (hpr : s.process_list_ pid = some pr) {Q : PUnit → Kernel → Prop}
    (hQ : ∀ own' s', Removed kept own own' s s' pid pr.page_map_level_4_ → Q ⟨⟩ s') :
    wp OutOfMemory (do
      ArchMemory.delete pr.page_map_level_4_
      setProcess pid none) Q (s.eraseSharer pid) := by
  have hroot := rootOf_eq hpr
  have T : Tables kept own (s.eraseSharer pid) := V.tables.other rfl rfl
  have S : Sharing (space own (s.eraseSharer pid).memory) s.cow_map_ (rootOf s) := V.sharing
  have S' : Sharing (drop (space own (s.eraseSharer pid).memory) pr.page_map_level_4_) (s.eraseSharer pid).cow_map_
      (update (rootOf s) pid none) := V.sharing.remove hroot
  rw [wp_bind]
  refine wp_deleteTree T (V.root hroot) S S' fun own' s' hd => ?_
  rw [wp_setProcess]
  have hlist : s'.process_list_ = s.process_list_ := hd.rest.list
  have hroots : rootOf (s'.setProc pid none) = update (rootOf s) pid none := by
    rw [rootOf_remove, rootOf_congr hlist]
  refine hQ own' _ ⟨vmInv_deleted hd _ ?_ (fun {k u} hu => ?_) (fun {k} hk => ?_), hd.roots, hd.space,
    fun r' hr' => pageAt_deleted hd hr', ?_, hd.rest.counter, hd.rest.total⟩
  · show Sharing _ _ (rootOf (s'.setProc pid none))
    rw [hroots]
    exact S'
  · have hu' : rootOf (s'.setProc pid none) k = some u := hu
    rw [hroots] at hu'
    obtain ⟨hk, hu'⟩ := PartialMap.update_none_eq_some.mp hu'
    refine ⟨?_, V.root hu'⟩
    rintro rfl
    exact hk (V.sharing.rootInj hu' hroot)
  · have hne : k ≠ pid := by
      rintro rfl
      exact hk (update_self _ _ _)
    rw [update_of_ne hne, hlist] at hk
    exact V.counter hk
  · show update s'.process_list_ pid none = _
    rw [hlist]

/-- The frame of an operation that makes, changes or removes the process `pid` only: the others keep their memory, and
their pages stay where they are. -/
structure OthersKeep (own own' : Own) (s s' : Kernel) (pid : ℕ) : Prop where
  list : ∀ k, k ≠ pid → s'.process_list_ k = s.process_list_ k
  view : ∀ k pr, k ≠ pid → s.process_list_ k = some pr →
    pageAt own' s' pr.page_map_level_4_ = pageAt own s pr.page_map_level_4_
  phys : ∀ k pr u, k ≠ pid → s.process_list_ k = some pr →
    (space own' s'.memory pr.page_map_level_4_ u).map Prod.fst = (space own s.memory pr.page_map_level_4_ u).map Prod.fst

theorem Removed.othersKeep (h : Removed kept own own' s s' pid pr.page_map_level_4_) (V : VmInv kept own s)
    (hpr : s.process_list_ pid = some pr) : OthersKeep own own' s s' pid := by
  have hne : ∀ {k pr'}, k ≠ pid → s.process_list_ k = some pr' → pr'.page_map_level_4_ ≠ pr.page_map_level_4_ := by
    intro k pr' hk hpr' heq
    exact hk (V.sharing.rootInj (rootOf_eq hpr') (heq ▸ rootOf_eq hpr))
  refine ⟨fun k hk => ?_, fun k pr' hk hpr' => h.others _ (hne hk hpr'), fun k pr' u hk hpr' => ?_⟩
  · rw [h.list, update_of_ne hk]
  · rw [h.space, drop_of_ne (hne hk hpr')]


/-! ### Steps -/

/-- A step after which the process `pid` is `o`, and the others are as before. -/
structure Steps (kept : ℕ → Prop) (own own' : Own) (s s' : Kernel) (pid counter : ℕ) (o : Option Proc) : Prop where
  live : Live kept own' s'
  others : OthersKeep own own' s s' pid
  self : (s'.process_list_ pid).map (absProc own' s') = o
  counter : s'.pid_counter_ = counter
  total : s'.pm.number_of_pages_ = s.pm.number_of_pages_

theorem Steps.abs {o : Option Proc} {n : ℕ} (h : Steps kept own own' s s' pid n o) :
    abs own' s' = { proc := update (KPanic.abs own s).proc pid o, pid_counter_ := n } := by
  have hproc : (KPanic.abs own' s').proc = update (KPanic.abs own s).proc pid o := by
    rw [abs_update (o := s'.process_list_ pid) ?_ h.others.view, h.self]
    funext k
    by_cases hk : k = pid
    · rw [hk, update_self]
    · rw [update_of_ne hk, h.others.list k hk]
  show Private.mk (KPanic.abs own' s').proc s'.pid_counter_ = _
  rw [hproc, h.counter]

/-- The processes beside `pid` have kept what `Live` says of them. -/
theorem Live.steps (L : Live kept own s) {o : Option Proc} {n : ℕ} (V : VmInv kept own' s')
    (h : OthersKeep own own' s s' pid) (hself : (s'.process_list_ pid).map (absProc own' s') = o)
    (hroots : ∀ u, IsRoot paging own' u → rootOf s' pid = some u ∨ IsRoot paging own u ∧ rootOf s pid ≠ some u)
    (hnull : ∀ P, o = some P → P.NullFree) (hcounter : s'.pid_counter_ = n)
    (htotal : s'.pm.number_of_pages_ = s.pm.number_of_pages_) : Steps kept own own' s s' pid n o := by
  refine ⟨⟨V, fun {u} hu => ?_, fun {k pr} hk => ?_⟩, h, hself, hcounter, htotal⟩
  · obtain hu | ⟨hu, hne⟩ := hroots u hu
    · exact ⟨pid, hu⟩
    · obtain ⟨k, hk⟩ := L.owned hu
      have hkp : k ≠ pid := by
        rintro rfl
        exact hne hk
      refine ⟨k, ?_⟩
      rw [rootOf, h.list k hkp]
      exact hk
  · by_cases hkp : k = pid
    · rw [hkp] at hk
      rw [hk] at hself
      exact hnull _ hself.symm
    · rw [h.list k hkp] at hk
      have hnf := L.nullFree hk
      unfold Proc.NullFree at hnf ⊢
      show pageAt own' s' pr.page_map_level_4_ 0 = none
      rw [h.view k pr hkp hk]
      exact hnf

/-- An operation of one process on itself. -/
theorem Acts.steps (h : Acts kept own own' s s' proc pr P D) (L : Live kept own s)
    (hpr : s.process_list_ proc = some pr) (hD : ∀ r u, r ≠ pr.page_map_level_4_ → ¬D r u) (hnull : P.NullFree) :
    Steps kept own own' s s' proc s.pid_counter_ (some P) := by
  have hne : ∀ {k pr'}, k ≠ proc → s.process_list_ k = some pr' → pr'.page_map_level_4_ ≠ pr.page_map_level_4_ := by
    intro k pr' hk hpr' heq
    exact hk (L.inv.sharing.rootInj (rootOf_eq hpr') (heq ▸ rootOf_eq hpr))
  have hself : s'.process_list_ proc = some (pr.as P) := h.self
  refine L.steps h.inv ⟨fun k hk => ?_, fun k pr' hk hpr' => h.others _ (hne hk hpr'), fun k pr' u hk hpr' => ?_⟩
    ?_ (fun u hu => ?_) (fun P' hP => by cases hP; exact hnull) h.counter h.total
  · rw [h.list, update_of_ne hk]
  · have hroot := hne hk hpr'
    cases hm : space own s.memory pr'.page_map_level_4_ u with
    | none =>
      have hview := congrFun (h.others _ hroot) u
      rw [pageAt_none.mpr hm, pageAt_none] at hview
      rw [hview]
    | some y =>
      obtain ⟨b', hb'⟩ := h.phys (c := y.1) (b := y.2) hm (hD _ u hroot)
      rw [hb']
      rfl
  · rw [hself, Option.map_some, h.absProc]
  · have hu' := (h.roots u).mp hu
    by_cases hup : rootOf s proc = some u
    · left
      rw [rootOf_eq hpr] at hup
      rw [rootOf_eq hself]
      exact hup
    · exact .inr ⟨hu', hup⟩

theorem Removed.steps (h : Removed kept own own' s s' pid pr.page_map_level_4_) (L : Live kept own s)
    (hpr : s.process_list_ pid = some pr) : Steps kept own own' s s' pid s.pid_counter_ none := by
  refine L.steps h.inv (h.othersKeep L.inv hpr) ?_ (fun u hu => .inr ⟨((h.roots u).mp hu).2, fun hr => ?_⟩) nofun
    h.counter h.total
  · rw [h.list, update_self]
    rfl
  · rw [rootOf_eq hpr] at hr
    exact ((h.roots u).mp hu).1 (Option.some.inj hr).symm


namespace Listed

variable {p : UserProcess}

theorem view (L : Listed kept own s s' r p) : pageAt (withRoot own r) s' = pageAt own s :=
  view_congr (fun _ _ => by rw [L.space]) fun _ _ _ _ hm => L.mem hm

theorem empty (L : Listed kept own s s' r p) (u : ℕ) : KPanic.space (withRoot own r) s'.memory r u = none := by
  rw [L.space, space_of_new L.new]

theorem self (L : Listed kept own s s' r p) : s'.process_list_ s.pid_counter_ = some p := by
  rw [L.list, update_self]

/-- The processes that there were are other ones, with other trees. -/
theorem ne (L : Listed kept own s s' r p) (V : VmInv kept own s) {k : ℕ} {pr : UserProcess}
    (hk : s.process_list_ k = some pr) : k ≠ s.pid_counter_ ∧ pr.page_map_level_4_ ≠ r := by
  constructor
  · rintro rfl
    rw [V.unlisted] at hk
    cases hk
  · intro hr
    have hroot := V.root (rootOf_eq hk)
    rw [hr] at hroot
    exact not_isRoot L.new hroot

theorem othersKeep (L : Listed kept own s s' r p) :
    OthersKeep own (withRoot own r) s s' s.pid_counter_ := by
  refine ⟨fun k hk => ?_, fun k pr _ hpr => by rw [L.view], fun k pr u _ hpr => by rw [L.space]⟩
  rw [L.list, update_of_ne hk]

end Listed

theorem OthersKeep.trans (h : OthersKeep own own' s s' pid) (h' : OthersKeep own' own'' s' s'' pid) :
    OthersKeep own own'' s s'' pid where
  list k hk := (h'.list k hk).trans (h.list k hk)
  view k pr hk hpr := (h'.view k pr hk (by rw [h.list k hk]; exact hpr)).trans (h.view k pr hk hpr)
  phys k pr u hk hpr := (h'.phys k pr u hk (by rw [h.list k hk]; exact hpr)).trans (h.phys k pr u hk hpr)

/-- Only the tree of `pid` changes. -/
theorem OthersKeep.of_tree (V : VmInv kept own s) (hpr : s.process_list_ pid = some pr)
    (hlist : ∀ k, k ≠ pid → s'.process_list_ k = s.process_list_ k)
    (hview : ∀ r', r' ≠ pr.page_map_level_4_ → pageAt own' s' r' = pageAt own s r')
    (hphys : ∀ r' u, r' ≠ pr.page_map_level_4_ →
      (space own' s'.memory r' u).map Prod.fst = (space own s.memory r' u).map Prod.fst) :
    OthersKeep own own' s s' pid := by
  have hne : ∀ {k pr'}, k ≠ pid → s.process_list_ k = some pr' → pr'.page_map_level_4_ ≠ pr.page_map_level_4_ := by
    intro k pr' hk hpr' heq
    exact hk (V.sharing.rootInj (rootOf_eq hpr') (heq ▸ rootOf_eq hpr))
  exact ⟨hlist, fun k pr' hk hpr' => hview _ (hne hk hpr'), fun k pr' u hk hpr' => hphys _ u (hne hk hpr')⟩

theorem NewPage.othersKeep (N : NewPage own own' s s' pr.page_map_level_4_ v p) (V : VmInv kept own s)
    (hpr : s.process_list_ pid = some pr) : OthersKeep own own' s s' pid := by
  refine .of_tree V hpr (fun k _ => by rw [N.rest.list]) (fun r' hr' => ?_) fun r' u hr' => ?_
  · funext u
    rw [N.pageAt, if_neg fun h => hr' h.1]
  · rw [N.space, setAt_of_ne fun h => hr' h.1]

theorem Quiet.othersKeep (h : Quiet own own' s s') (pid : ℕ) : OthersKeep own own' s s' pid :=
  ⟨fun k _ => by rw [h.rest.list], fun k pr _ _ => by rw [h.page], fun k pr u _ _ => by rw [Quiet.space h]⟩

theorem setProc_othersKeep (pr : UserProcess) : OthersKeep own own s (s.setProc pid (some pr)) pid :=
  ⟨fun _ hk => update_of_ne hk _ _, fun _ _ _ _ => rfl, fun _ _ _ _ _ => rfl⟩

/-- The constructor fails to load the program. -/
theorem Listed.wp_unlist {p : UserProcess} (L : Listed kept own s s' r p) (V : Live kept own s)
    {Q : PUnit → Kernel → Prop}
    (hQ : ∀ own' s'', Steps kept own own' s s'' s.pid_counter_ (s.pid_counter_ + 1) none → Q ⟨⟩ s'') :
    wp OutOfMemory (do
      ArchMemory.delete r
      setProcess s.pid_counter_ none) Q s' := by
  have herase : s'.eraseSharer s.pid_counter_ = s' := by
    refine Kernel.eraseSharer_eq fun q => ?_
    rw [L.cow]
    exact V.inv.not_sharing V.inv.unlisted q
  have h := L.inv.wp_remove L.self (Q := Q) fun own' s'' hrem => ?_
  · rw [herase, L.tree] at h
    exact h
  · refine hQ own' s'' (V.steps hrem.inv (L.othersKeep.trans (hrem.othersKeep L.inv L.self)) ?_ (fun u hu => ?_)
      nofun (hrem.counter.trans L.counter) (hrem.total.trans L.total))
    · rw [hrem.list, update_self]
      rfl
    · obtain ⟨hne, hu⟩ := (hrem.roots u).mp hu
      have hu' := (withRoot_isRoot.mp hu).resolve_left (by rwa [L.tree] at hne)
      refine .inr ⟨hu', fun hroot => ?_⟩
      rw [rootOf, V.inv.unlisted] at hroot
      cases hroot


theorem NewPage.map (N : NewPage own own' s s' pr.page_map_level_4_ v p) :
    absProc own' s' pr = (absProc own s pr).map v fun _ => 0 := by
  unfold absProc Proc.map
  congr 1
  funext u
  rw [N.pageAt]
  by_cases hu : u = v
  · rw [if_pos ⟨rfl, hu⟩, hu, update_self]
  · rw [if_neg fun h => hu h.2, update_of_ne hu]

/-- The pages of a new process. -/
theorem fresh_eq (start : StackStart) :
    (⟨[⟨start, 1⟩], false, update (update (fun _ => none) argsVpn (some fun _ => 0))
      (stackVpn start 1) (some fun _ => 0)⟩ : Proc) = Proc.fresh start := by
  have hvpn : start.val / PAGE_SIZE - 1 = stackVpn start 1 := (stackVpn_eq start 1).symm
  unfold Proc.fresh
  congr 1
  funext u
  rw [hvpn]
  by_cases hu : u = stackVpn start 1
  · rw [hu, update_self, if_pos (.inr rfl)]
  · rw [update_of_ne hu]
    by_cases hargs : u = argsVpn
    · rw [hargs, update_self, if_pos (.inl rfl)]
    · rw [update_of_ne hargs, if_neg fun h => h.elim hargs hu]

theorem Proc.fresh_nullFree (start : StackStart) : (Proc.fresh start).NullFree := by
  rw [← fresh_eq]
  show (update _ (stackVpn start 1) _ : ℕ → Option Page) 0 = none
  rw [update_of_ne (stackVpn_pos start (by decide)).ne, update_of_ne (by decide)]

/-- `args_seg_addr_` and `args_ppn_` say where the arguments page is. -/
def ArgsRight (own : Own) (s : Kernel) (pr : UserProcess) : Prop :=
  pr.args_seg_addr_ = ARGS_SEGMENT_START ∧
    (space own s.memory pr.page_map_level_4_ argsVpn).map Prod.fst = some pr.args_ppn_

theorem wp_createProcess (L : Live kept own s) {loads : Bool} {start : StackStart} {garbage : Garbage}
    {Q : PUnit → Kernel → Prop}
    (hQ : ∀ own' s', Steps kept own own' s s' s.pid_counter_ (s.pid_counter_ + 1)
        (if loads then some (Proc.fresh start) else none) →
      (∀ pr, s'.process_list_ s.pid_counter_ = some pr → ArgsRight own' s' pr) → Q ⟨⟩ s') :
    wp OutOfMemory (createProcess loads start garbage) Q s := by
  unfold createProcess
  refine wp_listed L.inv (p := fun r => ⟨r, garbage.args_seg_addr_, garbage.args_ppn_, [], false⟩) (fun _ => rfl)
    fun r s₁ h₁ => ?_
  cases loads with
  | false =>
    rw [if_pos rfl]
    refine h₁.wp_unlist L fun own' s' hsteps => hQ own' s' hsteps fun pr hpr => ?_
    have hself := hsteps.self
    rw [hpr] at hself
    cases hself
  | true =>
    rw [if_neg (by decide)]
    have hr : IsRoot paging (withRoot own r) r := update_self _ _ _
    refine h₁.inv.wp_newPage hr argsVpn_inRange (h₁.empty argsVpn) fun p own₂ s₂ V₂ N₂ => ?_
    have hr₂ := (N₂.roots r).mpr hr
    rw [wp_bind]
    refine wp_newStack V₂ hr₂ start ?_ fun q own₃ s₃ V₃ N₃ => ?_
    · rw [N₂.space, setAt_of_ne fun h => stack_ne_args start h.2, h₁.empty]
    rw [wp_setProcess]
    have hpr₂ := (congrFun N₂.rest.list s.pid_counter_).trans h₁.self
    have hpr₃ := (congrFun N₃.rest.list s.pid_counter_).trans hpr₂
    generalize hp : (⟨r, ARGS_SEGMENT_START, p, [⟨start, 1⟩], false⟩ : UserProcess) = pr
    have htree : pr.page_map_level_4_ = r := by rw [← hp]
    have V₄ : VmInv kept own₃ (s₃.setProc s.pid_counter_ (some pr)) := V₃.setProc hpr₃ htree
    have hmem : pageAt own₃ s₃ r = update (update (fun _ => none) argsVpn (some fun _ => 0)) (stackVpn start 1)
        (some fun _ => 0) := by
      funext u
      rw [N₃.pageAt, N₂.pageAt, pageAt_none.mpr (h₁.empty u)]
      simp only [update_apply, true_and]
    have hself : ((s₃.setProc s.pid_counter_ (some pr)).process_list_ s.pid_counter_).map
        (absProc own₃ (s₃.setProc s.pid_counter_ (some pr))) = some (Proc.fresh start) := by
      rw [← fresh_eq, ← hmem, ← hp]
      exact congrArg _ (update_self _ _ _)
    have hsteps := L.steps V₄ (h₁.othersKeep.trans ((N₂.othersKeep h₁.inv h₁.self).trans
      ((N₃.othersKeep V₂ hpr₂).trans (setProc_othersKeep pr)))) hself (fun u hu => ?_) ?_
      (n := s.pid_counter_ + 1) ?_ ?_
    · refine hQ own₃ _ hsteps fun pr' hpr' => ?_
      have hpr₄ : (s₃.setProc s.pid_counter_ (some pr)).process_list_ s.pid_counter_ = some pr := update_self _ _ _
      rw [hpr₄] at hpr'
      cases hpr'
      refine ⟨by rw [← hp], ?_⟩
      show (space own₃ s₃.memory pr.page_map_level_4_ argsVpn).map Prod.fst = _
      rw [htree, N₃.space, setAt_of_ne fun h => stack_ne_args start h.2.symm, N₂.space, setAt_self, ← hp]
      rfl
    · have hu' := withRoot_isRoot.mp ((N₂.roots u).mp ((N₃.roots u).mp hu))
      rcases hu' with rfl | hu'
      · left
        rw [rootOf_setProc, update_self, htree]
      · refine .inr ⟨hu', fun hroot => ?_⟩
        rw [rootOf, L.inv.unlisted] at hroot
        cases hroot
    · rintro P ⟨⟩
      exact Proc.fresh_nullFree start
    · exact N₃.rest.counter.trans (N₂.rest.counter.trans h₁.counter)
    · exact N₃.rest.total.trans (N₂.rest.total.trans h₁.total)


/-! ### `fork` -/

theorem wp_copyPages (mode : ForkMode) (V : VmInv kept own s) (hr : rootOf s proc = some r)
    (hrc : rootOf s pid = some rc) (hne : r ≠ rc) (hempty : ∀ u, space own s.memory rc u = none)
    {α : Type} {k : Kern α} {Q : α → Kernel → Prop}
    (hQ : ∀ own' s', AllCopied mode kept own own' s s' r rc → wp OutOfMemory k Q s') :
    wp OutOfMemory (do
      match mode with
      | .cow => ArchMemory.copyPagesToNewArchMemCOW r rc proc pid
      | .eager => ArchMemory.copyPagesToNewArchMem r rc
      k) Q s := by
  cases mode with
  | cow =>
    rw [wp_bind]
    exact wp_copyPagesToNewArchMemCOW V hr hrc hne hempty hQ
  | eager =>
    rw [wp_bind]
    exact wp_copyPagesToNewArchMem V (V.root hr) (V.root hrc) hne hempty hQ

theorem Copied.othersKeep {mode : ForkMode} (C : Copied mode kept own own' s s' r pr.page_map_level_4_ v)
    (V : VmInv kept own s) (hpr : s.process_list_ pid = some pr) : OthersKeep own own' s s' pid :=
  .of_tree V hpr (fun k _ => by rw [C.list]) C.view fun r' u hr' => C.phys r' u hr'

theorem wp_createProcessOnFork (mode : ForkMode) (L : Live kept own s) (hpr : s.process_list_ proc = some pr)
    {thread : UserThread} (hthread : pr.thread_list_.head? = some thread) {loads : Bool} {garbage : Garbage}
    {Q : PUnit → Kernel → Prop}
    (hQ : ∀ own' s', Steps kept own own' s s' s.pid_counter_ (s.pid_counter_ + 1)
        (if loads then some ((absProc own s pr).child thread garbage) else none) →
      (∀ pr', s'.process_list_ s.pid_counter_ = some pr' → pr'.args_seg_addr_ = garbage.args_seg_addr_ ∧
        pr'.args_ppn_ = garbage.args_ppn_ ∧ (mode = .cow → ∀ u,
          (space own' s'.memory pr'.page_map_level_4_ u).map Prod.fst =
            (space own s.memory pr.page_map_level_4_ u).map Prod.fst)) → Q ⟨⟩ s') :
    wp OutOfMemory (createProcessOnFork mode proc loads garbage) Q s := by
  unfold createProcessOnFork
  rw [wp_bind]
  refine wp_getProcess hpr ?_
  rw [hthread]
  refine wp_listed L.inv (p := fun r => ⟨r, garbage.args_seg_addr_, garbage.args_ppn_, [], false⟩) (fun _ => rfl)
    fun rc s₁ h₁ => ?_
  cases loads with
  | false =>
    rw [if_pos rfl]
    refine h₁.wp_unlist L fun own' s' hsteps => hQ own' s' hsteps fun pr' hpr' => ?_
    have hself := hsteps.self
    rw [hpr'] at hself
    cases hself
  | true =>
    rw [if_neg (by decide)]
    obtain ⟨hkne, hne⟩ := h₁.ne L.inv hpr
    have hr₁ : rootOf s₁ proc = some pr.page_map_level_4_ := by
      rw [rootOf, h₁.list, update_of_ne hkne, hpr]
      rfl
    refine wp_copyPages mode h₁.inv hr₁ (rootOf_eq h₁.self) hne h₁.empty fun own₂ s₂ C => ?_
    rw [wp_setProcess]
    obtain ⟨hall, hsame⟩ := C.all
    have hpr₂ := (congrFun C.list s.pid_counter_).trans h₁.self
    generalize hp : (⟨rc, garbage.args_seg_addr_, garbage.args_ppn_,
      [⟨thread.stack_start_addr_, garbage.stack_pages_⟩], false⟩ : UserProcess) = pc
    have htree : pc.page_map_level_4_ = rc := by rw [← hp]
    have V₃ : VmInv kept own₂ (s₂.setProc s.pid_counter_ (some pc)) := C.inv.setProc hpr₂ htree
    have hmem : pageAt own₂ s₂ rc = pageAt own s pr.page_map_level_4_ := hall.trans (congrFun h₁.view _)
    have hpr₃ : (s₂.setProc s.pid_counter_ (some pc)).process_list_ s.pid_counter_ = some pc := update_self _ _ _
    have hself : ((s₂.setProc s.pid_counter_ (some pc)).process_list_ s.pid_counter_).map
        (absProc own₂ (s₂.setProc s.pid_counter_ (some pc))) = some ((absProc own s pr).child thread garbage) := by
      rw [hpr₃, ← hp]
      show some (Proc.mk _ _ (pageAt own₂ s₂ rc)) = _
      rw [hmem]
      rfl
    have hsteps := L.steps V₃ (h₁.othersKeep.trans ((C.othersKeep h₁.inv h₁.self).trans (setProc_othersKeep pc)))
      hself (fun u hu => ?_) ?_ (n := s.pid_counter_ + 1) ?_ ?_
    · refine hQ own₂ _ hsteps fun pr' hpr' => ?_
      rw [hpr₃] at hpr'
      cases hpr'
      refine ⟨by rw [← hp], by rw [← hp], fun hmode u => ?_⟩
      show (space own₂ s₂.memory pc.page_map_level_4_ u).map Prod.fst = _
      rw [htree, hsame hmode u, h₁.space]
    · rcases withRoot_isRoot.mp ((C.roots u).mp hu) with rfl | hu'
      · left
        rw [rootOf_setProc, update_self, htree]
      · refine .inr ⟨hu', fun hroot => ?_⟩
        rw [rootOf, L.inv.unlisted] at hroot
        cases hroot
    · rintro P ⟨⟩
      exact L.nullFree hpr
    · exact C.counter.trans h₁.counter
    · exact C.total.trans h₁.total


/-! ### Removal of a process, and `execv` -/

theorem wp_destroy (L : Live kept own s) (hpr : s.process_list_ proc = some pr) {Q : PUnit → Kernel → Prop}
    (hQ : ∀ own' s', Steps kept own own' s s' proc s.pid_counter_ none → Q ⟨⟩ s') :
    wp OutOfMemory (destroy proc) Q s := by
  unfold destroy
  rw [wp_bind]
  refine wp_getProcess hpr ?_
  rw [wp_bind, eraseProcessFromCOWMap, wp_modify]
  exact L.inv.wp_remove hpr fun own' s' h => hQ own' s' (h.steps L hpr)

/-- A tree that no process has is deleted. -/
theorem VmInv.wp_deleteUnowned (V : VmInv kept own s) (hr : IsRoot paging own r) (hunowned : ∀ k, rootOf s k ≠ some r)
    {Q : PUnit → Kernel → Prop}
    (hQ : ∀ own' s', VmInv kept own' s' → Deleted kept own own' s s' r → Q ⟨⟩ s') :
    wp OutOfMemory (ArchMemory.delete r) Q s := by
  have S' := V.sharing.dropUnowned hunowned
  refine wp_deleteTree V.tables hr V.sharing S' fun own' s' hd => hQ own' s' ?_ hd
  have hroots : rootOf s' = rootOf s := rootOf_congr hd.rest.list
  refine vmInv_deleted hd s'.process_list_ ?_ (fun {k u} hu => ?_) fun hk => ?_
  · show Sharing _ _ (rootOf s')
    rw [hroots]
    exact S'
  · have hu' : rootOf s' k = some u := hu
    rw [hroots] at hu'
    refine ⟨?_, V.root hu'⟩
    rintro rfl
    exact hunowned k hu'
  · rw [hd.rest.list] at hk
    exact V.counter hk

theorem Deleted.othersKeep (h : Deleted kept own own' s s' r) (hunowned : ∀ k, rootOf s k ≠ some r)
    (pid : ℕ) : OthersKeep own own' s s' pid := by
  have hne : ∀ {k pr}, s.process_list_ k = some pr → pr.page_map_level_4_ ≠ r := by
    intro k pr hpr heq
    exact hunowned k (heq ▸ rootOf_eq hpr)
  refine ⟨fun k _ => by rw [h.rest.list], fun k pr _ hpr => pageAt_deleted h (hne hpr), fun k pr u _ hpr => ?_⟩
  rw [Deleted.space h, drop_of_ne (hne hpr)]

/-- The memory after `execv`: the arguments page and the first stack page. -/
def Proc.restructured (p : Proc) (start : StackStart) (args : Page) : Proc where
  thread_list_ := [⟨start, 1⟩]
  called_exit_ := p.called_exit_
  memory := update (update (fun _ => none) argsVpn (some args)) (stackVpn start 1) (some fun _ => 0)

theorem Proc.restructured_nullFree (p : Proc) (start : StackStart) (args : Page) :
    (p.restructured start args).NullFree := by
  show (update _ (stackVpn start 1) _ : ℕ → Option Page) 0 = none
  rw [update_of_ne (stackVpn_pos start (by decide)).ne, update_of_ne (by decide)]

/-- The tree of a new loader at `rc`, which has the arguments page only. -/
structure NewLoader (kept : ℕ → Prop) (own own' : Own) (s s' : Kernel) (rc : ℕ) (args : Page) : Prop where
  inv : VmInv kept own' s'
  new : own rc = none
  roots : ∀ {u}, IsRoot paging own' u ↔ u = rc ∨ IsRoot paging own u
  args : KPanic.pageAt own' s' rc = update (fun _ => none) argsVpn (some args)
  view : ∀ r', r' ≠ rc → KPanic.pageAt own' s' r' = KPanic.pageAt own s r'
  space : ∀ r' u, r' ≠ rc → KPanic.space own' s'.memory r' u = KPanic.space own s.memory r' u
  cow : s'.cow_map_ = s.cow_map_
  list : s'.process_list_ = s.process_list_
  counter : s'.pid_counter_ = s.pid_counter_
  total : s'.pm.number_of_pages_ = s.pm.number_of_pages_

theorem wp_copyArgsSegment (V₁ : VmInv kept (withRoot own rc) s') (hnew : own rc = none)
    (hq : Quiet own (withRoot own rc) s s') {old_args_ppn : ℕ} {Q : PUnit → Kernel → Prop}
    (hQ : ∀ own' s'' args, NewLoader kept own own' s s'' rc args →
      (∀ r u b, space own s.memory r u = some (old_args_ppn, b) → args = s.memory old_args_ppn) → Q ⟨⟩ s'') :
    wp OutOfMemory (ArchMemory.copyArgsSegmentToNewArchMem rc old_args_ppn) Q s' := by
  unfold ArchMemory.copyArgsSegmentToNewArchMem
  have hempty : ∀ u, space (withRoot own rc) s'.memory rc u = none := fun u => by rw [hq.space, space_of_new hnew]
  refine V₁.wp_newPage (update_self _ _ _) argsVpn_inRange (hempty argsVpn) fun q own₂ s₂ V₂ N => ?_
  refine wp_copyPage ?_
  have hq₂ : space own₂ s₂.memory rc argsVpn = some (q, true) := by rw [N.space, setAt_self]
  obtain ⟨V₃, hspace₃, hview₃⟩ := V₂.setPage hq₂ (s₂.memory old_args_ppn)
  refine hQ own₂ _ (s₂.memory old_args_ppn) ⟨V₃, hnew, fun {u} => (N.roots u).trans withRoot_isRoot, ?_,
    fun r' hr' => ?_, fun r' u hr' => ?_, N.rest.cow.trans hq.rest.cow, N.rest.list.trans hq.rest.list,
    N.rest.counter.trans hq.rest.counter, N.rest.total.trans hq.rest.total⟩ fun r u b hm => ?_
  · funext u
    rw [hview₃, N.pageAt, pageAt_none.mpr (hempty u)]
    simp only [update_apply, true_and]
    split
    · rfl
    · rfl
  · funext u
    rw [hview₃, if_neg fun h => hr' h.1, N.pageAt, if_neg fun h => hr' h.1, hq.page]
  · rw [hspace₃, N.space, setAt_of_ne fun h => hr' h.1, hq.space]
  · rw [N.mem (by rw [hq.space]; exact hm), hq.mem hm]

/-- The process gets the new loader, the thread its first stack page, and the old tree is deleted. -/
theorem wp_swapLoaders (L : Live kept own s) (hpr : s.process_list_ proc = some pr)
    (hshare : ∀ p, proc ∉ s.cow_map_ p) {args : Page} (N : NewLoader kept own own' s s' rc args) (start : StackStart)
    {Q : PUnit → Kernel → Prop}
    (hQ : ∀ own'' s'', Steps kept own own'' s s'' proc s.pid_counter_
      (some ((absProc own s pr).restructured start args)) → Q ⟨⟩ s'') :
    wp OutOfMemory (do
      setProcess proc (some { pr with page_map_level_4_ := rc })
      let thread ← newStack rc start
      setProcess proc (some { pr with page_map_level_4_ := rc, thread_list_ := [thread] })
      ArchMemory.delete pr.page_map_level_4_) Q s' := by
  have V := L.inv
  have hroots : rootOf s' = rootOf s := rootOf_congr N.list
  have hunowned : ∀ k, rootOf s' k ≠ some rc := by
    intro k hk
    rw [hroots] at hk
    exact not_isRoot N.new (V.root hk)
  have hne : pr.page_map_level_4_ ≠ rc := by
    rintro heq
    refine hunowned proc ?_
    rw [hroots, rootOf_eq hpr, heq]
  have hpid : proc < s'.pid_counter_ := by
    rw [N.counter]
    exact V.counter (by rw [hpr]; exact Option.some_ne_none _)
  have V₁ : VmInv kept own' (s'.setProc proc (some { pr with page_map_level_4_ := rc })) :=
    N.inv.setTree (by rw [N.cow]; exact hshare) hpid (N.roots.mpr (.inl rfl)) hunowned
  have hlist₁ : (s'.setProc proc (some { pr with page_map_level_4_ := rc })).process_list_ =
      update s.process_list_ proc (some { pr with page_map_level_4_ := rc }) := by
    show update s'.process_list_ _ _ = _
    rw [N.list]
  have hview₁ : pageAt own' (s'.setProc proc (some { pr with page_map_level_4_ := rc })) = pageAt own' s' := rfl
  have hspace₁ : (s'.setProc proc (some { pr with page_map_level_4_ := rc })).memory = s'.memory := rfl
  have hcounter₁ : (s'.setProc proc (some { pr with page_map_level_4_ := rc })).pid_counter_ = s.pid_counter_ := N.counter
  have htotal₁ : (s'.setProc proc (some { pr with page_map_level_4_ := rc })).pm.number_of_pages_ =
    s.pm.number_of_pages_ := N.total
  rw [wp_bind, wp_setProcess, wp_bind]
  generalize s'.setProc proc (some { pr with page_map_level_4_ := rc }) = s₁ at V₁ hlist₁ hview₁ hspace₁ hcounter₁ htotal₁ ⊢
  have hfree : space own' s₁.memory rc (stackVpn start 1) = none := by
    rw [hspace₁, ← pageAt_none, N.args, update_of_ne (stack_ne_args start)]
  refine wp_newStack V₁ (N.roots.mpr (.inl rfl)) start hfree fun q own₂ s₂ V₂ N₂ => ?_
  have hpr₂ : s₂.process_list_ proc = some { pr with page_map_level_4_ := rc } := by
    rw [N₂.rest.list, hlist₁, update_self]
  have V₃ : VmInv kept own₂ (s₂.setProc proc (some { pr with
      page_map_level_4_ := rc, thread_list_ := [⟨start, 1⟩] })) := V₂.setProc hpr₂ rfl
  rw [wp_bind, wp_setProcess]
  have hlist₃ : ∀ k, k ≠ proc → (s₂.setProc proc (some { pr with
      page_map_level_4_ := rc, thread_list_ := [⟨start, 1⟩] })).process_list_ k = s.process_list_ k := by
    intro k hk
    show update s₂.process_list_ _ _ k = _
    rw [update_of_ne hk, N₂.rest.list, hlist₁, update_of_ne hk]
  have hothers : ∀ {k pr'}, k ≠ proc → s.process_list_ k = some pr' →
      pr'.page_map_level_4_ ≠ pr.page_map_level_4_ ∧ pr'.page_map_level_4_ ≠ rc := by
    intro k pr' hk hpr'
    refine ⟨fun heq => hk (V.sharing.rootInj (rootOf_eq hpr') (heq ▸ rootOf_eq hpr)), fun heq => hunowned k ?_⟩
    rw [hroots, rootOf_eq hpr', heq]
  refine V₃.wp_deleteUnowned ((N₂.roots _).mpr (N.roots.mpr (.inr (V.root (rootOf_eq hpr))))) (fun k hk => ?_)
    fun own₄ s₄ V₄ hd => ?_
  · rw [rootOf_setProc] at hk
    by_cases hkp : k = proc
    · rw [hkp, update_self] at hk
      exact hne (Option.some.inj hk).symm
    · rw [update_of_ne hkp, rootOf, N₂.rest.list, hlist₁, update_of_ne hkp] at hk
      exact hkp (V.sharing.rootInj hk (rootOf_eq hpr))
  · have hpr₄ : s₄.process_list_ proc = some { pr with
        page_map_level_4_ := rc, thread_list_ := [⟨start, 1⟩] } := by
      rw [hd.rest.list]
      exact update_self _ _ _
    refine hQ own₄ s₄ (L.steps V₄ ⟨fun k hk => ?_, fun k pr' hk hpr' => ?_, fun k pr' u hk hpr' => ?_⟩ ?_
      (fun u hu => ?_) ?_ ?_ ?_)
    · rw [hd.rest.list]
      exact hlist₃ k hk
    · obtain ⟨h1, h2⟩ := hothers hk hpr'
      rw [pageAt_deleted hd h1, ← N.view _ h2, ← hview₁]
      funext u
      rw [pageAt_setProc, N₂.pageAt, if_neg fun h => h2 h.1]
    · obtain ⟨h1, h2⟩ := hothers hk hpr'
      rw [Deleted.space hd, drop_of_ne h1, ← N.space _ u h2, ← hspace₁]
      show (space own₂ s₂.memory _ u).map _ = _
      rw [N₂.space, setAt_of_ne fun h => h2 h.1]
    · rw [hpr₄, Option.map_some]
      show some (Proc.mk _ _ (pageAt own₄ s₄ rc)) = _
      rw [pageAt_deleted hd hne.symm]
      unfold Proc.restructured
      rw [← N.args, ← hview₁]
      congr 2
      funext u
      rw [pageAt_setProc, N₂.pageAt, update_apply]
      simp only [true_and]
    · obtain ⟨hu, hroot⟩ := (hd.roots u).mp hu
      rcases N.roots.mp ((N₂.roots u).mp hroot) with rfl | hu'
      · exact .inl (rootOf_eq hpr₄)
      · refine .inr ⟨hu', fun h => hu ?_⟩
        rw [rootOf_eq hpr] at h
        exact (Option.some.inj h).symm
    · rintro P ⟨⟩
      exact Proc.restructured_nullFree _ _ _
    · exact hd.rest.counter.trans (N₂.rest.counter.trans hcounter₁)
    · exact hd.rest.total.trans (N₂.rest.total.trans htotal₁)

/-- The `execv` of a process that shares no page, or one that fails. -/
theorem wp_restructure (L : Live kept own s) (hpr : s.process_list_ proc = some pr)
    {loads : Bool} (hshare : loads = true → ∀ p, proc ∉ s.cow_map_ p) {start : StackStart} {Q : PUnit → Kernel → Prop}
    (hQ : ∀ own' s' P, Steps kept own own' s s' proc s.pid_counter_ (some P) →
      (if loads then ∃ args, P = (absProc own s pr).restructured start args ∧
        (∀ r u b, space own s.memory r u = some (pr.args_ppn_, b) → args = s.memory pr.args_ppn_)
      else P = absProc own s pr) → Q ⟨⟩ s') :
    wp OutOfMemory (restructureProcessForExecv proc loads start) Q s := by
  have V := L.inv
  unfold restructureProcessForExecv
  rw [wp_bind]
  refine wp_getProcess hpr ?_
  rw [wp_bind]
  refine V.wp_new fun rc s₁ V₁ hnew hq₁ => ?_
  have hrc : IsRoot paging (withRoot own rc) rc := update_self _ _ _
  have hlist₁ : s₁.process_list_ = s.process_list_ := hq₁.rest.list
  have hpr₁ : s₁.process_list_ proc = some pr := by rw [hlist₁, hpr]
  have hroots₁ : rootOf s₁ = rootOf s := rootOf_congr hlist₁
  have hunowned : ∀ k, rootOf s₁ k ≠ some rc := by
    intro k hk
    rw [hroots₁] at hk
    exact not_isRoot hnew (V.root hk)
  have hne : pr.page_map_level_4_ ≠ rc := fun heq => hunowned proc (heq ▸ rootOf_eq hpr₁)
  cases loads with
  | false =>
    rw [if_pos rfl]
    refine V₁.wp_deleteUnowned hrc hunowned fun own₂ s₂ V₂ hd => ?_
    have hpr₂ : s₂.process_list_ proc = some pr := (congrFun hd.rest.list proc).trans hpr₁
    have habs : absProc own₂ s₂ pr = absProc own s pr :=
      absProc_congr ((pageAt_deleted hd hne).trans (congrFun hq₁.page _))
    refine hQ own₂ s₂ (absProc own s pr) (L.steps V₂ ((hq₁.othersKeep proc).trans (hd.othersKeep hunowned proc)) ?_ (fun u hu => ?_)
      ?_ (hd.rest.counter.trans hq₁.rest.counter) (hd.rest.total.trans hq₁.rest.total)) ?_
    · rw [hpr₂, Option.map_some, habs]
    · obtain ⟨hu, hroot⟩ := (hd.roots u).mp hu
      have hu' := (withRoot_isRoot.mp hroot).resolve_left hu
      by_cases hup : u = pr.page_map_level_4_
      · left
        rw [rootOf_eq hpr₂, hup]
      · refine .inr ⟨hu', fun h => hup ?_⟩
        rw [rootOf_eq hpr] at h
        exact (Option.some.inj h).symm
    · rintro P ⟨⟩
      exact L.nullFree hpr
    · rw [if_neg (by decide)]
  | true =>
    rw [if_neg (by decide), wp_bind]
    refine wp_copyArgsSegment V₁ hnew hq₁ fun own₂ s₂ args N hargs => ?_
    refine wp_swapLoaders L hpr (hshare rfl) N start fun own₃ s₃ hsteps => hQ own₃ s₃ _ hsteps ?_
    rw [if_pos rfl]
    exact ⟨args, rfl, hargs⟩

end KPanic
