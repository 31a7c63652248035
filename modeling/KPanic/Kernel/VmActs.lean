import KPanic.Kernel.CowFault
import KPanic.Kernel.PrivateMemory

/-!
# What an operation of one process changes

`Acts` is what every operation of a process leaves behind: the invariant, the process as `p'`
describes it, and everything else as it was. `Quiet` is the case that nothing can be seen at all.
-/

namespace KPanic

open Function
open PageTree
open CopyOnWrite
open Wp

variable {kept kept' : ℕ → Prop} {own own' own'' : Own} {s s' s'' : Kernel} {r v p q proc : ℕ}
  {pr pr' : UserProcess} {p' p'' : Proc} {D D' : ℕ → ℕ → Prop}

/-- A process, with its memory read off the page tables. -/
noncomputable def absProc (own : Own) (s : Kernel) (pr : UserProcess) : Proc :=
  ⟨pr.thread_list_, pr.called_exit_, pageAt own s pr.page_map_level_4_⟩

noncomputable def abs (own : Own) (s : Kernel) : Private :=
  ⟨fun pid => (s.process_list_ pid).map (absProc own s), s.pid_counter_⟩

/-- `pr` with the threads and the flag of `p`. -/
def UserProcess.as (pr : UserProcess) (p : Proc) : UserProcess :=
  { pr with thread_list_ := p.thread_list_, called_exit_ := p.called_exit_ }

theorem as_absProc : pr.as (absProc own s pr) = pr := rfl

theorem absProc_congr (hpage : pageAt own' s' pr.page_map_level_4_ = pageAt own s pr.page_map_level_4_) :
    absProc own' s' pr = absProc own s pr := by
  rw [absProc, absProc, hpage]

/-! ### Nothing can be seen -/

structure Quiet (own own' : Own) (s s' : Kernel) : Prop where
  space : space own' s'.memory = space own s.memory
  mem : ∀ {r u c b}, KPanic.space own s.memory r u = some (c, b) → s'.memory c = s.memory c
  rest : SameRest s s'

theorem Quiet.refl : Quiet own own s s := ⟨rfl, fun _ => rfl, SameRest.refl s⟩

theorem Quiet.trans (h : Quiet own own' s s') (h' : Quiet own' own'' s' s'') :
    Quiet own own'' s s'' where
  space := h'.space.trans h.space
  mem hm := by rw [h'.mem (by rw [h.space]; exact hm), h.mem hm]
  rest := h.rest.trans h'.rest

theorem Quiet.page (h : Quiet own own' s s') : pageAt own' s' = pageAt own s :=
  view_congr (fun _ _ => by rw [h.space]) fun _ _ _ _ hm => h.mem hm

theorem Quiet.inv (h : Quiet own own' s s') (V : VmInv kept own s) (T : Tables kept' own' s')
    (hroots : ∀ {u}, IsRoot paging own u → IsRoot paging own' u) : VmInv kept' own' s' where
  tables := T
  sharing := by
    rw [h.space, h.rest.cow, rootOf_congr h.rest.list]
    exact V.sharing
  root hr := hroots (V.root (by rwa [rootOf_congr h.rest.list] at hr))
  counter hp := by
    rw [h.rest.list] at hp
    rw [h.rest.counter]
    exact V.counter hp

/-! ### One process changes -/

structure Acts (kept : ℕ → Prop) (own own' : Own) (s s' : Kernel) (proc : ℕ) (pr : UserProcess)
    (p' : Proc) (D : ℕ → ℕ → Prop) : Prop where
  inv : VmInv kept own' s'
  roots : ∀ u, IsRoot paging own' u ↔ IsRoot paging own u
  list : s'.process_list_ = update s.process_list_ proc (some (pr.as p'))
  page : pageAt own' s' pr.page_map_level_4_ = p'.memory
  others : ∀ r', r' ≠ pr.page_map_level_4_ → pageAt own' s' r' = pageAt own s r'
  phys : ∀ {r' u c b}, space own s.memory r' u = some (c, b) → ¬D r' u →
    ∃ b', space own' s'.memory r' u = some (c, b')
  counter : s'.pid_counter_ = s.pid_counter_
  total : s'.pm.number_of_pages_ = s.pm.number_of_pages_

/-- Every page stays where it is. -/
def stays : ℕ → ℕ → Prop := fun _ _ => False

namespace Acts

theorem self (h : Acts kept own own' s s' proc pr p' D) :
    s'.process_list_ proc = some (pr.as p') := by
  rw [h.list, update_self]

theorem absProc (h : Acts kept own own' s s' proc pr p' D) :
    absProc own' s' (pr.as p') = p' := by
  show Proc.mk p'.thread_list_ p'.called_exit_ (pageAt own' s' pr.page_map_level_4_) = p'
  rw [h.page]

theorem of_quiet (V : VmInv kept own s') (h : Quiet own own s s')
    (hpr : s.process_list_ proc = some pr) :
    Acts kept own own s s' proc pr (KPanic.absProc own s pr) D where
  inv := V
  roots _ := Iff.rfl
  list := by rw [as_absProc, h.rest.list, ← hpr, update_eq_self]
  page := by
    rw [h.page]
    rfl
  others r' _ := by rw [h.page]
  phys hm _ := ⟨_, by rw [h.space]; exact hm⟩
  counter := h.rest.counter
  total := h.rest.total

/-- Two operations of the same process in a row. -/
theorem trans (h : Acts kept own own' s s' proc pr p' D)
    (h' : Acts kept own' own'' s' s'' proc (pr.as p') p'' D')
    (hmoved : ∀ {r u}, space own s.memory r u ≠ none → ¬D r u → ¬D' r u) :
    Acts kept own own'' s s'' proc pr p'' D where
  inv := h'.inv
  roots u := (h'.roots u).trans (h.roots u)
  list := by
    rw [h'.list, h.list, update_idem]
    rfl
  page := h'.page
  others r' hr := (h'.others r' hr).trans (h.others r' hr)
  phys hm hmove := by
    obtain ⟨b', hm'⟩ := h.phys hm hmove
    exact h'.phys hm' (hmoved (by rw [hm]; exact Option.some_ne_none _) hmove)
  counter := h'.counter.trans h.counter
  total := h'.total.trans h.total

theorem after_quiet (h : Quiet own own s s') (h' : Acts kept own own' s' s'' proc pr p' D) :
    Acts kept own own' s s'' proc pr p' D where
  inv := h'.inv
  roots := h'.roots
  list := by rw [h'.list, h.rest.list]
  page := h'.page
  others r' hr := by rw [h'.others r' hr, h.page]
  phys hm hmove := h'.phys (by rw [h.space]; exact hm) hmove
  counter := h'.counter.trans h.rest.counter
  total := h'.total.trans h.rest.total

/-- What all processes see is decided by `Acts`. -/
theorem abs (h : Acts kept own own' s s' proc pr p' D) (V : VmInv kept' own s)
    (hpr : s.process_list_ proc = some pr) : abs own' s' = (KPanic.abs own s).set proc p' := by
  have hproc : ∀ pid, (s'.process_list_ pid).map (KPanic.absProc own' s') =
      update (fun pid => (s.process_list_ pid).map (KPanic.absProc own s)) proc (some p') pid := by
    intro pid
    by_cases hp : pid = proc
    · rw [hp, h.self, update_self, Option.map_some, h.absProc]
    · rw [update_of_ne hp, h.list, update_of_ne hp]
      cases hs : s.process_list_ pid with
      | none => rfl
      | some pr' =>
        have hne : pr'.page_map_level_4_ ≠ pr.page_map_level_4_ := by
          intro heq
          exact hp (V.sharing.rootInj (rootOf_eq hs) (heq ▸ rootOf_eq hpr))
        rw [Option.map_some, Option.map_some, absProc_congr (h.others _ hne)]
  unfold KPanic.abs Private.set
  rw [h.counter]
  congr 1
  exact funext hproc

end Acts

/-! ### The entry of a process -/

/-- The kernel after `setProcess`. -/
def Kernel.setProc (s : Kernel) (pid : ℕ) (o : Option UserProcess) : Kernel :=
  { s with process_list_ := update s.process_list_ pid o }

@[simp] theorem wp_setProcess {o : Option UserProcess} {Q : PUnit → Kernel → Prop} :
    wp OutOfMemory (setProcess proc o) Q s ↔ Q ⟨⟩ (s.setProc proc o) := by
  rw [setProcess, wp_modify]
  rfl

/-- A process keeps its page tables. -/
theorem VmInv.setProc (V : VmInv kept own s) (hpr : s.process_list_ proc = some pr)
    (hroot : pr'.page_map_level_4_ = pr.page_map_level_4_) :
    VmInv kept own (s.setProc proc (some pr')) := by
  have hsame : rootOf (s.setProc proc (some pr')) = rootOf s := by
    funext pid
    refine PartialMap.map_update ?_ pid
    rw [hpr, Option.map_some, Option.map_some, hroot]
  refine ⟨V.tables.other rfl rfl, ?_, fun hu => V.root (by rwa [hsame] at hu), ?_⟩
  · rw [hsame]
    exact V.sharing
  · intro pid hpid
    show pid < s.pid_counter_
    by_cases hp : pid = proc
    · exact V.counter (by rw [hp, hpr]; exact Option.some_ne_none _)
    · refine V.counter ?_
      have h : update s.process_list_ proc (some pr') pid ≠ none := hpid
      rwa [update_of_ne hp] at h

theorem Acts.setProc {P : Proc} (V : VmInv kept own s) (hpr : s.process_list_ proc = some pr)
    (hmem : P.memory = pageAt own s pr.page_map_level_4_) :
    Acts kept own own s (s.setProc proc (some (pr.as P))) proc pr P D where
  inv := V.setProc hpr rfl
  roots _ := Iff.rfl
  list := rfl
  page := hmem.symm
  others _ _ := rfl
  phys hm _ := ⟨_, hm⟩
  counter := rfl
  total := rfl

theorem wp_exit (V : VmInv kept own s) (hpr : s.process_list_ proc = some pr)
    {Q : PUnit → Kernel → Prop}
    (hQ : ∀ s', Acts kept own own s s' proc pr (absProc own s pr).exit D → Q ⟨⟩ s') :
    wp OutOfMemory (exit proc) Q s := by
  rw [exit, wp_modify, hpr]
  have h := Acts.setProc (P := (absProc own s pr).exit) (D := D) V hpr rfl
  exact hQ _ h

/-! ### A page that the kernel holds for the moment -/

structure Holds (kept : ℕ → Prop) (own : Own) (s : Kernel) (p : ℕ) : Prop where
  inv : VmInv (fun q => kept q ∨ q = p) own s
  new : ¬kept p
  zero : kept 0

theorem VmInv.wp_alloc (V : VmInv kept own s) {Q : ℕ → Kernel → Prop}
    (hQ : ∀ p s', Holds kept own s' p → Quiet own own s s' → s'.memory p = (fun _ => 0) →
      (∀ q, q ≠ p → s'.memory q = s.memory q) → Q p s') :
    wp OutOfMemory (allocPPN PAGE_SIZE) Q s := by
  refine wp_allocPPN_tables V.tables fun p pm hp hn T => ?_
  have hne : ∀ {u role}, own u = some role → u ≠ p := by
    rintro u role hu rfl
    exact hp (.inl (by rw [hu]; exact Option.some_ne_none _))
  have hquiet : Quiet own own s (s.alloc p pm) := by
    refine ⟨space_congr V.tables.tree T.tree fun hu => Kernel.alloc_of_ne (hne hu), ?_,
      ⟨rfl, rfl, rfl, rfl, hn⟩⟩
    exact fun hm => Kernel.alloc_of_ne (hne (space_own V.tables.tree hm))
  exact hQ p _ ⟨hquiet.inv V T id, fun hk => hp (.inr hk), V.tables.zero⟩ hquiet Kernel.alloc_self
    fun q hq => Kernel.alloc_of_ne hq

namespace Holds

theorem own_none (H : Holds kept own s p) : own p = none := H.inv.tables.apart (.inr rfl)

theorem ne_zero (H : Holds kept own s p) : p ≠ 0 := by
  rintro rfl
  exact H.new H.zero

theorem ne_own (H : Holds kept own s p) {role : Role ℕ} (h : own q = some role) : q ≠ p := by
  rintro rfl
  rw [H.own_none] at h
  cases h

theorem quiet_update (H : Holds kept own s p) {f : Page} (T : Tables kept' own s')
    (hm : s'.memory = update s.memory p f) (hrest : SameRest s s') : Quiet own own s s' := by
  have hsame : ∀ {u role}, own u = some role → s'.memory u = s.memory u := by
    intro u role hu
    rw [hm, update_of_ne (H.ne_own hu)]
  refine ⟨space_congr H.inv.tables.tree T.tree fun hu => hsame hu, ?_, hrest⟩
  exact fun hcm => hsame (space_own H.inv.tables.tree hcm)

theorem wp_free (H : Holds kept own s p) {Q : PUnit → Kernel → Prop}
    (hQ : ∀ s', VmInv kept own s' → Quiet own own s s' → Q ⟨⟩ s') :
    wp OutOfMemory (freePPN p PAGE_SIZE) Q s := by
  have hshared : s.cow_map_ p = [] :=
    H.inv.not_shared fun u hu => by rw [H.own_none] at hu; cases hu
  refine wp_freePPN H.inv.tables.pm (.inr (.inr rfl)) H.ne_zero hshared fun pm hn hpm => ?_
  have T := (H.inv.tables.free (.inr rfl) H.ne_zero hpm).keptCongr (K := kept) fun q =>
    ⟨fun hq => ⟨.inl hq, fun h => H.new (h ▸ hq)⟩, fun ⟨hq, hqp⟩ => hq.resolve_right hqp⟩
  have hquiet := H.quiet_update T rfl ⟨rfl, rfl, rfl, rfl, hn⟩
  exact hQ _ (hquiet.inv H.inv T id) hquiet

theorem wp_setPage (H : Holds kept own s p) {f : Page} {Q : PUnit → Kernel → Prop}
    (hQ : ∀ s', Holds kept own s' p → Quiet own own s s' → s'.memory p = f → Q ⟨⟩ s') :
    wp OutOfMemory (Kern.setPage p f) Q s := by
  rw [KPanic.wp_setPage]
  have hk : kept p ∨ p = p := .inr rfl
  have T := H.inv.tables.setPage (f := f) (.inr hk) (H.inv.tables.not_table_of_kept hk)
  have hquiet := H.quiet_update T rfl ⟨rfl, rfl, rfl, rfl, rfl⟩
  exact hQ _ ⟨hquiet.inv H.inv T id, H.new, H.zero⟩ hquiet (update_self _ _ _)

end Holds

/-! ### A page that becomes mapped -/

structure Mapped (own own' : Own) (s s' : Kernel) (r v p : ℕ) : Prop where
  roots : ∀ u, IsRoot paging own' u ↔ IsRoot paging own u
  space : space own' s'.memory = setAt (space own s.memory) r v (some (p, true))
  mem : ∀ {r u c b}, KPanic.space own s.memory r u = some (c, b) → s'.memory c = s.memory c
  page : s'.memory p = s.memory p
  rest : SameRest s s'

theorem Mapped.pageAt (M : Mapped own own' s s' r v p) (r' u : ℕ) :
    pageAt own' s' r' u = if r' = r ∧ u = v then some (s.memory p) else pageAt own s r' u := by
  unfold KPanic.pageAt
  rw [M.space, view_setAt fun _ _ _ _ h => M.mem h, M.page]

/-- What `Change` says when the page was held. -/
theorem Holds.mapped (H : Holds kept own s p) (hfree : space own s.memory r v = none)
    (T : Tables (fun q => (kept q ∨ q = p) ∧ q ≠ p) own' s')
    (hc : Change (fun q => kept q ∨ q = p) r v own own' s s'
      (setAt (space own s.memory) r v (some (p, true)))) :
    VmInv kept own' s' ∧ Mapped own own' s s' r v p := by
  have M : Mapped own own' s s' r v p := by
    refine ⟨fun u => ⟨hc.roots, hc.keep⟩, hc.space, fun hm => ?_, ?_, hc.rest⟩
    · exact hc.pages (H.inv.mapped hm).1 (H.inv.mapped hm).2
    · exact hc.pages (.inr (.inr rfl)) (H.inv.tables.not_table_of_kept (.inr rfl))
  have T' := T.keptCongr (K := kept) fun q =>
    ⟨fun hq => ⟨.inl hq, fun h => H.new (h ▸ hq)⟩, fun ⟨hq, hqp⟩ => hq.resolve_right hqp⟩
  refine ⟨⟨T', ?_, ?_, ?_⟩, M⟩
  · rw [hc.space, hc.rest.cow, rootOf_congr hc.rest.list]
    exact H.inv.sharing.mapFresh hfree (H.inv.fresh_of_none H.own_none)
  · intro pid u hu
    rw [rootOf_congr hc.rest.list] at hu
    exact hc.keep (H.inv.root hu)
  · intro pid hp
    rw [hc.rest.list] at hp
    rw [hc.rest.counter]
    exact H.inv.counter hp

theorem Holds.wp_mapPage (H : Holds kept own s p) (hr : IsRoot paging own r)
    (hv : paging.InRange v) (hfree : space own s.memory r v = none) {Q : Bool → Kernel → Prop}
    (hQ : ∀ own' s', VmInv kept own' s' → Mapped own own' s s' r v p → Q true s') :
    wp OutOfMemory (ArchMemory.mapPage r v p 1) Q s := by
  refine wp_mapPage_new H.inv.tables hr hv hfree (.inr rfl) H.ne_zero rfl fun own' s' T hc => ?_
  obtain ⟨V, M⟩ := H.mapped hfree T hc
  exact hQ own' s' V M

theorem Mapped.acts (M : Mapped own own' s s' pr.page_map_level_4_ v p) (V : VmInv kept own' s')
    (hpr : s.process_list_ proc = some pr)
    (hfree : KPanic.space own s.memory pr.page_map_level_4_ v = none) :
    Acts kept own own' s s' proc pr ((absProc own s pr).map v (s.memory p)) D where
  inv := V
  roots := M.roots
  list := by
    rw [M.rest.list]
    exact (update_eq_self proc _).symm.trans (by rw [hpr]; rfl)
  page := by
    funext u
    show _ = update (KPanic.pageAt own s pr.page_map_level_4_) v (some (s.memory p)) u
    rw [M.pageAt]
    by_cases hu : u = v
    · rw [if_pos ⟨rfl, hu⟩, hu, update_self]
    · rw [if_neg fun h => hu h.2, update_of_ne hu]
  others r' hr' := by
    funext u
    rw [M.pageAt, if_neg fun h => hr' h.1]
  phys {r' u c b} hm _ := by
    refine ⟨b, ?_⟩
    rw [M.space, setAt_of_ne, hm]
    rintro ⟨rfl, rfl⟩
    rw [hfree] at hm
    cases hm
  counter := M.rest.counter
  total := M.rest.total

end KPanic
