import KPanic.Arch.MapPage

/-!
# New tables and new mappings

`Change kept r v own own' s s' sp` is what the functions that extend the tree at `r` for the page `v`
leave behind: nothing is lost, the contents of pages stay, and the trees now map `sp`.
-/

namespace KPanic

open BitField (Word)
open Function
open PageTree
open CopyOnWrite
open Wp

variable {users kept : ℕ → Prop} {own own' own'' : Own} {s s' s'' : Kernel} {t c r l x i p v : ℕ} {w : Word}

/-- Only memory and the usage table differ. -/
structure SameRest (s s' : Kernel) : Prop where
  kernel : s'.kernel_page_map_level_4 = s.kernel_page_map_level_4
  cow : s'.cow_map_ = s.cow_map_
  list : s'.process_list_ = s.process_list_
  counter : s'.pid_counter_ = s.pid_counter_
  total : s'.pm.number_of_pages_ = s.pm.number_of_pages_

theorem SameRest.refl (s : Kernel) : SameRest s s := ⟨rfl, rfl, rfl, rfl, rfl⟩

theorem SameRest.trans (h : SameRest s s') (h' : SameRest s' s'') : SameRest s s'' :=
  ⟨h'.kernel.trans h.kernel, h'.cow.trans h.cow, h'.list.trans h.list,
    h'.counter.trans h.counter, h'.total.trans h.total⟩

structure Change (kept : ℕ → Prop) (r v : ℕ) (own own' : Own) (s s' : Kernel)
    (sp : ℕ → ℕ → Option (ℕ × Bool)) : Prop where
  keep : ∀ {u role}, own u = some role → own' u = some role
  roots : ∀ {u}, IsRoot paging own' u → IsRoot paging own u
  space : space own' s'.memory = sp
  pages : ∀ {q}, own q ≠ none ∨ kept q → ¬IsTable own q → s'.memory q = s.memory q
  other : ∀ {u r' l x}, own u = some (.table r' l x) → r' ≠ r → s'.memory u = s.memory u
  path : ∀ {u r' l x}, own' u = some (.table r' l x) →
    own u = some (.table r' l x) ∨ r' = r ∧ l < 4 ∧ x = v / PAGE_TABLE_ENTRIES ^ l
  half : ∀ {i}, PAGE_MAP_LEVEL_4_ENTRIES / 2 ≤ i → s'.memory r i = s.memory r i
  rest : SameRest s s'

/-- A change that maps nothing. -/
abbrev Grow (kept : ℕ → Prop) (r v : ℕ) (own own' : Own) (s s' : Kernel) : Prop :=
  Change kept r v own own' s s' (space own s.memory)

theorem Grow.refl : Grow kept r v own own s s where
  keep := id
  roots := id
  space := rfl
  pages _ _ := rfl
  other _ _ := rfl
  path := .inl
  half _ := rfl
  rest := SameRest.refl s

theorem Change.not_table {sp : ℕ → ℕ → Option (ℕ × Bool)} (h : Change kept r v own own' s s' sp)
    (T' : TablesOf users kept own' s') {q : ℕ} (hq : own q ≠ none ∨ kept q)
    (hn : ¬IsTable own q) : (own' q ≠ none ∨ kept q) ∧ ¬IsTable own' q := by
  cases ho : own q with
  | none =>
    have hk : kept q := hq.resolve_left fun h => h ho
    exact ⟨.inr hk, T'.not_table_of_kept hk⟩
  | some role =>
    rw [h.keep ho]
    refine ⟨.inl (Option.some_ne_none _), fun ⟨r', l', x', ht⟩ => ?_⟩
    rw [h.keep ho] at ht
    exact hn ⟨r', l', x', ho.trans ht⟩

theorem Grow.trans {sp : ℕ → ℕ → Option (ℕ × Bool)} (h : Grow kept r v own own' s s')
    (T' : TablesOf users kept own' s') (h' : Change kept r v own' own'' s' s'' sp) :
    Change kept r v own own'' s s'' sp where
  keep hu := h'.keep (h.keep hu)
  roots hu := h.roots (h'.roots hu)
  space := h'.space
  pages hq hn := by
    obtain ⟨hq', hn'⟩ := h.not_table T' hq hn
    rw [h'.pages hq' hn', h.pages hq hn]
  other hu hr := by rw [h'.other (h.keep hu) hr, h.other hu hr]
  path hu := (h'.path hu).elim h.path .inr
  half hi := (h'.half hi).trans (h.half hi)
  rest := h.rest.trans h'.rest

theorem Grow.trans' (h : Grow kept r v own own' s s') (T' : TablesOf users kept own' s')
    (h' : Grow kept r v own' own'' s' s'') : Grow kept r v own own'' s s'' := by
  have hc := h.trans T' h'
  rwa [h.space] at hc

theorem TablesOf.keptCongr (T : TablesOf users kept own s) {K : ℕ → Prop} (h : ∀ q, K q ↔ kept q) :
    TablesOf users K own s := by
  have heq : K = kept := funext fun q => propext (h q)
  rwa [heq]

/-! ### One more table -/

/-- The kernel after `allocPPN`. -/
def Kernel.alloc (s : Kernel) (p : ℕ) (pm : PageManager) : Kernel :=
  { s with pm := pm, memory := update s.memory p fun _ => 0 }

theorem Kernel.alloc_of_ne {pm : PageManager} {q : ℕ} (h : q ≠ p) :
    (s.alloc p pm).memory q = s.memory q := update_of_ne h _ _

theorem Kernel.alloc_self {pm : PageManager} : (s.alloc p pm).memory p = fun _ => 0 :=
  update_self _ _ _

/-- What `allocPPN` leaves, in the terms of `Tables`. -/
theorem wp_allocPPN_tables (T : TablesOf users kept own s) {Q : ℕ → Kernel → Prop}
    (hQ : ∀ p pm, ¬(own p ≠ none ∨ kept p) → pm.number_of_pages_ = s.pm.number_of_pages_ →
      TablesOf users (fun q => kept q ∨ q = p) own (s.alloc p pm) → Q p (s.alloc p pm)) :
    wp OutOfMemory (allocPPN PAGE_SIZE) Q s :=
  wp_allocPPN T.pm fun p pm hp hn hpm => hQ p pm hp hn (T.alloc hp hpm)

/-- An empty table maps nothing. -/
theorem space_newTable (T : Tree paging (link s.memory) own)
    (T' : Tree paging (link s'.memory) own') (hl : l ≠ 1) (ht : own t = some (.table r l x))
    (hown : ∀ {u r l x}, own' u = some (.table r l x) →
      own u = some (.table r l x) ∨ ∀ j, s'.memory u j = 0)
    (hkeep : ∀ {u role}, own u = some role → own' u = some role)
    (hmem : ∀ {u r x}, own u = some (.table r 1 x) → u ≠ t → s'.memory u = s.memory u) :
    space own' s'.memory = space own s.memory := by
  funext r' v'
  apply Option.ext
  intro y
  rw [space_iff T, space_iff T']
  have hne : ∀ {u r x}, own u = some (.table r 1 x) → u ≠ t := by
    rintro u r x hu rfl
    rw [hu] at ht
    cases ht
    exact hl rfl
  constructor
  · intro ⟨u, hu, hleaf⟩
    obtain hu | hzero := hown hu
    · exact ⟨u, hu, by rwa [hmem hu (hne hu)] at hleaf⟩
    · rw [hzero, leaf_none.mpr target_zero] at hleaf
      cases hleaf
  · intro ⟨u, hu, hleaf⟩
    exact ⟨u, hkeep hu, by rwa [hmem hu (hne hu)]⟩

theorem newTable (T : TablesOf users kept own s) (ht : own t = some (.table r (l + 1) x)) (hl : 1 ≤ l)
    (hi : i < paging.width (l + 1)) (hx : x * PAGE_TABLE_ENTRIES + i = v / PAGE_TABLE_ENTRIES ^ l)
    (hfree : link s.memory t i = none) {pm : PageManager}
    (hp : ¬(own p ≠ none ∨ kept p)) (hn : pm.number_of_pages_ = s.pm.number_of_pages_)
    (T1 : TablesOf users (fun q => kept q ∨ q = p) own (s.alloc p pm))
    (hw : EntryOk users (l + 1) w) (hwp : target w = some p) :
    TablesOf users kept (update own p (some (.table r l (x * PAGE_TABLE_ENTRIES + i))))
      ((s.alloc p pm).setEntry t i w) ∧
    Grow kept r v own (update own p (some (.table r l (x * PAGE_TABLE_ENTRIES + i)))) s
      ((s.alloc p pm).setEntry t i w) ∧
    ∀ j, ((s.alloc p pm).setEntry t i w).memory p j = 0 := by
  have hnone : own p = none := by_contra fun h => hp (.inl h)
  have hne : ∀ {u role}, own u = some role → u ≠ p := by
    rintro u role hu rfl
    rw [hnone] at hu
    cases hu
  have hpt : p ≠ t := (hne ht).symm
  have hp0 : p ≠ 0 := by
    rintro rfl
    exact hp (.inr T.zero)
  have hzero : ∀ j, ((s.alloc p pm).setEntry t i w).memory p j = 0 := by
    intro j
    rw [Kernel.setEntry_page hpt, Kernel.alloc_self]
  have hrole : childRole paging r (l + 1) x i =
      .table r l (x * PAGE_TABLE_ENTRIES + i) := childRole_of_ne paging r x i (by omega)
  have hlink : link (s.alloc p pm).memory t i = none := by
    rw [link, Kernel.alloc_of_ne hpt.symm]
    exact hfree
  have T2 := T1.attach ht hi hlink (.inr rfl) hp0 hw hwp
    (fun _ j => congrFun Kernel.alloc_self j)
  rw [hrole] at T2
  have T3 := T2.keptCongr (K := kept) fun q =>
    ⟨fun hq => ⟨.inl hq, fun h => hp (.inr (h ▸ hq))⟩, fun hq => hq.1.resolve_right hq.2⟩
  have hkeep : ∀ {u role}, own u = some role →
      update own p (some (.table r l (x * PAGE_TABLE_ENTRIES + i))) u = some role :=
    fun hu => by rwa [update_of_ne (hne hu)]
  refine ⟨T3, ?_, hzero⟩
  constructor
  · exact hkeep
  · intro u hu
    by_cases hup : u = p
    · have hlev := (T.tree.level ht).2
      rw [paging_H] at hlev
      rw [IsRoot, hup, update_self] at hu
      injection hu with hu
      injection hu with _ hlevel _
      rw [paging_H] at hlevel
      omega
    · rwa [IsRoot, update_of_ne hup] at hu
  · refine space_newTable T.tree T3.tree (t := t) (by omega) ht ?_ hkeep ?_
    · intro u r' l' x' hu
      by_cases hup : u = p
      · exact .inr fun j => by rw [hup]; exact hzero j
      · rw [update_of_ne hup] at hu
        exact .inl hu
    · intro u r' x' hu hut
      rw [Kernel.setEntry_page hut, Kernel.alloc_of_ne (hne hu)]
  · intro q hq hnot
    have hqt : q ≠ t := by
      rintro rfl
      exact hnot ⟨r, l + 1, x, ht⟩
    have hqp : q ≠ p := by
      rintro rfl
      exact hp hq
    rw [Kernel.setEntry_page hqt, Kernel.alloc_of_ne hqp]
  · intro u r' l' x' hu hr
    have hut : u ≠ t := by
      rintro rfl
      rw [ht] at hu
      cases hu
      exact hr rfl
    rw [Kernel.setEntry_page hut, Kernel.alloc_of_ne (hne hu)]
  · intro u r' l' x' hu
    by_cases hup : u = p
    · have hlev := (T.tree.level ht).2
      rw [paging_H] at hlev
      rw [hup, update_self] at hu
      injection hu with hu
      injection hu with hr hl' hx'
      exact .inr ⟨hr.symm, by omega, by rw [← hx', ← hl', hx]⟩
    · rw [update_of_ne hup] at hu
      exact .inl hu
  · intro j hj
    have hroot : own r = some (.table r 4 0) := T.tree.isRoot_of_table ht
    rw [Kernel.setEntry_of_ne, Kernel.alloc_of_ne (hne hroot)]
    rintro ⟨rfl, rfl⟩
    rw [hroot] at ht
    injection ht with ht
    injection ht with _ hlevel _
    rw [← hlevel] at hi
    exact absurd hi (Nat.not_lt.mpr hj)
  · exact ⟨rfl, rfl, rfl, rfl, hn⟩

/-- Where the walk of `v` finds its table at level `l`. -/
abbrev placeOf (r l v : ℕ) : Role ℕ := .table r l (v / PAGE_TABLE_ENTRIES ^ l)

/-- What `tableFor` and `tableCopyFor` have in common: a table that is there is returned; else a
new one is allocated and `enter` writes an entry for it. -/
theorem wp_newTable (T : TablesOf users kept own s) (hv : paging.InRange v) (hl : 1 ≤ l)
    (ht : own t = some (placeOf r (l + 1) v)) (hfree : link s.memory t (paging.slot v (l + 1)) = none)
    {enter : ℕ → Kern ℕ} {Q : ℕ → Kernel → Prop}
    (henter : ∀ p pm, ¬(own p ≠ none ∨ kept p) → TablesOf users (fun q => kept q ∨ q = p) own (s.alloc p pm) →
      ∃ w, EntryOk users (l + 1) w ∧ target w = some p ∧
        (Q p ((s.alloc p pm).setEntry t (paging.slot v (l + 1)) w) →
          wp OutOfMemory (enter p) Q (s.alloc p pm)))
    (hQ : ∀ c own' s', TablesOf users kept own' s' → Grow kept r v own own' s s' →
      own' c = some (placeOf r l v) → (∀ j, s'.memory c j = 0) → Q c s') :
    wp OutOfMemory (allocPPN PAGE_SIZE >>= enter) Q s := by
  rw [wp_bind]
  refine wp_allocPPN_tables T fun p pm hp hn T1 => ?_
  obtain ⟨w, hw, hwp, hwrite⟩ := henter p pm hp T1
  have hidx := paging.index_step v (l := l + 1) (by omega)
  rw [paging_B] at hidx
  obtain ⟨T2, hgrow, hzero⟩ := newTable T ht hl (paging.slot_lt hv) hidx hfree hp hn T1 hw hwp
  refine hwrite (hQ p _ _ T2 hgrow ?_ hzero)
  rw [update_self, hidx]
  rfl

theorem wp_tableFor_new (T : TablesOf users kept own s) (hv : paging.InRange v) (hl : 1 ≤ l)
    (ht : own t = some (placeOf r (l + 1) v)) (hfree : link s.memory t (paging.slot v (l + 1)) = none)
    {Q : ℕ → Kernel → Prop}
    (hQ : ∀ c own' s', TablesOf users kept own' s' → Grow kept r v own own' s s' →
      own' c = some (placeOf r l v) → (∀ j, s'.memory c j = 0) → Q c s') :
    wp OutOfMemory (ArchMemory.tableFor t (paging.slot v (l + 1)) 0) Q s := by
  unfold ArchMemory.tableFor
  rw [if_neg (not_not_intro rfl)]
  refine wp_newTable T hv hl ht hfree (fun p pm hp T1 => ?_) hQ
  have hlt := T1.ppn_lt (.inr (.inr rfl))
  have hpt : t ≠ p := by
    rintro rfl
    exact hp (.inl (by rw [ht]; exact Option.some_ne_none _))
  have hold : s.memory t (paging.slot v (l + 1)) = 0 := by
    refine (T.words ht (paging.slot_lt hv)).zero ?_
    by_contra hpres
    rw [link, target_of_present hpres] at hfree
    cases hfree
  obtain ⟨hok, hleaf⟩ : EntryOk users (l + 1)
      (insertWord ((s.alloc p pm).memory t (paging.slot v (l + 1))) p 0 1 1) ∧ _ :=
    insertWord_ok hlt (fun _ => rfl) fun h => by omega
  refine ⟨_, hok, target_of_leaf hleaf, fun hq => ?_⟩
  rw [wp_bind]
  refine wp_insert (T.ne_zero ht) (fun _ => ⟨?_, Kernel.alloc_self⟩) ((wp_pure p).mpr hq)
  rw [Kernel.alloc_of_ne hpt, hold]

theorem wp_tableCopyFor_new (T : TablesOf users kept own s) (hv : paging.InRange v) (hl : 1 ≤ l)
    (ht : own t = some (placeOf r (l + 1) v)) (hfree : link s.memory t (paging.slot v (l + 1)) = none)
    {old r' x' oldi : ℕ} (hold : own old = some (.table r' (l + 1) x'))
    (hoi : oldi < paging.width (l + 1)) (hpres : present.get (s.memory old oldi) ≠ 0)
    {Q : ℕ → Kernel → Prop}
    (hQ : ∀ c own' s', TablesOf users kept own' s' → Grow kept r v own own' s s' →
      own' c = some (placeOf r l v) → (∀ j, s'.memory c j = 0) → Q c s') :
    wp OutOfMemory (ArchMemory.tableCopyFor t (paging.slot v (l + 1)) 0 old oldi) Q s := by
  unfold ArchMemory.tableCopyFor
  rw [if_neg (not_not_intro rfl)]
  refine wp_newTable T hv hl ht hfree (fun p pm hp T1 => ?_) hQ
  have hlt := T1.ppn_lt (.inr (.inr rfl))
  have hne : ∀ {u role}, own u = some role → u ≠ p := by
    rintro u role hu rfl
    exact hp (.inl (by rw [hu]; exact Option.some_ne_none _))
  have hfreeword : s.memory t (paging.slot v (l + 1)) = 0 := by
    refine (T.words ht (paging.slot_lt hv)).zero ?_
    by_contra hpres'
    rw [link, target_of_present hpres'] at hfree
    cases hfree
  have hword : (s.alloc p pm).memory old oldi = s.memory old oldi := by
    rw [Kernel.alloc_of_ne (hne hold)]
  obtain ⟨hok, hleaf⟩ := copyWord_ok hlt (T.words hold hoi) hpres (k := 1) (by decide)
    (fun _ => rfl)
  refine ⟨_, hok, target_of_leaf hleaf, fun hq => ?_⟩
  rw [wp_bind, wp_entry, hword, wp_bind]
  refine wp_insertCopy (T.ne_zero ht) (fun _ => ⟨?_, Kernel.alloc_self⟩) ((wp_pure p).mpr hq)
  rw [Kernel.alloc_of_ne (hne ht), hfreeword]

/-! ### Down to the page table -/

/-- The three levels above the page table: `f l` finds or makes the table at level `l`. -/
theorem wp_descend (T : TablesOf users kept own s) (hr : IsRoot paging own r) (hv : paging.InRange v)
    {f : ℕ → ℕ → Kern ℕ} {k : ℕ → Kern Bool} {Q : Bool → Kernel → Prop}
    (hold : ∀ l t s' Q', walk paging (link s.memory) r v (4 - l) = some t → l ≤ 3 → 1 ≤ l →
      Q' t s' → ∀ map, wp OutOfMemory (f l map) Q' s')
    (hnew : ∀ l own' s' map Q', walk paging (link s.memory) r v (4 - l) = none → l ≤ 3 → 1 ≤ l →
      TablesOf users kept own' s' → Grow kept r v own own' s s' → own' map = some (placeOf r (l + 1) v) →
      link s'.memory map (paging.slot v (l + 1)) = none →
      (∀ c own'' s'', TablesOf users kept own'' s'' → Grow kept r v own' own'' s' s'' →
        own'' c = some (placeOf r l v) → (∀ j, s''.memory c j = 0) → Q' c s'') →
      wp OutOfMemory (f l map) Q' s')
    (hk : ∀ pt own' s', TablesOf users kept own' s' → Grow kept r v own own' s s' →
      own' pt = some (placeOf r 1 v) → wp OutOfMemory (k pt) Q s') :
    wp OutOfMemory (do
      let a ← f 3 r
      let b ← f 2 a
      let c ← f 1 b
      k c) Q s := by
  have w0 : walk paging (link s.memory) r v 0 = some r := rfl
  have hplace : ∀ {k t}, k < 4 → walk paging (link s.memory) r v k = some t →
      own t = some (placeOf r (4 - k) v) := fun hk hw => T.tree.walk_own hr hv hk hw
  have fromTwo : ∀ c own' s', TablesOf users kept own' s' → Grow kept r v own own' s s' →
      own' c = some (placeOf r 2 v) → link s'.memory c (paging.slot v 2) = none →
      walk paging (link s.memory) r v 3 = none → wp OutOfMemory (f 1 c >>= k) Q s' := by
    intro c own' s' T' hg hc hfree hw
    rw [wp_bind]
    refine hnew 1 own' s' c _ hw (by decide) (by decide) T' hg hc hfree ?_
    intro d own'' s'' T'' hg' hd _
    exact hk d own'' s'' T'' (hg.trans' T' hg') hd
  have fromThree : ∀ c own' s', TablesOf users kept own' s' → Grow kept r v own own' s s' →
      own' c = some (placeOf r 3 v) → link s'.memory c (paging.slot v 3) = none →
      walk paging (link s.memory) r v 2 = none →
      wp OutOfMemory (f 2 c >>= fun b => f 1 b >>= k) Q s' := by
    intro c own' s' T' hg hc hfree hw
    rw [wp_bind]
    refine hnew 2 own' s' c _ hw (by decide) (by decide) T' hg hc hfree ?_
    intro d own'' s'' T'' hg' hd hzero
    refine fromTwo d own'' s'' T'' (hg.trans' T' hg') hd ?_ (walk_none hw)
    rw [link, hzero, target_zero]
  rw [wp_bind]
  cases w1 : walk paging (link s.memory) r v 1 with
  | none =>
    refine hnew 3 own s r _ w1 (by decide) (by decide) T Grow.refl (hplace (by decide) w0) ?_ ?_
    · rw [walk_step w0] at w1
      exact w1
    · intro c own' s' T' hg hc hzero
      refine fromThree c own' s' T' hg hc ?_ (walk_none w1)
      rw [link, hzero, target_zero]
  | some t1 =>
    refine hold 3 t1 s _ w1 (by decide) (by decide) ?_ r
    cases w2 : walk paging (link s.memory) r v 2 with
    | none =>
      refine fromThree t1 own s T Grow.refl (hplace (by decide) w1) ?_ w2
      rw [walk_step w1] at w2
      exact w2
    | some t2 =>
      rw [wp_bind]
      refine hold 2 t2 s _ w2 (by decide) (by decide) ?_ t1
      cases w3 : walk paging (link s.memory) r v 3 with
      | none =>
        refine fromTwo t2 own s T Grow.refl (hplace (by decide) w2) ?_ w3
        rw [walk_step w2] at w3
        exact w3
      | some t3 =>
        rw [wp_bind]
        refine hold 1 t3 s _ w3 (by decide) (by decide) ?_ t2
        exact hk t3 own s T Grow.refl (hplace (by decide) w3)

/-- The number that `resolveMapping` gives for the table at level `l`. -/
def tableAt (memory : ℕ → Page) (r v l : ℕ) : ℕ :=
  (walk paging (link memory) r v (4 - l)).getD 0

theorem tableAt_ne_zero (T : TablesOf users kept own s) (hr : IsRoot paging own r) (hv : paging.InRange v)
    (hl : 1 ≤ l) (h : walk paging (link s.memory) r v (4 - l) = some t) :
    tableAt s.memory r v l = t ∧ t ≠ 0 := by
  have hown := T.tree.walk_own hr hv (k := 4 - l) (by rw [paging_H]; omega) h
  exact ⟨by rw [tableAt, h]; rfl, T.ne_zero hown⟩

/-- `mapPage`, up to the entry of the page table. -/
theorem wp_tablesFor (T : TablesOf users kept own s) (hr : IsRoot paging own r) (hv : paging.InRange v)
    {k : ℕ → Kern Bool} {Q : Bool → Kernel → Prop}
    (hk : ∀ pt own' s', TablesOf users kept own' s' → Grow kept r v own own' s s' →
      own' pt = some (placeOf r 1 v) → wp OutOfMemory (k pt) Q s') :
    wp OutOfMemory (do
      let a ← ArchMemory.tableFor r (paging.slot v 4) (tableAt s.memory r v 3)
      let b ← ArchMemory.tableFor a (paging.slot v 3) (tableAt s.memory r v 2)
      let c ← ArchMemory.tableFor b (paging.slot v 2) (tableAt s.memory r v 1)
      k c) Q s := by
  refine wp_descend T hr hv
    (f := fun l map => ArchMemory.tableFor map (paging.slot v (l + 1)) (tableAt s.memory r v l))
    ?_ ?_ hk
  · intro l t s' Q' hw _ hl hq map
    obtain ⟨heq, hne⟩ := tableAt_ne_zero T hr hv hl hw
    rw [heq, ArchMemory.tableFor, if_pos hne, wp_pure]
    exact hq
  · intro l own' s' map Q' hw _ hl T' _ hmap hfree hq
    have hzero : tableAt s.memory r v l = 0 := by rw [tableAt, hw]; rfl
    rw [hzero]
    exact wp_tableFor_new T' hv hl hmap hfree hq

/-- A full walk in one tree gives the entries on its path. -/
theorem tables_of_walk {memory : ℕ → Page} (T : Tree paging (link memory) own) {ro : ℕ}
    (hro : IsRoot paging own ro) (hv : paging.InRange v) (hmapped : space own memory ro v ≠ none)
    (hl : 1 ≤ l) (hl' : l ≤ 4) :
    own (tableAt memory ro v l) = some (placeOf ro l v) ∧
      present.get (memory (tableAt memory ro v l) (paging.slot v l)) ≠ 0 := by
  have hsome : ∀ k ≤ 4, walk paging (link memory) ro v k ≠ none := by
    intro k hk hnone
    have hall : ∀ m, walk paging (link memory) ro v (k + m) = none := by
      intro m
      induction m with
      | zero => exact hnone
      | succ m ih => exact walk_none ih
    have h4 := hall (4 - k)
    rw [Nat.add_sub_cancel' hk, walk_space hro hv, Option.map_eq_none_iff] at h4
    exact hmapped h4
  obtain ⟨t, ht⟩ := Option.ne_none_iff_exists'.mp (hsome (4 - l) (by omega))
  have hown := T.walk_own hro hv (k := 4 - l) (by rw [paging_H]; omega) ht
  have hlev : 4 - (4 - l) = l := by omega
  have htab : tableAt memory ro v l = t := by rw [tableAt, ht]; rfl
  rw [paging_H, hlev] at hown
  rw [htab]
  refine ⟨hown, fun hpres => ?_⟩
  have hnext := walk_step ht
  rw [hlev, target, if_pos hpres] at hnext
  exact hsome (4 - l + 1) (by omega) hnext

/-- `copyPageHierarchy`, up to the entry of the page table. -/
theorem wp_tablesCopyFor (T : TablesOf users kept own s) (hr : IsRoot paging own r)
    (hv : paging.InRange v) {ro : ℕ} (hro : IsRoot paging own ro) (hne : ro ≠ r)
    (hmapped : space own s.memory ro v ≠ none) {k : ℕ → Kern Bool} {Q : Bool → Kernel → Prop}
    (hk : ∀ pt own' s', TablesOf users kept own' s' → Grow kept r v own own' s s' →
      own' pt = some (placeOf r 1 v) → wp OutOfMemory (k pt) Q s') :
    wp OutOfMemory (do
      let a ← ArchMemory.tableCopyFor r (paging.slot v 4) (tableAt s.memory r v 3)
        (tableAt s.memory ro v 4) (paging.slot v 4)
      let b ← ArchMemory.tableCopyFor a (paging.slot v 3) (tableAt s.memory r v 2)
        (tableAt s.memory ro v 3) (paging.slot v 3)
      let c ← ArchMemory.tableCopyFor b (paging.slot v 2) (tableAt s.memory r v 1)
        (tableAt s.memory ro v 2) (paging.slot v 2)
      k c) Q s := by
  refine wp_descend T hr hv
    (f := fun l map => ArchMemory.tableCopyFor map (paging.slot v (l + 1))
      (tableAt s.memory r v l) (tableAt s.memory ro v (l + 1)) (paging.slot v (l + 1)))
    ?_ ?_ hk
  · intro l t s' Q' hw _ hl hq map
    obtain ⟨heq, hne⟩ := tableAt_ne_zero T hr hv hl hw
    rw [heq, ArchMemory.tableCopyFor, if_pos hne, wp_pure]
    exact hq
  · intro l own' s' map Q' hw hl3 hl T' hg hmap hfree hq
    have hzero : tableAt s.memory r v l = 0 := by rw [tableAt, hw]; rfl
    obtain ⟨hold, hpres⟩ := tables_of_walk T.tree hro hv hmapped (l := l + 1) (by omega) (by omega)
    rw [hzero]
    refine wp_tableCopyFor_new T' hv hl hmap hfree (hg.keep hold) (paging.slot_lt hv) ?_ hq
    rw [hg.other hold hne]
    exact hpres

/-! ### The entry of the page table -/

theorem slot_place : v / PAGE_TABLE_ENTRIES ^ 1 * PAGE_TABLE_ENTRIES + paging.slot v 1 = v := by
  rw [pow_one, slot_eq.1, Nat.div_add_mod']

theorem slot_one_lt : paging.slot v 1 < PAGE_TABLE_ENTRIES := by
  rw [slot_eq.1]
  exact Nat.mod_lt _ (by decide)

theorem link_of_space_none (T : TablesOf users kept own s) (ht : own t = some (placeOf r 1 v))
    (h : space own s.memory r v = none) : link s.memory t (paging.slot v 1) = none := by
  rw [slot_eq.1]
  rw [placeOf, pow_one] at ht
  rw [space_eq T.tree ht] at h
  exact leaf_none.mp h

/-- What setting an entry of the page table for `v` changes, beside the mapping. -/
theorem setEntry_change (T : TablesOf users kept own s) (ht : own t = some (placeOf r 1 v))
    (htree : Tree paging (link (s.setEntry t (paging.slot v 1) w).memory) own')
    (hkeep : ∀ {u role}, own u = some role → own' u = some role)
    (hown : ∀ {u r l x}, own' u = some (.table r l x) ↔ own u = some (.table r l x)) :
    Change kept r v own own' s (s.setEntry t (paging.slot v 1) w)
      (setAt (space own s.memory) r v (leaf w)) where
  keep := hkeep
  roots := hown.mp
  space := by
    have h := space_setAt (w := w) T.tree htree hown ht slot_one_lt rfl
    rwa [slot_place] at h
  pages {q} _ hnot := by
    refine Kernel.setEntry_page ?_
    rintro rfl
    exact hnot ⟨_, _, _, ht⟩
  other {u r' l x} hu hr := by
    refine Kernel.setEntry_page ?_
    rintro rfl
    rw [ht] at hu
    cases hu
    exact hr rfl
  path hu := .inl (hown.mp hu)
  half _ := by
    rw [Kernel.setEntry_page]
    rintro rfl
    rw [show own r = some (.table r 4 0) from T.tree.isRoot_of_table ht] at ht
    cases ht
  rest := ⟨rfl, rfl, rfl, rfl, rfl⟩

theorem attachPage (T : TablesOf users kept own s) (ht : own t = some (placeOf r 1 v))
    (hfree : space own s.memory r v = none) (hp : kept p) (hp0 : p ≠ 0) (hw : EntryOk users 1 w)
    {b : Bool} (hleaf : leaf w = some (p, b)) :
    TablesOf users (fun q => kept q ∧ q ≠ p) (update own p (some (.leaf v)))
      (s.setEntry t (paging.slot v 1) w) ∧
    Change kept r v own (update own p (some (.leaf v))) s (s.setEntry t (paging.slot v 1) w)
      (setAt (space own s.memory) r v (some (p, b))) := by
  have hnone := T.apart hp
  have T' := T.attach ht slot_one_lt (link_of_space_none T ht hfree) hp hp0 hw
    (target_of_leaf hleaf) fun h => absurd rfl h
  rw [childRole_one, paging_B, slot_place] at T'
  refine ⟨T', ?_⟩
  rw [← hleaf]
  refine setEntry_change T ht T'.tree ?_ ?_
  · intro u role hu
    rwa [update_of_ne]
    rintro rfl
    rw [hnone] at hu
    cases hu
  · intro u r' l' x'
    by_cases hup : u = p
    · subst hup
      rw [update_self, hnone]
      constructor
      · intro h
        cases h
      · intro h
        cases h
    · rw [update_of_ne hup]

theorem sharePage (T : TablesOf users kept own s) (ht : own t = some (placeOf r 1 v))
    (hfree : space own s.memory r v = none) (hp : own p = some (.leaf v)) (hw : EntryOk users 1 w)
    {b : Bool} (hleaf : leaf w = some (p, b)) :
    TablesOf users kept own (s.setEntry t (paging.slot v 1) w) ∧
    Change kept r v own own s (s.setEntry t (paging.slot v 1) w)
      (setAt (space own s.memory) r v (some (p, b))) := by
  have T' := T.share ht slot_one_lt (link_of_space_none T ht hfree) (by rwa [slot_place]) hw
    (target_of_leaf hleaf)
  refine ⟨T', ?_⟩
  rw [← hleaf]
  exact setEntry_change T ht T'.tree id Iff.rfl

/-- Set the writeable bit of an entry. -/
theorem flagPage (T : TablesOf users kept own s) (ht : own t = some (placeOf r 1 v)) {n : ℕ} {b : Bool}
    (hleaf : leaf (s.memory t (paging.slot v 1)) = some (p, b)) (hn : n < 2) :
    TablesOf users kept own (s.setEntry t (paging.slot v 1)
      (writeable.put (s.memory t (paging.slot v 1)) n)) ∧
    Change kept r v own own s (s.setEntry t (paging.slot v 1)
      (writeable.put (s.memory t (paging.slot v 1)) n))
      (setAt (space own s.memory) r v (some (p, decide (n = 1)))) := by
  obtain ⟨hok, hleaf'⟩ := flagWord_ok (T.words ht (l := 1) slot_one_lt) hleaf hn
  have htarget : target (writeable.put (s.memory t (paging.slot v 1)) n) =
      link s.memory t (paging.slot v 1) := by
    rw [link, target_of_leaf hleaf, target_of_leaf hleaf']
  have T' := T.reflag ht hok htarget
  refine ⟨T', ?_⟩
  rw [← hleaf']
  exact setEntry_change T ht T'.tree id Iff.rfl

/-- The entry that maps `p`. -/
theorem entry_of_space (T : TablesOf users kept own s) (hr : IsRoot paging own r) (hv : paging.InRange v)
    {b : Bool} (hm : space own s.memory r v = some (p, b)) :
    own (tableAt s.memory r v 1) = some (placeOf r 1 v) ∧
      leaf (s.memory (tableAt s.memory r v 1) (paging.slot v 1)) = some (p, b) := by
  obtain ⟨hown, -⟩ := tables_of_walk T.tree hr hv (by rw [hm]; exact Option.some_ne_none _)
    (l := 1) (by decide) (by decide)
  refine ⟨hown, ?_⟩
  have hplace := hown
  rw [placeOf, pow_one] at hplace
  rw [slot_eq.1, ← space_eq T.tree hplace, hm]

/-- Point an entry to a new page, with permission to write, instead of one that another tree
maps. The flags come from writing the two fields in turn. -/
theorem movePage (T : TablesOf users kept own s) (ht : own t = some (placeOf r 1 v)) {b b' : Bool}
    (hleaf : leaf (s.memory t (paging.slot v 1)) = some (p, b)) {ro : ℕ} (hne : ro ≠ r)
    (hother : space own s.memory ro v = some (p, b')) (hc : kept c) (hc0 : c ≠ 0) :
    TablesOf users (fun q => kept q ∧ q ≠ c) (update own c (some (.leaf v)))
      (s.setEntry t (paging.slot v 1) (copyWord (s.memory t (paging.slot v 1)) c 1)) ∧
    Change kept r v own (update own c (some (.leaf v))) s
      (s.setEntry t (paging.slot v 1) (copyWord (s.memory t (paging.slot v 1)) c 1))
      (setAt (space own s.memory) r v (some (c, true))) := by
  have hpres : present.get (s.memory t (paging.slot v 1)) ≠ 0 := by
    intro h
    rw [leaf, if_pos h] at hleaf
    cases hleaf
  obtain ⟨hok, hleaf'⟩ := copyWord_ok (T.ppn_lt (.inr hc)) (T.words ht (l := 1) slot_one_lt) hpres
    (k := 1) (by decide) fun _ => rfl
  obtain ⟨u, hu, hul⟩ := (space_iff T.tree).mp hother
  have hut : u ≠ t := by
    rintro rfl
    rw [ht] at hu
    cases hu
    exact hne rfl
  have hnone := T.apart hc
  have T' := T.replace ht slot_one_lt (target_of_leaf hleaf) hu (Nat.mod_lt _ (by decide))
    (target_of_leaf hul) (fun h => hut h.1) hc hc0 hok (target_of_leaf hleaf')
  rw [slot_place] at T'
  refine ⟨T', ?_⟩
  have hleaf'' : leaf (copyWord (s.memory t (paging.slot v 1)) c 1) = some (c, true) := hleaf'
  rw [← hleaf'']
  refine setEntry_change T ht T'.tree ?_ ?_
  · intro w role hw
    rwa [update_of_ne]
    rintro rfl
    rw [hnone] at hw
    cases hw
  · intro w r' l' x'
    by_cases hwc : w = c
    · subst hwc
      rw [update_self, hnone]
      constructor
      · intro h
        cases h
      · intro h
        cases h
    · rw [update_of_ne hwc]

/-! ### `mapPage` -/

theorem wp_mapPage_new (T : TablesOf users kept own s) (hr : IsRoot paging own r) (hv : paging.InRange v)
    (hfree : space own s.memory r v = none) (hp : kept p) (hp0 : p ≠ 0) {user : ℕ}
    (huser : users (user % 2)) {Q : Bool → Kernel → Prop}
    (hQ : ∀ own' s', TablesOf users (fun q => kept q ∧ q ≠ p) own' s' →
      Change kept r v own own' s s' (setAt (space own s.memory) r v (some (p, true))) → Q true s') :
    wp OutOfMemory (ArchMemory.mapPage r v p user) Q s := by
  have hw4 : walk paging (link s.memory) r v 4 = none := by rw [walk_space hr hv, hfree]; rfl
  unfold ArchMemory.mapPage
  rw [wp_bind]
  refine wp_resolveMapping T hr hv ?_
  rw [wp_bind]
  refine wp_assert (.inl (by simp [mappingAt, hw4])) ?_
  refine wp_tablesFor T hr hv fun pt own' s' T' hg hpt => ?_
  have hppn : (mappingAt s.memory r v).page_ppn = 0 := by simp [mappingAt, hw4]
  rw [if_pos hppn]
  obtain ⟨hok, hleaf⟩ : EntryOk users 1 (insertWord (s'.memory pt (paging.slot v 1)) p 0 user 1) ∧ _ :=
    insertWord_ok (T'.ppn_lt (.inr hp)) (fun h => absurd rfl h) fun _ => huser
  refine wp_insert (T'.ne_zero hpt) (fun h => by cases h) ?_
  obtain ⟨T'', hc⟩ := attachPage T' hpt (by rw [hg.space]; exact hfree) hp hp0 hok hleaf
  have hchange := hg.trans T' hc
  rw [hg.space] at hchange
  exact hQ _ _ T'' hchange

theorem wp_tableFor_old {allowed : Panic → Prop} {m index ppn : ℕ} (h : ppn ≠ 0) {Q : ℕ → Kernel → Prop} (hQ : Q ppn s) :
    wp allowed (ArchMemory.tableFor m index ppn) Q s := by
  rw [ArchMemory.tableFor, if_pos h, wp_pure]
  exact hQ

theorem wp_mapPage_old (T : TablesOf users kept own s) (hr : IsRoot paging own r) (hv : paging.InRange v)
    (hmapped : space own s.memory r v ≠ none) {allowed : Panic → Prop} {user : ℕ} {Q : Bool → Kernel → Prop} (hQ : Q false s) :
    wp allowed (ArchMemory.mapPage r v p user) Q s := by
  obtain ⟨⟨q, b⟩, hq⟩ := Option.ne_none_iff_exists'.mp hmapped
  have hw4 : walk paging (link s.memory) r v 4 = some q := by rw [walk_space hr hv, hq]; rfl
  have hne : ∀ l, 1 ≤ l → l ≤ 4 → tableAt s.memory r v l ≠ 0 :=
    fun l h1 h4 => T.ne_zero (tables_of_walk T.tree hr hv hmapped h1 h4).1
  unfold ArchMemory.mapPage
  rw [wp_bind]
  refine wp_resolveMapping T hr hv ?_
  rw [wp_bind]
  refine wp_assert (.inr (by simp [mappingAt, hw4])) ?_
  rw [wp_bind]
  refine wp_tableFor_old (hne 3 (by decide) (by decide)) ?_
  rw [wp_bind]
  refine wp_tableFor_old (hne 2 (by decide) (by decide)) ?_
  rw [wp_bind]
  refine wp_tableFor_old (hne 1 (by decide) (by decide)) ?_
  have hppn : (mappingAt s.memory r v).page_ppn = q := by simp [mappingAt, hw4]
  rw [if_neg (by rw [hppn]; exact T.ne_zero (space_own T.tree hq)), wp_pure]
  exact hQ

/-! ### `copyPageHierarchy` -/

/-- Up to the copy of the page table entry. -/
theorem wp_copyPageHierarchy (T : TablesOf users kept own s) (hr : IsRoot paging own r)
    (hv : paging.InRange v) {ro : ℕ} (hro : IsRoot paging own ro) (hne : ro ≠ r)
    (hmapped : space own s.memory ro v ≠ none) (hfree : space own s.memory r v = none) {wr : ℕ}
    {Q : Bool → Kernel → Prop}
    (hk : ∀ pt own' s' old, TablesOf users kept own' s' → Grow kept r v own own' s s' →
      own' pt = some (placeOf r 1 v) → EntryOk users 1 old → present.get old ≠ 0 →
      wp OutOfMemory (ArchMemory.insertCopy pt (paging.slot v 1) p wr old) Q s') :
    wp OutOfMemory (ArchMemory.copyPageHierarchy ro v p r wr) Q s := by
  have hw4 : walk paging (link s.memory) r v 4 = none := by rw [walk_space hr hv, hfree]; rfl
  unfold ArchMemory.copyPageHierarchy
  rw [wp_bind]
  refine wp_resolveMapping T hr hv ?_
  rw [wp_bind]
  refine wp_resolveMapping T hro hv ?_
  rw [wp_bind]
  refine wp_assert (.inl (by simp [mappingAt, hw4])) ?_
  refine wp_tablesCopyFor T hr hv hro hne hmapped fun pt own' s' T' hg hpt => ?_
  have hppn : (mappingAt s.memory r v).page_ppn = 0 := by simp [mappingAt, hw4]
  rw [if_pos hppn, wp_bind, wp_entry]
  obtain ⟨hold, hpres⟩ := tables_of_walk T.tree hro hv hmapped (l := 1) (by decide) (by decide)
  have hsame := hg.other hold hne
  have hok := T.words hold (paging.slot_lt hv)
  refine hk pt own' s' _ T' hg hpt ?_ ?_
  · show EntryOk users 1 (s'.memory (tableAt s.memory ro v 1) (paging.slot v 1))
    rw [hsame]
    exact hok
  · show present.get (s'.memory (tableAt s.memory ro v 1) (paging.slot v 1)) ≠ 0
    rw [hsame]
    exact hpres

/-- The eager copy: `p` is a new page. -/
theorem wp_copyPageHierarchy_new (T : TablesOf users kept own s) (hr : IsRoot paging own r)
    (hv : paging.InRange v) {ro : ℕ} (hro : IsRoot paging own ro) (hne : ro ≠ r)
    (hmapped : space own s.memory ro v ≠ none) (hfree : space own s.memory r v = none)
    (hp : kept p) (hp0 : p ≠ 0) (hzero : s.memory p = fun _ => 0) {Q : Bool → Kernel → Prop}
    (hQ : ∀ own' s', TablesOf users (fun q => kept q ∧ q ≠ p) own' s' →
      Change kept r v own own' s s' (setAt (space own s.memory) r v (some (p, true))) → Q true s') :
    wp OutOfMemory (ArchMemory.copyPageHierarchy ro v p r 1) Q s := by
  refine wp_copyPageHierarchy T hr hv hro hne hmapped hfree ?_
  intro pt own' s' old T' hg hpt hold hpres
  have hfree' : space own' s'.memory r v = none := by rw [hg.space]; exact hfree
  have hslot : s'.memory pt (paging.slot v 1) = 0 := by
    refine (T'.words hpt (paging.slot_lt hv)).zero ?_
    by_contra hpres'
    have hlink := link_of_space_none T' hpt hfree'
    rw [link, target_of_present hpres'] at hlink
    cases hlink
  have hpage : s'.memory p = fun _ => 0 := by
    rw [hg.pages (.inr hp) (T.not_table_of_kept hp), hzero]
  obtain ⟨hok, hleaf⟩ := copyWord_ok (T'.ppn_lt (.inr hp)) hold hpres (k := 1) (by decide)
    fun _ => rfl
  refine wp_insertCopy (T'.ne_zero hpt) (fun _ => ⟨hslot, hpage⟩) ?_
  obtain ⟨T'', hc⟩ := attachPage T' hpt hfree' hp hp0 hok hleaf
  have hchange := hg.trans T' hc
  rw [hg.space] at hchange
  exact hQ _ _ T'' hchange

/-- The copy for copy-on-write: `p` is the page of the other tree. -/
theorem wp_copyPageHierarchy_share (T : TablesOf users kept own s) (hr : IsRoot paging own r)
    (hv : paging.InRange v) {ro : ℕ} (hro : IsRoot paging own ro) (hne : ro ≠ r) {b : Bool}
    (hmapped : space own s.memory ro v = some (p, b)) (hfree : space own s.memory r v = none)
    {Q : Bool → Kernel → Prop}
    (hQ : ∀ own' s', TablesOf users kept own' s' →
      Change kept r v own own' s s' (setAt (space own s.memory) r v (some (p, false))) → Q true s') :
    wp OutOfMemory (ArchMemory.copyPageHierarchy ro v p r 0) Q s := by
  have hp := space_own T.tree hmapped
  refine wp_copyPageHierarchy T hr hv hro hne (by rw [hmapped]; exact Option.some_ne_none _) hfree ?_
  intro pt own' s' old T' hg hpt hold hpres
  have hp' := hg.keep hp
  obtain ⟨hok, hleaf⟩ := copyWord_ok
    (T'.ppn_lt (.inl (by rw [hp']; exact Option.some_ne_none _))) hold hpres
    (k := 0) (by decide) fun h => absurd rfl h
  refine wp_insertCopy (T'.ne_zero hpt) (fun h => absurd rfl h) ?_
  obtain ⟨T'', hc⟩ := sharePage T' hpt (by rw [hg.space]; exact hfree) hp' hok hleaf
  have hchange := hg.trans T' hc
  rw [hg.space] at hchange
  exact hQ _ _ T'' hchange

end KPanic
