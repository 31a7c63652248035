import KPanic.Arch.Tables

/-!
# What changes to memory do to the page tables

One lemma for each kind of change that the functions of `ArchMemory` and `COWManager` make.
-/

namespace KPanic

open BitField (Word)
open Function
open PageTree
open CopyOnWrite

variable {users kept kept' : ℕ → Prop} {own : Own} {s : Kernel} {t c r l x i : ℕ} {w : Word}

/-- The kernel with entry `i` of the table at `t` set to `w`. -/
def Kernel.setEntry (s : Kernel) (t i : ℕ) (w : Word) : Kernel :=
  { s with memory := update s.memory t (update (s.memory t) i w) }

/-- The kernel with the page `p` set to `f`. -/
def Kernel.setPage (s : Kernel) (p : ℕ) (f : Page) : Kernel :=
  { s with memory := update s.memory p f }

@[simp] theorem Kernel.setEntry_self : (s.setEntry t i w).memory t i = w := by
  simp [Kernel.setEntry]

theorem Kernel.setEntry_of_ne {u j : ℕ} (h : ¬(u = t ∧ j = i)) :
    (s.setEntry t i w).memory u j = s.memory u j := by
  simp only [Kernel.setEntry]
  by_cases hut : u = t
  · subst hut
    have hj : j ≠ i := fun hj => h ⟨rfl, hj⟩
    rw [update_self, update_of_ne hj]
  · rw [update_of_ne hut]

theorem Kernel.setEntry_page {u : ℕ} (h : u ≠ t) : (s.setEntry t i w).memory u = s.memory u :=
  update_of_ne h _ _

namespace TablesOf

theorem ne_zero (T : TablesOf users kept own s) {role : Role ℕ} (h : own t = some role) : t ≠ 0 := by
  rintro rfl
  rw [T.apart T.zero] at h
  cases h

theorem lt (T : TablesOf users kept own s) {role : Role ℕ} (h : own t = some role) :
    t < s.pm.number_of_pages_ :=
  T.pm.bound (.inl (by rw [h]; exact Option.some_ne_none _))

/-- Pages with a number that fits the field of an entry. -/
theorem ppn_lt (T : TablesOf users kept own s) {p : ℕ} (h : own p ≠ none ∨ kept p) :
    p < 2 ^ page_ppn.len :=
  Nat.lt_of_lt_of_le (T.pm.bound h) T.pm.few

/-- Only the pages in use and the tables matter. -/
theorem congr (T : TablesOf users kept own s) {memory : ℕ → Page}
    (hfree : ∀ p, own p = none → ¬kept p → memory p = s.memory p)
    (htab : ∀ {t r l x}, own t = some (.table r l x) → memory t = s.memory t) :
    TablesOf users kept own { s with memory := memory } where
  pm := T.pm.write fun p hp => hfree p (by_contra fun h => hp (.inl h)) fun h => hp (.inr h)
  zero := T.zero
  apart := T.apart
  tree := T.tree.congr fun ⟨_, _, _, ht⟩ j => by simp only [link, htab ht]
  words ht hi := by
    show EntryOk users _ (memory _ _)
    rw [htab ht]
    exact T.words ht hi

/-- Writing a page that is in use and not a table. -/
theorem setPage (T : TablesOf users kept own s) {p : ℕ} {f : Page} (hp : own p ≠ none ∨ kept p)
    (hnot : ¬IsTable own p) : TablesOf users kept own (s.setPage p f) := by
  refine T.congr (fun q hq hk => ?_) (fun {t r l x} ht => ?_)
  · refine update_of_ne ?_ _ _
    rintro rfl
    exact hp.elim (fun h => h hq) hk
  · refine update_of_ne ?_ _ _
    rintro rfl
    exact hnot ⟨r, l, x, ht⟩

theorem not_table_of_kept (T : TablesOf users kept own s) {p : ℕ} (hp : kept p) : ¬IsTable own p := by
  intro ⟨r, l, x, h⟩
  rw [T.apart hp] at h
  cases h

theorem not_table_of_leaf {p v : ℕ} (hp : own p = some (.leaf v)) : ¬IsTable own p := by
  intro ⟨r, l, x, h⟩
  rw [hp] at h
  cases h

/-- The kernel takes a free page. -/
theorem alloc (T : TablesOf users kept own s) {p : ℕ} {pm : PageManager} {f : Page}
    (hp : ¬(own p ≠ none ∨ kept p))
    (hpm : PmInv (fun q => (own q ≠ none ∨ kept q) ∨ q = p) pm (update s.memory p f)) :
    TablesOf users (fun q => kept q ∨ q = p) own { s with pm := pm, memory := update s.memory p f } := by
  have hnone : own p = none := by_contra fun h => hp (.inl h)
  have hne : ∀ {t r l x}, own t = some (.table r l x) → t ≠ p := by
    rintro t r l x ht rfl
    rw [hnone] at ht
    cases ht
  constructor
  · exact hpm.congr fun q => or_assoc.symm
  · exact .inl T.zero
  · intro q hq
    obtain hq | rfl := hq
    · exact T.apart hq
    · exact hnone
  · exact T.tree.congr fun ⟨_, _, _, ht⟩ j => by simp only [link, update_of_ne (hne ht)]
  · intro t r l x i ht hi
    show EntryOk users l (update s.memory p f t i)
    rw [update_of_ne (hne ht)]
    exact T.words ht hi

/-- The kernel gives back a page that it keeps. -/
theorem free (T : TablesOf users kept own s) {p : ℕ} {pm : PageManager} {f : Page} (hp : kept p)
    (hp0 : p ≠ 0)
    (hpm : PmInv (fun q => (own q ≠ none ∨ kept q) ∧ q ≠ p) pm (update s.memory p f)) :
    TablesOf users (fun q => kept q ∧ q ≠ p) own { s with pm := pm, memory := update s.memory p f } := by
  have hnone := T.apart hp
  have hne : ∀ {t r l x}, own t = some (.table r l x) → t ≠ p := by
    rintro t r l x ht rfl
    rw [hnone] at ht
    cases ht
  constructor
  · refine hpm.congr fun q => ?_
    constructor
    · intro hq
      obtain hq | hq := hq
      · exact ⟨.inl hq, fun hqp => hq (hqp ▸ hnone)⟩
      · exact ⟨.inr hq.1, hq.2⟩
    · intro ⟨hq, hqp⟩
      exact hq.imp_right fun hk => ⟨hk, hqp⟩
  · exact ⟨T.zero, hp0.symm⟩
  · exact fun hq => T.apart hq.1
  · exact T.tree.congr fun ⟨_, _, _, ht⟩ j => by simp only [link, update_of_ne (hne ht)]
  · intro t r l x i ht hi
    show EntryOk users l (update s.memory p f t i)
    rw [update_of_ne (hne ht)]
    exact T.words ht hi

/-- What setting an entry does to the links. -/
theorem setSlot (w : Word) (o : Option ℕ)
    (hw : target w = o) :
    SetSlot own (link s.memory) (link (s.setEntry t i w).memory) t i o where
  hit := by rw [link, Kernel.setEntry_self, hw]
  miss _ hmiss := by rw [link, link, Kernel.setEntry_of_ne hmiss]

/-- The parts of `Tables` that do not concern the trees, after an entry is set. -/
theorem setEntry (T : TablesOf users kept own s) {own' : Own} (ht : own t = some (.table r l x))
    (hw : EntryOk users l w) (htree : Tree paging (link (s.setEntry t i w).memory) own')
    (hheld : ∀ q, own' q ≠ none ∨ kept' q ↔ own q ≠ none ∨ kept q) (hzero : kept' 0)
    (hapart : ∀ {q}, kept' q → own' q = none)
    (hnew : ∀ {u r l x}, own' u = some (.table r l x) →
      own u = some (.table r l x) ∨ u ≠ t ∧ ∀ j, s.memory u j = 0) :
    TablesOf users kept' own' (s.setEntry t i w) where
  pm := by
    refine (T.pm.write fun q hq => ?_).congr hheld
    refine update_of_ne ?_ _ _
    rintro rfl
    exact hq (.inl (by rw [ht]; exact Option.some_ne_none _))
  zero := hzero
  apart := hapart
  tree := htree
  words {u ru lu xu j} hu hj := by
    by_cases hit : u = t ∧ j = i
    · obtain ⟨rfl, rfl⟩ := hit
      have hold := (hnew hu).resolve_right fun h => h.1 rfl
      rw [ht] at hold
      cases hold
      rw [Kernel.setEntry_self]
      exact hw
    · rw [Kernel.setEntry_of_ne hit]
      obtain hold | ⟨-, hzero⟩ := hnew hu
      · exact T.words hold hj
      · rw [hzero j]
        exact entryOk_zero users lu

/-- Point an unused entry to a page that the kernel keeps: an empty table, or a page. -/
theorem attach (T : TablesOf users kept own s) (ht : own t = some (.table r l x)) (hi : i < paging.width l)
    (hfree : link s.memory t i = none) (hc : kept c) (hc0 : c ≠ 0) (hw : EntryOk users l w)
    (hwc : target w = some c)
    (hempty : l ≠ 1 → ∀ j, s.memory c j = 0) :
    TablesOf users (fun q => kept q ∧ q ≠ c) (update own c (some (childRole paging r l x i)))
      (s.setEntry t i w) := by
  have hnone := T.apart hc
  have hct : c ≠ t := by
    rintro rfl
    rw [hnone] at ht
    cases ht
  refine T.setEntry ht hw ?_ ?_ ⟨T.zero, hc0.symm⟩ ?_ ?_
  · refine T.tree.attach ht hi hfree hnone (setSlot w (some c) hwc) fun hl j _ => ?_
    rw [link, Kernel.setEntry_page hct, hempty hl j, target_zero]
  · intro q
    by_cases hq : q = c
    · subst hq
      simp [hc]
    · rw [update_of_ne hq]
      simp [hq]
  · intro q hq
    rw [update_of_ne hq.2]
    exact T.apart hq.1
  · intro u ru lu xu hu
    by_cases huc : u = c
    · subst huc
      rw [update_self] at hu
      obtain ⟨hl, -⟩ := childRole_table (Option.some.inj hu)
      exact .inr ⟨hct, hempty hl⟩
    · rw [update_of_ne huc] at hu
      exact .inl hu

/-- Change the flags of an entry that points to a page. -/
theorem reflag (T : TablesOf users kept own s) (ht : own t = some (.table r 1 x)) (hw : EntryOk users 1 w)
    (hwc : target w = link s.memory t i) :
    TablesOf users kept own (s.setEntry t i w) := by
  refine T.setEntry ht hw ?_ (fun _ => Iff.rfl) T.zero T.apart (fun hu => .inl hu)
  have hs : SetSlot own _ _ t i _ := setSlot (s := s) w _ hwc
  refine T.tree.congr fun {u} hu j => ?_
  by_cases hit : u = t ∧ j = i
  · rw [hit.1, hit.2, hs.hit]
  · exact hs.miss hu hit

/-- Point an unused entry to a page that another entry for its index maps. -/
theorem share (T : TablesOf users kept own s) (ht : own t = some (.table r 1 x))
    (hi : i < PAGE_TABLE_ENTRIES) (hfree : link s.memory t i = none)
    (hc : own c = some (.leaf (x * PAGE_TABLE_ENTRIES + i))) (hw : EntryOk users 1 w)
    (hwc : target w = some c) :
    TablesOf users kept own (s.setEntry t i w) :=
  T.setEntry ht hw (T.tree.share ht hi hfree hc (setSlot w (some c) hwc)) (fun _ => Iff.rfl)
    T.zero T.apart fun hu => .inl hu

/-- Point an entry to a kept page instead of one that another entry maps too. -/
theorem replace (T : TablesOf users kept own s) (ht : own t = some (.table r 1 x))
    (hi : i < PAGE_TABLE_ENTRIES) {p : ℕ} (hp : link s.memory t i = some p)
    {u ru xu j : ℕ} (hu : own u = some (.table ru 1 xu)) (hj : j < PAGE_TABLE_ENTRIES)
    (hul : link s.memory u j = some p) (hne : ¬(u = t ∧ j = i)) (hc : kept c) (hc0 : c ≠ 0)
    (hw : EntryOk users 1 w)
    (hwc : target w = some c) :
    TablesOf users (fun q => kept q ∧ q ≠ c) (update own c (some (.leaf (x * PAGE_TABLE_ENTRIES + i))))
      (s.setEntry t i w) := by
  have hnone := T.apart hc
  have hs : SetSlot own _ _ t i _ := setSlot (s := s) w _ hwc
  -- the slot is cleared first; the trees do not see that the memory changes only once
  let cleared : ℕ → ℕ → Option ℕ := fun u j =>
    if u = t ∧ j = i then none else link s.memory u j
  have hclear : SetSlot own (link s.memory) cleared t i none :=
    ⟨if_pos ⟨rfl, rfl⟩, fun _ hmiss => if_neg hmiss⟩
  have T1 := T.tree.dropShared ht hi hp hclear hu hj hul hne
  have hset : SetSlot own cleared (link (s.setEntry t i w).memory) t i (some c) :=
    ⟨hs.hit, fun hu' hmiss => (hs.miss hu' hmiss).trans (if_neg hmiss).symm⟩
  have T2 := T1.attach ht hi hclear.hit hnone hset fun h => absurd rfl h
  rw [childRole_one] at T2
  refine T.setEntry ht hw T2 ?_ ⟨T.zero, hc0.symm⟩ ?_ ?_
  · intro q
    by_cases hq : q = c
    · subst hq
      simp [hc]
    · rw [update_of_ne hq]
      simp [hq]
  · intro q hq
    rw [update_of_ne hq.2]
    exact T.apart hq.1
  · intro u' ru' lu' xu' hu'
    by_cases huc : u' = c
    · subst huc
      rw [update_self] at hu'
      cases hu'
    · rw [update_of_ne huc] at hu'
      exact .inl hu'

end TablesOf

end KPanic
