import KPanic.Arch.TableUpdates

/-!
# `resolveMapping`, `mapPage`, `copyPageHierarchy`

The specifications of the functions that read and extend a page table. They fail only when
`allocPPN` finds no page.
-/

namespace KPanic

open BitField (Word Field)
open Function
open PageTree
open CopyOnWrite
open Wp

variable {users kept : ℕ → Prop} {own own' own'' : Own} {s s' s'' : Kernel} {t c r l x i p v : ℕ} {w : Word}
  {allowed : Panic → Prop}

/-! ### Primitive steps -/

theorem wp_assert {e : Panic} {P : Prop} [Decidable P] {Q : PUnit → Kernel → Prop} (h : P)
    (hQ : Q ⟨⟩ s) : wp allowed (Kern.assert P e) Q s := by
  rw [Kern.assert, if_pos h, wp_pure]
  exact hQ

@[simp] theorem wp_entry {Q : Word → Kernel → Prop} :
    wp allowed (Kern.entry t i) Q s ↔ Q (s.memory t i) s := by
  simp only [Kern.entry, wp_bind, wp_get, wp_pure]

@[simp] theorem wp_setPage {f : Page} {Q : PUnit → Kernel → Prop} :
    wp allowed (Kern.setPage p f) Q s ↔ Q ⟨⟩ (s.setPage p f) := by
  rw [Kern.setPage, wp_modify, Kernel.setPage]

@[simp] theorem wp_setEntry {Q : PUnit → Kernel → Prop} :
    wp allowed (Kern.setEntry t i w) Q s ↔ Q ⟨⟩ (s.setEntry t i w) := by
  rw [Kern.setEntry, wp_modify, Kernel.setEntry]

@[simp] theorem wp_setField {f : Field} {n : ℕ} {Q : PUnit → Kernel → Prop} :
    wp allowed (Kern.setField t i f n) Q s ↔ Q ⟨⟩ (s.setEntry t i (f.put (s.memory t i) n)) := by
  rw [Kern.setField, wp_bind, wp_entry, wp_setEntry]

@[simp] theorem Kernel.setEntry_setEntry {w' : Word} :
    (s.setEntry t i w).setEntry t i w' = s.setEntry t i w' := by
  simp [Kernel.setEntry]

theorem Kernel.setPage_eq {f : Page} (h : s.memory p = f) : s.setPage p f = s := by
  rw [Kernel.setPage, ← h, update_eq_self]

/-! ### `resolveMapping` -/

/-- What `resolveMapping` finds: the stations of the walk. -/
def mappingAt (memory : ℕ → Page) (r v : ℕ) : ArchMemoryMapping where
  pml4_ppn := r
  pdpt_ppn := (walk paging (link memory) r v 1).getD 0
  pd_ppn := (walk paging (link memory) r v 2).getD 0
  pt_ppn := (walk paging (link memory) r v 3).getD 0
  page_ppn := (walk paging (link memory) r v 4).getD 0
  page_size := if (walk paging (link memory) r v 4).isSome then PAGE_SIZE else 0
  pml4i := paging.slot v 4
  pdpti := paging.slot v 3
  pdi := paging.slot v 2
  pti := paging.slot v 1

theorem walk_step {memory : ℕ → Page} {k : ℕ} (h : walk paging (link memory) r v k = some t) :
    walk paging (link memory) r v (k + 1) = target (memory t (paging.slot v (4 - k))) := by
  rw [walk, h]
  rfl

theorem walk_none {memory : ℕ → Page} {k : ℕ} (h : walk paging (link memory) r v k = none) :
    walk paging (link memory) r v (k + 1) = none := by
  rw [walk, h]
  rfl

theorem walk_space (hr : IsRoot paging own r) (hv : paging.InRange v) {memory : ℕ → Page} :
    walk paging (link memory) r v 4 = (space own memory r v).map Prod.fst := by
  rw [space, if_pos ⟨hr, hv⟩]
  cases h : walk paging (link memory) r v 3 with
  | none => rw [walk_none h]; rfl
  | some t =>
    rw [walk_step h, Option.bind_some]
    have hslot : paging.slot v (4 - 3) = v % PAGE_TABLE_ENTRIES := paging.slot_one v
    rw [hslot, target, leaf]
    split <;> rfl

theorem slot_eq :
    paging.slot v 1 = v % PAGE_TABLE_ENTRIES ∧
    paging.slot v 2 = v / PAGE_TABLE_ENTRIES % PAGE_TABLE_ENTRIES ∧
    paging.slot v 3 = v / PAGE_TABLE_ENTRIES / PAGE_TABLE_ENTRIES % PAGE_TABLE_ENTRIES ∧
    paging.slot v 4 = v / PAGE_TABLE_ENTRIES / PAGE_TABLE_ENTRIES / PAGE_TABLE_ENTRIES %
      PAGE_MAP_LEVEL_4_ENTRIES := by
  simp [Shape.slot, PAGE_TABLE_ENTRIES, PAGE_MAP_LEVEL_4_ENTRIES, Nat.div_div_eq_div_mul]

/-- The entry that a walk reads after `k` steps. -/
theorem walk_entry (T : TablesOf users kept own s) (hr : IsRoot paging own r) (hv : paging.InRange v)
    {k : ℕ} (hk : k < 4) (h : walk paging (link s.memory) r v k = some t) :
    EntryOk users (4 - k) (s.memory t (paging.slot v (4 - k))) ∧ t < s.pm.number_of_pages_ := by
  have hown := T.tree.walk_own hr hv hk h
  exact ⟨T.words hown (paging.slot_lt hv), T.lt hown⟩

theorem target_of_present (h : present.get w ≠ 0) : target w = some (page_ppn.get w) := if_neg h

theorem wp_resolveMapping (T : TablesOf users kept own s) (hr : IsRoot paging own r)
    (hv : paging.InRange v) {Q : ArchMemoryMapping → Kernel → Prop}
    (hQ : Q (mappingAt s.memory r v) s) : wp allowed (ArchMemory.resolveMapping r v) Q s := by
  obtain ⟨s1, s2, s3, s4⟩ := @slot_eq v
  unfold mappingAt at hQ
  rw [s1, s2, s3, s4] at hQ
  unfold ArchMemory.resolveMapping
  simp only [wp_bind, wp_get, wp_entry]
  have w0 : walk paging (link s.memory) r v 0 = some r := rfl
  have e0 := walk_entry T hr hv (by decide) w0
  refine wp_assert e0.2 ?_
  have w1 := walk_step w0
  rw [Nat.sub_zero, s4] at w1
  by_cases p1 : present.get (s.memory r (v / PAGE_TABLE_ENTRIES / PAGE_TABLE_ENTRIES /
      PAGE_TABLE_ENTRIES % PAGE_MAP_LEVEL_4_ENTRIES)) = 0
  · rw [if_pos p1]
    rw [target, if_pos p1] at w1
    have w2 := walk_none w1
    have w3 := walk_none w2
    have w4 := walk_none w3
    rw [w1, w2, w3, w4] at hQ
    exact (wp_pure _).mpr hQ
  · rw [if_neg p1]
    rw [target_of_present p1] at w1
    have e1 := walk_entry T hr hv (by decide) w1
    have w2 := walk_step w1
    rw [show 4 - 1 = 3 from rfl, s3] at w2 e1
    rw [wp_bind, wp_entry]
    by_cases p2 : present.get (s.memory (page_ppn.get (s.memory r (v / PAGE_TABLE_ENTRIES /
        PAGE_TABLE_ENTRIES / PAGE_TABLE_ENTRIES % PAGE_MAP_LEVEL_4_ENTRIES)))
        (v / PAGE_TABLE_ENTRIES / PAGE_TABLE_ENTRIES % PAGE_TABLE_ENTRIES)) = 0
    · rw [if_neg fun h => h.1 p2, if_neg (not_not_intro p2)]
      rw [target, if_pos p2] at w2
      have w3 := walk_none w2
      have w4 := walk_none w3
      rw [w1, w2, w3, w4] at hQ
      exact (wp_pure _).mpr hQ
    · rw [if_pos ⟨p2, (e1.1.flags p2).1⟩]
      rw [target_of_present p2] at w2
      have e2 := walk_entry T hr hv (by decide) w2
      have w3 := walk_step w2
      rw [show 4 - 2 = 2 from rfl, s2] at w3 e2
      rw [wp_bind]
      refine wp_assert e2.2 ?_
      rw [wp_bind, wp_entry]
      generalize page_ppn.get (s.memory (page_ppn.get (s.memory r _)) _) = pd at *
      by_cases p3 : present.get (s.memory pd (v / PAGE_TABLE_ENTRIES % PAGE_TABLE_ENTRIES)) = 0
      · rw [if_neg fun h => h.1 p3, if_neg (not_not_intro p3)]
        rw [target, if_pos p3] at w3
        have w4 := walk_none w3
        rw [w1, w2, w3, w4] at hQ
        exact (wp_pure _).mpr hQ
      · rw [if_pos ⟨p3, (e2.1.flags p3).1⟩]
        rw [target_of_present p3] at w3
        have e3 := walk_entry T hr hv (by decide) w3
        have w4 := walk_step w3
        rw [show 4 - 3 = 1 from rfl, s1] at w4 e3
        rw [wp_bind]
        refine wp_assert e3.2 ?_
        rw [wp_bind, wp_entry]
        generalize page_ppn.get (s.memory pd _) = pt at *
        by_cases p4 : present.get (s.memory pt (v % PAGE_TABLE_ENTRIES)) = 0
        · rw [if_pos p4]
          rw [target, if_pos p4] at w4
          rw [w1, w2, w3, w4] at hQ
          exact (wp_pure _).mpr hQ
        · rw [if_neg p4]
          rw [target_of_present p4] at w4
          have hp := T.lt (T.tree.walk_leaf hr hv w4)
          rw [wp_bind]
          refine wp_assert hp ?_
          rw [w1, w2, w3, w4] at hQ
          exact (wp_pure _).mpr hQ

/-! ### Entries -/

/-- The entry that `insert` leaves. -/
def insertWord (w : Word) (ppn size user_access writeable : ℕ) : Word :=
  KPanic.present.put (KPanic.user_access.put (KPanic.page_ppn.put (KPanic.writeable.put
    (KPanic.size.put w size) writeable) ppn) user_access) 1

/-- The entry that `insertCopy` leaves. -/
def copyWord (old : Word) (ppn writeable : ℕ) : Word :=
  KPanic.writeable.put (KPanic.page_ppn.put old ppn) writeable

theorem wp_insert {ppn sz user wr : ℕ} {bzero : Bool} {Q : Bool → Kernel → Prop} (ht : t ≠ 0)
    (hz : bzero = true → s.memory t i = 0 ∧ s.memory ppn = fun _ => 0)
    (hQ : Q true (s.setEntry t i (insertWord (s.memory t i) ppn sz user wr))) :
    wp allowed (ArchMemory.insert t i ppn bzero sz user wr) Q s := by
  unfold ArchMemory.insert
  rw [wp_bind]
  refine wp_assert ht ?_
  cases bzero with
  | false =>
    simp only [Bool.false_eq_true, if_false, wp_bind, wp_setField, wp_pure, Kernel.setEntry_self,
      Kernel.setEntry_setEntry]
    exact hQ
  | true =>
    obtain ⟨hw, hpage⟩ := hz rfl
    dsimp only
    rw [if_pos rfl, wp_bind, wp_setPage, Kernel.setPage_eq hpage, wp_bind, wp_entry, wp_bind]
    refine wp_assert hw ?_
    simp only [wp_bind, wp_setField, wp_pure, Kernel.setEntry_self, Kernel.setEntry_setEntry]
    exact hQ

theorem wp_insertCopy {ppn wr : ℕ} {old : Word} {Q : Bool → Kernel → Prop} (ht : t ≠ 0)
    (hz : wr ≠ 0 → s.memory t i = 0 ∧ s.memory ppn = fun _ => 0)
    (hQ : Q true (s.setEntry t i (copyWord old ppn wr))) :
    wp allowed (ArchMemory.insertCopy t i ppn wr old) Q s := by
  unfold ArchMemory.insertCopy
  rw [wp_bind]
  refine wp_assert ht ?_
  dsimp only
  by_cases hwr : wr = 0
  · rw [if_neg (not_not_intro hwr)]
    simp only [wp_bind, wp_setField, wp_setEntry, wp_pure, Kernel.setEntry_self,
      Kernel.setEntry_setEntry]
    exact hQ
  · obtain ⟨hw, hpage⟩ := hz hwr
    rw [if_pos hwr, wp_bind, wp_setPage, Kernel.setPage_eq hpage, wp_bind, wp_entry, wp_bind]
    refine wp_assert hw ?_
    simp only [wp_bind, wp_setField, wp_setEntry, wp_pure, Kernel.setEntry_self,
      Kernel.setEntry_setEntry]
    exact hQ

section Words

variable {ppn : ℕ} (hp : ppn < 2 ^ page_ppn.len)

include hp

theorem insertWord_ok {user : ℕ} (htable : l ≠ 1 → user = 1) (hpage : l = 1 → users (user % 2)) :
    EntryOk users l (insertWord w ppn 0 user 1) ∧
      leaf (insertWord w ppn 0 user 1) = some (ppn, true) := by
  have hpresent : present.get (insertWord w ppn 0 user 1) = 1 := by
    rw [insertWord, BitField.get_put_of_lt _ _ _ (by decide)]
  have huser : user_access.get (insertWord w ppn 0 user 1) = user % 2 := by
    rw [insertWord, BitField.get_put_disjoint _ _ (by decide), BitField.get_put]
    rfl
  have hppn : page_ppn.get (insertWord w ppn 0 user 1) = ppn := by
    rw [insertWord, BitField.get_put_disjoint _ _ (by decide),
      BitField.get_put_disjoint _ _ (by decide), BitField.get_put_of_lt _ _ _ hp]
  have hwriteable : writeable.get (insertWord w ppn 0 user 1) = 1 := by
    rw [insertWord, BitField.get_put_disjoint _ _ (by decide),
      BitField.get_put_disjoint _ _ (by decide), BitField.get_put_disjoint _ _ (by decide),
      BitField.get_put_of_lt _ _ _ (by decide)]
  have hsize : size.get (insertWord w ppn 0 user 1) = 0 := by
    rw [insertWord, BitField.get_put_disjoint _ _ (by decide),
      BitField.get_put_disjoint _ _ (by decide), BitField.get_put_disjoint _ _ (by decide),
      BitField.get_put_disjoint _ _ (by decide), BitField.get_put_of_lt _ _ _ (by decide)]
  constructor
  · refine ⟨fun h => ?_, fun _ => ⟨hsize, fun hl => ⟨?_, hwriteable⟩, fun hl => ?_⟩⟩
    · rw [hpresent] at h
      cases h
    · rw [huser, htable hl]
    · rw [huser]
      exact hpage hl
  · rw [leaf, if_neg (by rw [hpresent]; decide), hppn, hwriteable]
    rfl

/-- Writing the page number and the writeable bit keeps the other flags. -/
theorem copyWord_ok {old : Word} {k : ℕ} (hold : EntryOk users l old) (hpresent : present.get old ≠ 0)
    (hwr : k < 2) (hl : l ≠ 1 → k = 1) : EntryOk users l (copyWord old ppn k) ∧
    leaf (copyWord old ppn k) = some (ppn, decide (k = 1)) := by
  have hflag : ∀ f : Field, f.Disjoint writeable → f.Disjoint page_ppn →
      f.get (copyWord old ppn k) = f.get old := by
    intro f hf hf'
    rw [copyWord, BitField.get_put_disjoint _ _ hf, BitField.get_put_disjoint _ _ hf']
  have hpres := hflag present (by decide) (by decide)
  have hppn : page_ppn.get (copyWord old ppn k) = ppn := by
    rw [copyWord, BitField.get_put_disjoint _ _ (by decide), BitField.get_put_of_lt _ _ _ hp]
  have hwriteable : writeable.get (copyWord old ppn k) = k := by
    rw [copyWord, BitField.get_put_of_lt _ _ _ hwr]
  obtain ⟨hsize, htable, hpage⟩ := hold.flags hpresent
  have huser := hflag user_access (by decide) (by decide)
  constructor
  · refine ⟨fun h => absurd (hpres ▸ h) hpresent, fun _ => ⟨?_, fun h => ⟨?_, ?_⟩, fun h => ?_⟩⟩
    · rw [hflag size (by decide) (by decide), hsize]
    · rw [huser, (htable h).1]
    · rw [hwriteable, hl h]
    · rw [huser]
      exact hpage h
  · rw [leaf, hpres, if_neg hpresent, hppn, hwriteable]

end Words

/-- Writing the writeable bit keeps the page. -/
theorem flagWord_ok {old : Word} {n : ℕ} {b : Bool} (hold : EntryOk users 1 old)
    (hleaf : leaf old = some (p, b)) (hn : n < 2) : EntryOk users 1 (writeable.put old n) ∧
    leaf (writeable.put old n) = some (p, decide (n = 1)) := by
  have hflag : ∀ f : Field, f.Disjoint writeable → f.get (writeable.put old n) = f.get old :=
    fun f hf => BitField.get_put_disjoint f _ hf _ _
  have hpresent : present.get old ≠ 0 := by
    intro h
    rw [leaf, if_pos h] at hleaf
    cases hleaf
  have hppn : page_ppn.get old = p := by
    rw [leaf, if_neg hpresent] at hleaf
    cases hleaf
    rfl
  have hpres := hflag present (by decide)
  obtain ⟨hsize, -, hpage⟩ := hold.flags hpresent
  constructor
  · refine ⟨fun h => absurd (hpres ▸ h) hpresent, fun _ => ⟨?_, fun h => absurd rfl h, fun h => ?_⟩⟩
    · rw [hflag size (by decide), hsize]
    · rw [hflag user_access (by decide)]
      exact hpage h
  · rw [leaf, hpres, if_neg hpresent, hflag page_ppn (by decide), hppn,
      BitField.get_put_of_lt _ _ _ hn]

end KPanic
