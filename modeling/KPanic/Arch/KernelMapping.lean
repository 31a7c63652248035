import KPanic.Lib.Ensures
import KPanic.Arch.ArchMemory

/-!
# `arch/x86/64/source/ArchMemory.cpp`: the kernel mapping before there is a page manager

`resolveMapping` and `mapKernelPage` at boot, where the tables are those of `initialisePaging`: the
tables of each level are an array of their own. A page table may be entered at several places; a
`slot` is the entry that the walk to a page ends at.
-/

namespace KPanic

open BitField (Word)
open Function
open Fallible

/-- The assertions of the constructor of `PageManager` and of the functions that it calls. -/
inductive BootAssertion
  | ppnOutOfRange
  | tableMissing
  | entryInUse
  | pageSize
  | noSpaceForHeap
  | noFreePage
  deriving DecidableEq

/-- What stops the constructor. `outOfBounds` is an access to a bit behind the end of `page_usage_table`. -/
inductive BootStop
  | assertion (e : BootAssertion)
  | outOfBounds (bit_number : ℕ)
  | endless
  deriving DecidableEq

def BootStop.Assertion (e : BootStop) : Prop := ∃ a, e = .assertion a

abbrev Boot := Except BootStop

def Boot.assert (c : Prop) [Decidable c] (a : BootAssertion) : Boot PUnit :=
  if c then pure ⟨⟩ else throw (.assertion a)

/-- The tables under `kernel_page_map_level_4`, which is in page `pml4_ppn`, by their pages. -/
structure KernelTables where
  pml4_ppn : ℕ
  kernel_page_map_level_4 : Page
  kernel_page_directory_pointer_table : ℕ → Page
  kernel_page_directory : ℕ → Page
  kernel_page_table : ℕ → Page

namespace KernelTables

variable {t t' : KernelTables} {n v w p : ℕ} {m : ArchMemoryMapping}

def resolveMapping (t : KernelTables) (getTotalNumPages vpage : ℕ) : Boot ArchMemoryMapping := do
  let m : ArchMemoryMapping :=
    { pml4_ppn := t.pml4_ppn, pdpt_ppn := 0, pd_ppn := 0, pt_ppn := 0, page_ppn := 0, page_size := 0
      pml4i := vpage / PAGE_TABLE_ENTRIES / PAGE_TABLE_ENTRIES / PAGE_TABLE_ENTRIES %
        PAGE_MAP_LEVEL_4_ENTRIES
      pdpti := vpage / PAGE_TABLE_ENTRIES / PAGE_TABLE_ENTRIES % PAGE_TABLE_ENTRIES
      pdi := vpage / PAGE_TABLE_ENTRIES % PAGE_TABLE_ENTRIES
      pti := vpage % PAGE_TABLE_ENTRIES }
  Boot.assert (t.pml4_ppn < getTotalNumPages) .ppnOutOfRange
  let pml4e := t.kernel_page_map_level_4 m.pml4i
  if present.get pml4e = 0 then return m
  else
    let m := { m with pdpt_ppn := page_ppn.get pml4e }
    let pdpte := t.kernel_page_directory_pointer_table m.pdpt_ppn m.pdpti
    if present.get pdpte ≠ 0 ∧ size.get pdpte = 0 then
      let m := { m with pd_ppn := page_ppn.get pdpte }
      Boot.assert (m.pd_ppn < getTotalNumPages) .ppnOutOfRange
      let pde := t.kernel_page_directory m.pd_ppn m.pdi
      if present.get pde ≠ 0 ∧ size.get pde = 0 then
        let m := { m with pt_ppn := page_ppn.get pde }
        Boot.assert (m.pt_ppn < getTotalNumPages) .ppnOutOfRange
        let pte := t.kernel_page_table m.pt_ppn m.pti
        if present.get pte = 0 then return m
        else
          let m := { m with page_ppn := page_ppn.get pte }
          Boot.assert (m.page_ppn < getTotalNumPages) .ppnOutOfRange
          return { m with page_size := PAGE_SIZE }
      else if present.get pde ≠ 0 then
        return { m with page_size := PAGE_SIZE * PAGE_TABLE_ENTRIES, page_ppn := page_ppn_2mb.get pde }
      else return m
    else if present.get pdpte ≠ 0 then
      let m := { m with
        page_size := PAGE_SIZE * PAGE_TABLE_ENTRIES * PAGE_TABLE_ENTRIES
        page_ppn := page_ppn_1gb.get pdpte }
      Boot.assert (m.page_ppn < getTotalNumPages) .ppnOutOfRange
      return m
    else return m

def mapKernelPage (t : KernelTables) (getTotalNumPages virtual_page physical_page : ℕ) :
    Boot KernelTables := do
  let mapping ← t.resolveMapping getTotalNumPages virtual_page
  let pml4e := t.kernel_page_map_level_4 mapping.pml4i
  Boot.assert (present.get pml4e ≠ 0) .tableMissing
  let pdpte := t.kernel_page_directory_pointer_table (page_ppn.get pml4e) mapping.pdpti
  Boot.assert (present.get pdpte ≠ 0) .tableMissing
  let pde := t.kernel_page_directory (page_ppn.get pdpte) mapping.pdi
  Boot.assert (present.get pde ≠ 0) .tableMissing
  let pt := page_ppn.get pde
  let pte := t.kernel_page_table pt mapping.pti
  Boot.assert (present.get pte = 0) .entryInUse
  let pte := present.put (page_ppn.put (writeable.put pte 1) physical_page) 1
  return { t with
    kernel_page_table := update t.kernel_page_table pt (update (t.kernel_page_table pt) mapping.pti pte) }

/-- `get_PPN_Of_VPN_In_KernelMapping`, and `mapKernelPage` if it returns 0. -/
def mapUnmapped (t : KernelTables) (getTotalNumPages virtual_page physical_page : ℕ) :
    Boot (ℕ × KernelTables) := do
  let m ← t.resolveMapping getTotalNumPages virtual_page
  if m.page_size = 0 then
    let t ← t.mapKernelPage getTotalNumPages virtual_page physical_page
    return (m.page_size, t)
  else return (m.page_size, t)

/-! ### What the tables say about a page -/

def pml4e (t : KernelTables) (v : ℕ) : Word :=
  t.kernel_page_map_level_4
    (v / PAGE_TABLE_ENTRIES / PAGE_TABLE_ENTRIES / PAGE_TABLE_ENTRIES % PAGE_MAP_LEVEL_4_ENTRIES)

def pdpte (t : KernelTables) (v : ℕ) : Word :=
  t.kernel_page_directory_pointer_table (page_ppn.get (t.pml4e v))
    (v / PAGE_TABLE_ENTRIES / PAGE_TABLE_ENTRIES % PAGE_TABLE_ENTRIES)

def pde (t : KernelTables) (v : ℕ) : Word :=
  t.kernel_page_directory (page_ppn.get (t.pdpte v)) (v / PAGE_TABLE_ENTRIES % PAGE_TABLE_ENTRIES)

def pte (t : KernelTables) (v : ℕ) : Word :=
  t.kernel_page_table (page_ppn.get (t.pde v)) (v % PAGE_TABLE_ENTRIES)

/-- The entry of a page table that the walk ends at. -/
def slot (t : KernelTables) (v : ℕ) : Option (ℕ × ℕ) :=
  if present.get (t.pml4e v) ≠ 0 ∧ present.get (t.pdpte v) ≠ 0 ∧ size.get (t.pdpte v) = 0 ∧
      present.get (t.pde v) ≠ 0 ∧ size.get (t.pde v) = 0 then
    some (page_ppn.get (t.pde v), v % PAGE_TABLE_ENTRIES)
  else none

/-- The size of the page that `v` is part of, 0 if it is not mapped. -/
def page_size (t : KernelTables) (v : ℕ) : ℕ :=
  if present.get (t.pml4e v) = 0 ∨ present.get (t.pdpte v) = 0 then 0
  else if size.get (t.pdpte v) ≠ 0 then PAGE_SIZE * PAGE_TABLE_ENTRIES * PAGE_TABLE_ENTRIES
  else if present.get (t.pde v) = 0 then 0
  else if size.get (t.pde v) ≠ 0 then PAGE_SIZE * PAGE_TABLE_ENTRIES
  else if present.get (t.pte v) = 0 then 0
  else PAGE_SIZE

/-- The number of the page that `v` is part of, among the pages of its size. -/
def large_ppn (t : KernelTables) (v : ℕ) : ℕ :=
  if t.page_size v = PAGE_SIZE then page_ppn.get (t.pte v)
  else if t.page_size v = PAGE_SIZE * PAGE_TABLE_ENTRIES then page_ppn_2mb.get (t.pde v)
  else page_ppn_1gb.get (t.pdpte v)

/-- The virtual page `v` is mapped to the physical page `p`. -/
def Backs (t : KernelTables) (v p : ℕ) : Prop :=
  t.page_size v ≠ 0 ∧
    p = t.large_ppn v * (t.page_size v / PAGE_SIZE) + v % (t.page_size v / PAGE_SIZE)

theorem page_size_2mb : t.page_size v = PAGE_SIZE * PAGE_TABLE_ENTRIES ↔
    ¬(present.get (t.pml4e v) = 0 ∨ present.get (t.pdpte v) = 0) ∧ ¬size.get (t.pdpte v) ≠ 0 ∧
      ¬present.get (t.pde v) = 0 ∧ size.get (t.pde v) ≠ 0 := by
  have h4k : PAGE_SIZE ≠ PAGE_SIZE * PAGE_TABLE_ENTRIES := by decide
  have h1gb : PAGE_SIZE * PAGE_TABLE_ENTRIES * PAGE_TABLE_ENTRIES ≠ PAGE_SIZE * PAGE_TABLE_ENTRIES := by
    decide
  constructor
  · intro h
    rw [page_size] at h
    split at h
    · cases h
    rename_i hupper
    split at h
    · exact absurd h h1gb
    rename_i hdir
    split at h
    · cases h
    rename_i hpde
    split at h
    · rename_i hlarge
      exact ⟨hupper, hdir, hpde, hlarge⟩
    split at h
    · cases h
    · exact absurd h h4k
  · rintro ⟨hupper, hdir, hpde, hlarge⟩
    rw [page_size, if_neg hupper, if_neg hdir, if_neg hpde, if_pos hlarge]

/-- The pages around one of 2 MiB are part of it. -/
theorem page_size_large (h : t.page_size v = PAGE_SIZE * PAGE_TABLE_ENTRIES)
    (hvw : w / PAGE_TABLE_ENTRIES = v / PAGE_TABLE_ENTRIES) :
    t.page_size w = PAGE_SIZE * PAGE_TABLE_ENTRIES ∧ t.large_ppn w = t.large_ppn v := by
  have h2mb : PAGE_SIZE * PAGE_TABLE_ENTRIES ≠ PAGE_SIZE := by decide
  have hpde : t.pde w = t.pde v := by rw [pde, pde, pdpte, pdpte, pml4e, pml4e, hvw]
  have hsize : t.page_size w = PAGE_SIZE * PAGE_TABLE_ENTRIES := by
    rw [page_size_2mb, hpde, pdpte, pml4e, hvw]
    exact page_size_2mb.mp h
  refine ⟨hsize, ?_⟩
  rw [large_ppn, large_ppn, hsize, h, hpde, if_neg h2mb, if_neg h2mb, if_pos rfl, if_pos rfl]

/-! ### `resolveMapping` and `mapKernelPage` -/

@[simp] theorem ensures_assert {c : Prop} [Decidable c] {a : BootAssertion} {Q : PUnit → Prop} :
    Ensures BootStop.Assertion (Boot.assert c a) Q ↔ (c → Q ⟨⟩) := by
  unfold Boot.assert
  split
  · rename_i hc
    exact ⟨fun hQ _ => hQ, fun hQ => hQ hc⟩
  · rename_i hc
    exact ⟨fun _ hc' => absurd hc' hc, fun _ => ⟨a, rfl⟩⟩

/-- `m` is what the tables say about `v`. -/
structure Resolved (t : KernelTables) (v : ℕ) (m : ArchMemoryMapping) : Prop where
  page_size : m.page_size = t.page_size v
  page_ppn : t.page_size v ≠ 0 → m.page_ppn = t.large_ppn v
  pt_ppn : t.page_size v = PAGE_SIZE → m.pt_ppn = KPanic.page_ppn.get (t.pde v)
  pml4i : m.pml4i = v / PAGE_TABLE_ENTRIES / PAGE_TABLE_ENTRIES / PAGE_TABLE_ENTRIES %
    PAGE_MAP_LEVEL_4_ENTRIES
  pdpti : m.pdpti = v / PAGE_TABLE_ENTRIES / PAGE_TABLE_ENTRIES % PAGE_TABLE_ENTRIES
  pdi : m.pdi = v / PAGE_TABLE_ENTRIES % PAGE_TABLE_ENTRIES
  pti : m.pti = v % PAGE_TABLE_ENTRIES

theorem resolveMapping_spec :
    Ensures BootStop.Assertion (t.resolveMapping n v) (Resolved t v) := by
  have hzero : 0 ≠ PAGE_SIZE := by decide
  have h2mb : PAGE_SIZE * PAGE_TABLE_ENTRIES ≠ PAGE_SIZE := by decide
  have h1gb : PAGE_SIZE * PAGE_TABLE_ENTRIES * PAGE_TABLE_ENTRIES ≠ PAGE_SIZE := by decide
  have h1gb2mb : PAGE_SIZE * PAGE_TABLE_ENTRIES * PAGE_TABLE_ENTRIES ≠ PAGE_SIZE * PAGE_TABLE_ENTRIES := by
    decide
  unfold resolveMapping
  simp only [ensures_bind, ensures_assert]
  intro _
  split
  · rename_i hpml4e
    have hsize : t.page_size v = 0 := if_pos (.inl hpml4e)
    exact ⟨hsize.symm, fun h => absurd hsize h, fun h => absurd (hsize.symm.trans h) hzero, rfl, rfl, rfl, rfl⟩
  rename_i hpml4e
  split
  · rename_i hdir
    have hupper : ¬(present.get (t.pml4e v) = 0 ∨ present.get (t.pdpte v) = 0) := not_or.mpr ⟨hpml4e, hdir.1⟩
    have hsmall : ¬size.get (t.pdpte v) ≠ 0 := not_not.mpr hdir.2
    rw [ensures_bind, ensures_assert]
    intro _
    split
    · rename_i htable
      have hpde : ¬present.get (t.pde v) = 0 := htable.1
      have hsmall' : ¬size.get (t.pde v) ≠ 0 := not_not.mpr htable.2
      rw [ensures_bind, ensures_assert]
      intro _
      split
      · rename_i hnot
        have hpte : present.get (t.pte v) = 0 := hnot
        have hsize : t.page_size v = 0 := by
          rw [page_size, if_neg hupper, if_neg hsmall, if_neg hpde, if_neg hsmall', if_pos hpte]
        exact ⟨hsize.symm, fun h => absurd hsize h, fun h => absurd (hsize.symm.trans h) hzero, rfl, rfl, rfl,
          rfl⟩
      · rename_i hpresent
        have hpte : ¬present.get (t.pte v) = 0 := hpresent
        have hsize : t.page_size v = PAGE_SIZE := by
          rw [page_size, if_neg hupper, if_neg hsmall, if_neg hpde, if_neg hsmall', if_neg hpte]
        rw [ensures_bind, ensures_assert]
        intro _
        refine ⟨hsize.symm, fun _ => ?_, fun _ => rfl, rfl, rfl, rfl, rfl⟩
        rw [large_ppn, if_pos hsize]
        rfl
    · rename_i htable
      split
      · rename_i hpresent
        have hpde : ¬present.get (t.pde v) = 0 := hpresent
        have hlarge : size.get (t.pde v) ≠ 0 := fun h => htable ⟨hpde, h⟩
        have hsize : t.page_size v = PAGE_SIZE * PAGE_TABLE_ENTRIES := by
          rw [page_size, if_neg hupper, if_neg hsmall, if_neg hpde, if_pos hlarge]
        refine ⟨hsize.symm, fun _ => ?_, fun h => absurd (hsize.symm.trans h) h2mb, rfl, rfl, rfl, rfl⟩
        rw [large_ppn, hsize, if_neg h2mb, if_pos rfl]
        rfl
      · rename_i hnot
        have hpde : present.get (t.pde v) = 0 := not_not.mp hnot
        have hsize : t.page_size v = 0 := by
          rw [page_size, if_neg hupper, if_neg hsmall, if_pos hpde]
        exact ⟨hsize.symm, fun h => absurd hsize h, fun h => absurd (hsize.symm.trans h) hzero, rfl, rfl, rfl,
          rfl⟩
  · rename_i hdir
    split
    · rename_i hpdpte
      have hupper : ¬(present.get (t.pml4e v) = 0 ∨ present.get (t.pdpte v) = 0) := not_or.mpr ⟨hpml4e, hpdpte⟩
      have hlarge : size.get (t.pdpte v) ≠ 0 := fun h => hdir ⟨hpdpte, h⟩
      have hsize : t.page_size v = PAGE_SIZE * PAGE_TABLE_ENTRIES * PAGE_TABLE_ENTRIES := by
        rw [page_size, if_neg hupper, if_pos hlarge]
      rw [ensures_bind, ensures_assert]
      intro _
      refine ⟨hsize.symm, fun _ => ?_, fun h => absurd (hsize.symm.trans h) h1gb, rfl, rfl, rfl, rfl⟩
      rw [large_ppn, hsize, if_neg h1gb, if_neg h1gb2mb]
      rfl
    · rename_i hpdpte
      have hsize : t.page_size v = 0 := if_pos (.inr (not_not.mp hpdpte))
      exact ⟨hsize.symm, fun h => absurd hsize h, fun h => absurd (hsize.symm.trans h) hzero, rfl, rfl, rfl,
        rfl⟩

/-- The page at a slot is there if the entry is. -/
theorem page_size_of_slot {s : ℕ × ℕ} (h : t.slot v = some s) :
    t.page_size v = if present.get (t.kernel_page_table s.1 s.2) = 0 then 0 else PAGE_SIZE := by
  unfold slot at h
  split at h
  · rename_i hwalk
    obtain ⟨hpml4e, hpdpte, hdir, hpde, htable⟩ := hwalk
    cases h
    rw [page_size, if_neg (not_or.mpr ⟨hpml4e, hpdpte⟩), if_neg (not_not.mpr hdir), if_neg hpde,
      if_neg (not_not.mpr htable)]
    rfl
  · cases h

/-- Where the walk does not come to a page table, the page tables do not matter. -/
theorem page_size_of_no_slot (h : t.slot v = none) (pt : ℕ → Page) :
    page_size { t with kernel_page_table := pt } v = t.page_size v := by
  unfold slot at h
  split at h
  · cases h
  · rename_i hwalk
    show (if present.get (t.pml4e v) = 0 ∨ present.get (t.pdpte v) = 0 then _ else
      if size.get (t.pdpte v) ≠ 0 then _ else if present.get (t.pde v) = 0 then _ else
      if size.get (t.pde v) ≠ 0 then _ else _) = _
    rw [page_size]
    split
    · rfl
    · split
      · rfl
      · split
        · rfl
        · split
          · rfl
          · rename_i hupper hdir hpde htable
            obtain ⟨hpml4e, hpdpte⟩ := not_or.mp hupper
            exact absurd ⟨hpml4e, hpdpte, not_not.mp hdir, hpde, not_not.mp htable⟩ hwalk

/-- An entry of a page table was made. -/
structure Entered (t : KernelTables) (v : ℕ) (t' : KernelTables) : Prop where
  isSome : (t.slot v).isSome
  slot : ∀ w, t'.slot w = t.slot w
  page_size : ∀ w, t'.page_size w = if t.slot w = t.slot v then PAGE_SIZE else t.page_size w

/-- `t` with an entry overwritten. -/
def enter (t : KernelTables) (s : ℕ × ℕ) (e : Word) : KernelTables :=
  { t with kernel_page_table := update t.kernel_page_table s.1 (update (t.kernel_page_table s.1) s.2 e) }

theorem enter_entry (t : KernelTables) (s s' : ℕ × ℕ) (e : Word) :
    (t.enter s e).kernel_page_table s'.1 s'.2 = if s' = s then e else t.kernel_page_table s'.1 s'.2 := by
  show update t.kernel_page_table s.1 (update (t.kernel_page_table s.1) s.2 e) s'.1 s'.2 = _
  by_cases hpt : s'.1 = s.1
  · rw [hpt, update_self]
    by_cases hpti : s'.2 = s.2
    · rw [hpti, update_self, if_pos (Prod.ext hpt hpti)]
    · rw [update_of_ne hpti, if_neg (fun h => hpti (congrArg Prod.snd h))]
  · rw [update_of_ne hpt, if_neg (fun h => hpt (congrArg Prod.fst h))]

theorem entered_of_slot {s : ℕ × ℕ} {e : Word} (hslot : t.slot v = some s) (he : present.get e ≠ 0) :
    Entered t v (t.enter s e) := by
  refine ⟨by rw [hslot]; rfl, fun w => rfl, fun w => ?_⟩
  cases hw : t.slot w with
  | none =>
    rw [hslot, if_neg (by simp)]
    exact page_size_of_no_slot hw _
  | some s' =>
    -- the walk is that of `t`, the entry at its end may be the new one
    have hw' : (t.enter s e).slot w = some s' := hw
    rw [page_size_of_slot hw', page_size_of_slot hw, hslot, enter_entry]
    by_cases hs : s' = s
    · rw [if_pos hs, if_neg he, hs, if_pos rfl]
    · rw [if_neg hs, if_neg (fun h => hs (Option.some.inj h))]

theorem mapKernelPage_spec (h : t.page_size v = 0) :
    Ensures BootStop.Assertion (t.mapKernelPage n v p) (Entered t v) := by
  refine resolveMapping_spec.seq fun mapping R => ?_
  rw [R.pml4i, R.pdpti, R.pdi, R.pti]
  simp only [ensures_bind, ensures_assert]
  intro hpml4e hpdpte hpde _
  have hupper : ¬(present.get (t.pml4e v) = 0 ∨ present.get (t.pdpte v) = 0) := not_or.mpr ⟨hpml4e, hpdpte⟩
  have hdir : size.get (t.pdpte v) = 0 := by
    by_contra hlarge
    rw [page_size, if_neg hupper, if_pos hlarge] at h
    exact absurd h (by decide)
  have htable : size.get (t.pde v) = 0 := by
    by_contra hlarge
    have hpde : ¬present.get (t.pde v) = 0 := hpde
    rw [page_size, if_neg hupper, if_neg (not_not.mpr hdir), if_neg hpde, if_pos hlarge] at h
    exact absurd h (by decide)
  have hslot : t.slot v = some (page_ppn.get (t.pde v), v % PAGE_TABLE_ENTRIES) :=
    if_pos ⟨hpml4e, hpdpte, hdir, hpde, htable⟩
  refine entered_of_slot hslot ?_
  show present.get (present.put _ 1) ≠ 0
  rw [BitField.get_put_of_lt _ _ _ (by decide)]
  decide

/-- Nothing fails for a page that is not mapped and whose tables are there. -/
theorem resolveMapping_unmapped (hroot : t.pml4_ppn < n) (hpd : page_ppn.get (t.pdpte v) < n)
    (hpt : page_ppn.get (t.pde v) < n) (hsize : t.page_size v = 0) :
    ∃ m, t.resolveMapping n v = .ok m ∧ m.page_size = 0 := by
  have hassert : ∀ {c : Prop} [Decidable c] {a : BootAssertion} {Q : PUnit → Prop}, c → Q ⟨⟩ →
      Ensures (fun _ => False) (Boot.assert c a) Q := by
    intro c _ a Q hc hQ
    rw [Boot.assert, if_pos hc]
    exact hQ
  have hok : Ensures (fun _ => False) (t.resolveMapping n v) fun _ => True := by
    unfold resolveMapping
    refine (ensures_bind _ _).mpr (hassert hroot ?_)
    dsimp only
    split
    · trivial
    rename_i hpml4e
    split
    · rename_i hdir
      refine (ensures_bind _ _).mpr (hassert hpd ?_)
      split
      · rename_i htable
        refine (ensures_bind _ _).mpr (hassert hpt ?_)
        split
        · trivial
        · rename_i hpte
          have hslot : t.slot v = some (page_ppn.get (t.pde v), v % PAGE_TABLE_ENTRIES) :=
            if_pos ⟨hpml4e, hdir.1, hdir.2, htable.1, htable.2⟩
          have hsmall : t.page_size v = PAGE_SIZE := (page_size_of_slot hslot).trans (if_neg hpte)
          rw [hsmall] at hsize
          cases hsize
      · split
        · trivial
        · trivial
    · rename_i hdir
      split
      · rename_i hpdpte
        have hlarge : size.get (t.pdpte v) ≠ 0 := fun hsmall => hdir ⟨hpdpte, hsmall⟩
        have hupper : ¬(present.get (t.pml4e v) = 0 ∨ present.get (t.pdpte v) = 0) :=
          not_or.mpr ⟨hpml4e, hpdpte⟩
        rw [page_size, if_neg hupper, if_pos hlarge] at hsize
        cases hsize
      · trivial
  cases hm : t.resolveMapping n v with
  | error e => exact (hok.error hm).elim
  | ok m => exact ⟨m, rfl, (resolveMapping_spec.ok hm).page_size.trans hsize⟩

/-- After the pages in `visited` were mapped if they were not yet. -/
structure Grown (t t' : KernelTables) (visited : ℕ → Prop) : Prop where
  slot : ∀ w, t'.slot w = t.slot w
  mapped : ∀ w, t'.page_size w ≠ 0 ↔
    t.page_size w ≠ 0 ∨ ∃ v, visited v ∧ (t.slot v).isSome ∧ t.slot w = t.slot v

theorem Grown.refl (t : KernelTables) : Grown t t fun _ => False :=
  ⟨fun _ => rfl, fun _ => by simp⟩

theorem Grown.congr {visited visited' : ℕ → Prop} (G : Grown t t' visited)
    (hv : ∀ v, visited v ↔ visited' v) : Grown t t' visited' :=
  ⟨G.slot, fun w => (G.mapped w).trans (by simp only [hv])⟩

/-- Pages with one slot are both mapped or both not. -/
theorem page_size_congr (hsome : (t.slot v).isSome) (hslot : t.slot w = t.slot v) :
    t.page_size w = t.page_size v := by
  obtain ⟨s, hs⟩ := Option.isSome_iff_exists.mp hsome
  rw [page_size_of_slot hs, page_size_of_slot (hslot.trans hs)]

theorem mapUnmapped_spec {t₀ : KernelTables} {visited : ℕ → Prop} (G : Grown t₀ t visited) :
    Ensures BootStop.Assertion (t.mapUnmapped n v p)
      fun r => r.1 = t.page_size v ∧ Grown t₀ r.2 fun u => visited u ∨ u = v := by
  refine resolveMapping_spec.seq fun m R => ?_
  split
  · rename_i hzero
    refine (mapKernelPage_spec (R.page_size.symm.trans hzero)).seq fun t' E => ?_
    refine ⟨R.page_size, fun w => (E.slot w).trans (G.slot w), fun w => ?_⟩
    rw [E.page_size, G.slot, G.slot]
    have hsome := G.slot v ▸ E.isSome
    split
    · rename_i hslot
      exact ⟨fun _ => .inr ⟨v, .inr rfl, hsome, hslot⟩, fun _ => by decide⟩
    · rename_i hslot
      rw [G.mapped]
      refine or_congr_right ⟨fun ⟨u, hu, h⟩ => ⟨u, .inl hu, h⟩, fun ⟨u, hu, h⟩ => ⟨u, ?_, h⟩⟩
      refine hu.resolve_right fun heq => hslot ?_
      rw [h.2, heq]
  · rename_i hmapped
    refine ⟨R.page_size, G.slot, fun w => ?_⟩
    rw [R.page_size] at hmapped
    rw [G.mapped]
    constructor
    · exact fun h => h.imp_right fun ⟨u, hu, h⟩ => ⟨u, .inl hu, h⟩
    · rintro (h | ⟨u, hu | rfl, hsome, hslot⟩)
      · exact .inl h
      · exact .inr ⟨u, hu, hsome, hslot⟩
      · refine (G.mapped w).mp ?_
        rwa [page_size_congr (by rwa [G.slot]) (by rw [G.slot, G.slot, hslot])]

end KernelTables

end KPanic
