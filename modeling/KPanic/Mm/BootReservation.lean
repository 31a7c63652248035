import KPanic.Mm.PageManagerBoot
import KPanic.Mm.PageRuns

/-!
# What is reserved at boot

Each loop of the constructor adds to the pages that the table marks, or takes pages from them. The loop
for the heap takes the free pages in order and does not look whether there is one left.
-/

namespace KPanic.PageManagerBoot

open BitField (Word)
open Fallible

variable {n N i k count passes page v : ℕ} {P Q : ℕ → Prop} {table : Bitmap} {t t₀ : KernelTables}

/-- The table has `n` bits, and those of the pages in `P` are set. -/
structure Marks (n : ℕ) (P : ℕ → Prop) (table : Bitmap) : Prop where
  ok : table.Ok
  size : table.size_ = n
  bits : ∀ k < n, Bitmap.getBit table.bitmap_ k = true ↔ P k

theorem Marks.congr (h : Marks n P table) (hPQ : ∀ k < n, P k ↔ Q k) : Marks n Q table :=
  ⟨h.ok, h.size, fun k hk => (h.bits k hk).trans (hPQ k hk)⟩

theorem Marks.set (h : Marks n P table) (hk : k < n) : Marks n (fun j => P j ∨ j = k) (table.setBit k).2 := by
  have hk' : k < table.size_ := by rwa [h.size]
  refine ⟨Bitmap.setBit_ok h.ok hk', (Bitmap.setBit_size _ _).trans h.size, fun j hj => ?_⟩
  rw [Bitmap.getBit_setBit h.ok hk']
  split
  · rename_i heq
    exact ⟨fun _ => .inr heq, fun _ => rfl⟩
  · rename_i hne
    rw [h.bits j hj]
    exact ⟨.inl, fun hor => hor.resolve_right hne⟩

theorem Marks.unset (h : Marks n P table) (hk : k < n) :
    Marks n (fun j => P j ∧ j ≠ k) (table.unsetBit k).2 := by
  have hk' : k < table.size_ := by rwa [h.size]
  refine ⟨Bitmap.unsetBit_ok h.ok hk', (Bitmap.unsetBit_size _ _).trans h.size, fun j hj => ?_⟩
  rw [Bitmap.getBit_unsetBit h.ok hk']
  split
  · rename_i heq
    exact ⟨fun hfalse => absurd hfalse Bool.false_ne_true, fun hand => absurd heq hand.2⟩
  · rename_i hne
    rw [h.bits j hj]
    exact ⟨fun hP => ⟨hP, hne⟩, fun hand => hand.1⟩

theorem fullTable_marks (n : ℕ) : Marks n (fun _ => True) (fullTable n) := by
  have hbit : ∀ k < n, Bitmap.getBit (fullTable n).bitmap_ k = true := by
    intro k hk
    have hbyte : k / 8 < bitmapByteCount n := Bitmap.byte_index_lt hk
    have hfull : Bitmap.byte (fullTable n).bitmap_ k = 0xFF := by
      simp [Bitmap.byte, fullTable, bits_per_bitmap_atom_, hbyte]
    have hbits : ∀ m < 8, (0xFF : Byte).getLsbD m = true := by decide
    rw [Bitmap.getBit_eq, hfull]
    exact hbits _ (Nat.mod_lt _ (by decide))
  refine ⟨⟨List.length_replicate, ?_⟩, rfl, fun k hk => ⟨fun _ => trivial, fun _ => hbit k hk⟩⟩
  show n = Nat.count (fun k => Bitmap.getBit (fullTable n).bitmap_ k) n
  rw [Bitmap.count_congr (q := fun _ => true) hbit]
  simp

/-! ### The usable regions -/

def Usable (regions : List MemoryMap) (p : ℕ) : Prop :=
  ∃ r ∈ regions, r.type = 1 ∧ pageOf r.start_address ≤ p ∧ p < pageOf r.end_address

def OutOfBounds (e : BootStop) : Prop := ∃ bit_number, e = .outOfBounds bit_number

/-- An access to a bit that is not there, of a page below `N`. -/
def Outside (n N : ℕ) (e : BootStop) : Prop := ∃ bit_number, e = .outOfBounds bit_number ∧ n ≤ bit_number ∧
  bit_number < N

theorem clearPages_spec (h : Marks n P table) (hN : count ≠ 0 → k + count ≤ N) :
    Ensures (Outside n N) (clearPages count k table) fun table' =>
      Marks n (fun j => P j ∧ ¬(k ≤ j ∧ j < k + count)) table' ∧ ∀ j, k ≤ j → j < k + count → j < n := by
  induction count generalizing k table P with
  | zero =>
    refine ⟨h.congr fun j _ => ⟨fun hP => ⟨hP, by omega⟩, fun hP => hP.1⟩, fun j hk hj => ?_⟩
    omega
  | succ count ih =>
    rw [clearPages, unsetBit]
    by_cases hk : k < table.size_
    · rw [if_pos hk]
      have hkn : k < n := h.size ▸ hk
      refine (ih (h.unset hkn) (by omega)).mono fun table' ⟨M, hbound⟩ => ⟨M.congr fun j _ => ?_, fun j hkj hj => ?_⟩
      · rw [and_assoc]
        refine and_congr_right fun _ => ?_
        omega
      · obtain rfl | hlt := Nat.eq_or_lt_of_le hkj
        · exact hkn
        · exact hbound j hlt (by omega)
    · rw [if_neg hk]
      exact ⟨k, rfl, h.size ▸ Nat.le_of_not_lt hk, by omega⟩

/-- The loop stays inside the table exactly if all usable pages have a bit in it. -/
theorem clearRegions_spec (regions : List MemoryMap) (h : Marks n P table) (hn : n ≤ N) :
    Ensures (Outside n N) (clearRegions N regions table) fun table' =>
      Marks n (fun p => P p ∧ ¬Usable regions p) table' ∧ ∀ p < N, Usable regions p → p < n := by
  induction regions generalizing table P with
  | nil =>
    have hnone : ∀ p, ¬Usable [] p := fun p ⟨_, hmem, _⟩ => List.not_mem_nil hmem
    exact ⟨h.congr fun p _ => ⟨fun hP => ⟨hP, hnone p⟩, fun hP => hP.1⟩, fun p _ hp => absurd hp (hnone p)⟩
  | cons r regions ih =>
    rw [clearRegions]
    have hcons : ∀ p, Usable (r :: regions) p ↔
        (r.type = 1 ∧ pageOf r.start_address ≤ p ∧ p < pageOf r.end_address) ∨ Usable regions p :=
      fun p => List.exists_mem_cons_iff _ r regions
    split
    · rename_i htype
      refine (ih h).mono fun table' ⟨M, hbound⟩ => ⟨M.congr fun p _ => ?_, fun p hp hus => ?_⟩
      · rw [hcons, or_iff_right fun hr => htype hr.1]
      · exact hbound p hp (((hcons p).mp hus).resolve_left fun hr => htype hr.1)
    · rename_i htype
      have htype : r.type = 1 := not_not.mp htype
      refine (clearPages_spec h (by omega)).seq fun table' ⟨M, hinside⟩ =>
        (ih M).mono fun table'' ⟨M', hbound⟩ => ?_
      refine ⟨M'.congr fun p hp => ?_, fun p hp hus => ?_⟩
      · rw [hcons, and_assoc, not_or]
        refine and_congr_right fun _ => and_congr_left fun _ => not_congr ?_
        constructor
        · exact fun hr => ⟨htype, hr.1, by omega⟩
        · exact fun hr => ⟨hr.2.1, by omega⟩
      · obtain hr | hrest := (hcons p).mp hus
        · exact hinside p hr.2.1 (by omega)
        · exact hbound p hp hrest

/-! ### The kernel mapping -/

open KernelTables

/-- `p` is reserved for the virtual page `v`: `v` is mapped to it, or mapped by the page table in it. The
tables are reserved only at multiples of 1024. -/
def ReservedBy (t : KernelTables) (v p : ℕ) : Prop :=
  t.Backs v p ∨ t.page_size v = PAGE_SIZE ∧ v % 1024 = 0 ∧ page_ppn.get (t.pde v) = p

def ReservedFrom (t : KernelTables) (i p : ℕ) : Prop := ∃ v, i ≤ v ∧ v < RESERVED_END ∧ ReservedBy t v p

theorem setBit_spec (h : Marks n P table) (hk : k < n) {allowed : BootStop → Prop} :
    Ensures allowed (setBit table k) fun r =>
      (r.1 = true ↔ ¬P k) ∧ Marks n (fun j => P j ∨ j = k) r.2 := by
  have hk' : k < table.size_ := by rwa [h.size]
  rw [setBit, if_pos hk']
  refine ⟨?_, h.set hk⟩
  rw [← h.bits k hk, Bitmap.setBit]
  split
  · rename_i hclear
    simpa using hclear
  · rename_i hset
    simpa using hset

theorem setPages_spec (h : Marks n P table) :
    Ensures BootStop.Assertion (setPages n count page table)
      (Marks n fun j => P j ∨ page ≤ j ∧ j < page + count) := by
  induction count generalizing page table P with
  | zero => exact h.congr fun j _ => ⟨.inl, fun hor => hor.resolve_right (by omega)⟩
  | succ count ih =>
    rw [setPages]
    split
    · rename_i hpage
      rw [ensures_bind, ensures_map]
      refine (setBit_spec h hpage).mono fun r ⟨_, M⟩ => (ih M).mono fun table' M' => M'.congr fun j _ => ?_
      rw [or_assoc]
      refine or_congr_right ?_
      omega
    · refine (ih h).mono fun table' M' => M'.congr fun j hj => or_congr_right ?_
      omega

theorem reservedFrom_add (t : KernelTables) (i count p : ℕ) : ReservedFrom t i p ↔
    (∃ v, i ≤ v ∧ v < i + count ∧ v < RESERVED_END ∧ ReservedBy t v p) ∨ ReservedFrom t (i + count) p := by
  constructor
  · rintro ⟨v, hv, hend, hp⟩
    obtain hlt | hge := Nat.lt_or_ge v (i + count)
    · exact .inl ⟨v, hv, hlt, hend, hp⟩
    · exact .inr ⟨v, hge, hend, hp⟩
  · rintro (⟨v, hv, _, hend, hp⟩ | ⟨v, hv, hend, hp⟩)
    · exact ⟨v, hv, hend, hp⟩
    · exact ⟨v, Nat.le_of_add_right_le hv, hend, hp⟩

theorem reservedFrom_succ (t : KernelTables) (hi : i < RESERVED_END) (p : ℕ) :
    ReservedFrom t i p ↔ ReservedBy t i p ∨ ReservedFrom t (i + 1) p := by
  rw [reservedFrom_add t i 1 p]
  refine or_congr_left ⟨?_, fun hp => ⟨i, Nat.le_refl i, Nat.lt_succ_self i, hi, hp⟩⟩
  rintro ⟨v, hv, hlt, _, hp⟩
  rwa [Nat.le_antisymm (Nat.le_of_lt_succ hlt) hv] at hp

theorem not_reservedBy_of_unmapped (h : t.page_size i = 0) (p : ℕ) : ¬ReservedBy t i p := by
  rintro (hp | hp)
  · exact hp.1 h
  · exact absurd (h.symm.trans hp.1) (by decide)

theorem reservedBy_small (h : t.page_size i = PAGE_SIZE) (p : ℕ) :
    ReservedBy t i p ↔ p = t.large_ppn i ∨ i % 1024 = 0 ∧ p = page_ppn.get (t.pde i) := by
  have hbacks : t.Backs i p ↔ p = t.large_ppn i := by
    rw [Backs, h, Nat.div_self (by decide), Nat.mul_one, Nat.mod_one, Nat.add_zero]
    exact and_iff_right (by decide)
  rw [ReservedBy, hbacks, and_iff_right h]
  exact or_congr_right (and_congr_right fun _ => eq_comm)

/-- The 512 pages of one of 2 MiB are mapped to 512 pages. -/
theorem reservedBy_large (h : t.page_size i = PAGE_SIZE * PAGE_TABLE_ENTRIES) (hi : i < RESERVED_END)
    (halign : i % PAGE_TABLE_ENTRIES = 0) (p : ℕ) :
    (∃ v, i ≤ v ∧ v < i + PAGE_TABLE_ENTRIES ∧ v < RESERVED_END ∧ ReservedBy t v p) ↔
      t.large_ppn i * PAGE_TABLE_ENTRIES ≤ p ∧ p < t.large_ppn i * PAGE_TABLE_ENTRIES + PAGE_TABLE_ENTRIES := by
  have hend : RESERVED_END % PAGE_TABLE_ENTRIES = 0 := by decide
  have hdiv : PAGE_SIZE * PAGE_TABLE_ENTRIES / PAGE_SIZE = PAGE_TABLE_ENTRIES := by decide
  have hby : ∀ v, i ≤ v → v < i + PAGE_TABLE_ENTRIES →
      (ReservedBy t v p ↔ p = t.large_ppn i * PAGE_TABLE_ENTRIES + (v - i)) := by
    intro v hv hlt
    have hblock : v / PAGE_TABLE_ENTRIES = i / PAGE_TABLE_ENTRIES ∧ v % PAGE_TABLE_ENTRIES = v - i := by
      unfold PAGE_TABLE_ENTRIES at *
      omega
    obtain ⟨hsize, hppn⟩ := page_size_large h hblock.1
    rw [ReservedBy, Backs, hsize, hdiv, hppn, hblock.2, or_iff_left fun hp => absurd hp.1 (by decide)]
    exact and_iff_right (by decide)
  constructor
  · rintro ⟨v, hv, hlt, _, hp⟩
    have hp := (hby v hv hlt).mp hp
    omega
  · intro hp
    refine ⟨i + (p - t.large_ppn i * PAGE_TABLE_ENTRIES), Nat.le_add_right _ _, by omega, ?_, ?_⟩
    · unfold PAGE_TABLE_ENTRIES RESERVED_END at *
      omega
    · rw [hby _ (Nat.le_add_right _ _) (by omega)]
      omega

theorem reserveKernelPages_spec (h : Marks n P table) (hpasses : RESERVED_END - i < passes)
    (halign : i % PAGE_TABLE_ENTRIES = 0 ∨ t.page_size i ≠ PAGE_SIZE * PAGE_TABLE_ENTRIES) :
    Ensures BootStop.Assertion (reserveKernelPages t n passes i table)
      (Marks n fun p => P p ∨ ReservedFrom t i p) := by
  induction passes generalizing i table P with
  | zero => exact absurd hpasses (Nat.not_lt_zero _)
  | succ passes ih =>
    rw [reserveKernelPages]
    split
    · rename_i hi
      -- the page behind one that is not large is aligned, or not large as well
      have hnext : t.page_size i ≠ PAGE_SIZE * PAGE_TABLE_ENTRIES →
          (i + 1) % PAGE_TABLE_ENTRIES = 0 ∨ t.page_size (i + 1) ≠ PAGE_SIZE * PAGE_TABLE_ENTRIES := by
        intro hsmall
        refine or_iff_not_imp_left.mpr fun hmod hlarge => hsmall (page_size_large hlarge ?_).1
        unfold PAGE_TABLE_ENTRIES at hmod ⊢
        omega
      refine resolveMapping_spec.seq fun m R => ?_
      rw [ensures_bind, ensures_assert, R.page_size]
      intro hsizes
      obtain hsize | hsize | hsize := hsizes
      · have hsmall : t.page_size i ≠ PAGE_SIZE * PAGE_TABLE_ENTRIES := by
          rw [hsize]
          decide
        rw [hsize, if_neg (Nat.lt_irrefl 0)]
        refine (ih h (by omega) (hnext hsmall)).mono fun table' M => M.congr fun p _ => ?_
        rw [reservedFrom_succ t hi, or_iff_right (not_reservedBy_of_unmapped hsize p)]
      · have hsmall : t.page_size i ≠ PAGE_SIZE * PAGE_TABLE_ENTRIES := by
          rw [hsize]
          decide
        have hone : PAGE_SIZE / PAGE_SIZE = 1 := by decide
        rw [hsize, if_pos (by decide), R.page_ppn (by rw [hsize]; decide), R.pt_ppn hsize, hone]
        refine (setPages_spec h).seq fun table₁ M₁ => ?_
        dsimp only
        rw [Nat.sub_self, Nat.add_zero]
        have hby := reservedBy_small hsize
        split
        · rename_i htable
          rw [ensures_bind, ensures_map]
          refine (setBit_spec M₁ htable.2.2).mono fun r ⟨_, M₂⟩ => ?_
          refine (ih M₂ (by omega) (hnext hsmall)).mono fun table' M => M.congr fun p _ => ?_
          rw [reservedFrom_succ t hi, hby, or_assoc, or_assoc, or_assoc, and_iff_right htable.2.1]
          refine or_congr_right (or_congr_left ?_)
          omega
        · rename_i htable
          refine (ih M₁ (by omega) (hnext hsmall)).mono fun table' M => M.congr fun p hp => ?_
          rw [reservedFrom_succ t hi, hby, or_assoc]
          refine or_congr_right (or_congr_left ?_)
          have hno : ¬(i % 1024 = 0 ∧ p = page_ppn.get (t.pde i)) := fun hmod =>
            htable ⟨rfl, hmod.1, hmod.2 ▸ hp⟩
          rw [or_iff_left hno]
          omega
      · have halign : i % PAGE_TABLE_ENTRIES = 0 := halign.resolve_right (not_not.mpr hsize)
        have hmany : PAGE_SIZE * PAGE_TABLE_ENTRIES / PAGE_SIZE = PAGE_TABLE_ENTRIES := by decide
        have hstep : i + (PAGE_TABLE_ENTRIES - 1) + 1 = i + PAGE_TABLE_ENTRIES := by
          unfold PAGE_TABLE_ENTRIES
          omega
        rw [hsize, if_pos (by decide), R.page_ppn (by rw [hsize]; decide), hmany]
        refine (setPages_spec h).seq fun table₁ M₁ => ?_
        dsimp only
        rw [if_neg (fun hone => absurd hone.1 (by decide)), pure_bind, hstep]
        refine (ih M₁ ?_ (.inl ?_)).mono fun table' M => M.congr fun p _ => ?_
        · unfold PAGE_TABLE_ENTRIES
          omega
        · rw [Nat.add_mod_right, halign]
        · rw [reservedFrom_add t i PAGE_TABLE_ENTRIES, reservedBy_large hsize hi halign, or_assoc]
    · rename_i hi
      refine h.congr fun p _ => ⟨.inl, fun hor => hor.resolve_right ?_⟩
      rintro ⟨v, hv, hlt, _⟩
      omega

/-! ### The modules -/

/-- The pages from that of the start address to that of the end address. -/
def ModulePage (modules : List ModuleMap) (p : ℕ) : Prop := ∃ m ∈ modules, m.start_page ≤ p ∧ p ≤ m.end_page

/-- The virtual pages at which the loop over the modules wants the module pages below `n` to be mapped. -/
def ModuleVpn (modules : List ModuleMap) (n v : ℕ) : Prop :=
  ∃ p < n, ModulePage modules p ∧ v = PHYSICAL_TO_VIRTUAL_OFFSET / PAGE_SIZE + p

theorem reserveModule_spec {visited : ℕ → Prop} (h : Marks n P table) (G : Grown t₀ t visited)
    (hk : k + count ≤ n) :
    Ensures BootStop.Assertion (reserveModule n count k t table) fun r =>
      Marks n (fun j => P j ∨ k ≤ j ∧ j < k + count) r.2 ∧
      Grown t₀ r.1 fun v => visited v ∨
        ∃ j, (k ≤ j ∧ j < k + count) ∧ v = PHYSICAL_TO_VIRTUAL_OFFSET / PAGE_SIZE + j := by
  induction count generalizing k t table P visited with
  | zero =>
    refine ⟨h.congr fun j _ => ⟨.inl, fun hor => hor.resolve_right (by omega)⟩, G.congr fun v => ?_⟩
    exact ⟨.inl, fun hor => hor.resolve_right fun ⟨j, hj, _⟩ => by omega⟩
  | succ count ih =>
    rw [reserveModule]
    refine (setBit_spec h (by omega)).seq fun r₁ ⟨_, M₁⟩ => ?_
    refine (mapUnmapped_spec G).seq fun r₂ ⟨_, G₂⟩ => ?_
    refine (ih M₁ G₂ (by omega)).mono fun r ⟨M, G'⟩ => ⟨M.congr fun j _ => ?_, G'.congr fun v => ?_⟩
    · rw [or_assoc]
      refine or_congr_right ?_
      omega
    · rw [or_assoc]
      refine or_congr_right ⟨?_, ?_⟩
      · rintro (rfl | ⟨j, hj, rfl⟩)
        · exact ⟨k, ⟨Nat.le_refl k, by omega⟩, rfl⟩
        · exact ⟨j, ⟨by omega, by omega⟩, rfl⟩
      · rintro ⟨j, hj, rfl⟩
        obtain rfl | hlt := Nat.eq_or_lt_of_le hj.1
        · exact .inl rfl
        · exact .inr ⟨j, ⟨hlt, by omega⟩, rfl⟩

theorem reserveModules_spec (modules : List ModuleMap) {visited : ℕ → Prop} (h : Marks n P table)
    (G : Grown t₀ t visited) (hn : n ≠ 0) :
    Ensures BootStop.Assertion (reserveModules n modules t table) fun r =>
      Marks n (fun p => P p ∨ ModulePage modules p) r.2 ∧
      Grown t₀ r.1 fun v => visited v ∨ ModuleVpn modules n v := by
  induction modules generalizing t table P visited with
  | nil =>
    have hnone : ∀ p, ¬ModulePage [] p := fun p ⟨_, hmem, _⟩ => List.not_mem_nil hmem
    refine ⟨h.congr fun p _ => ⟨.inl, fun hor => hor.resolve_right (hnone p)⟩, G.congr fun v => ?_⟩
    exact ⟨.inl, fun hor => hor.resolve_right fun ⟨p, _, hp, _⟩ => hnone p hp⟩
  | cons m modules ih =>
    have hcons : ∀ p, ModulePage (m :: modules) p ↔ (m.start_page ≤ p ∧ p ≤ m.end_page) ∨ ModulePage modules p :=
      fun p => List.exists_mem_cons_iff _ m modules
    -- the pages of the module that there are
    have hrange : ∀ p, (min m.start_page n ≤ p ∧ p < min m.start_page n +
        (min m.end_page (n - 1) + 1 - min m.start_page n)) ↔ p < n ∧ m.start_page ≤ p ∧ p ≤ m.end_page := by
      intro p
      omega
    rw [reserveModules]
    refine (reserveModule_spec h G (by omega)).seq fun r₁ ⟨M₁, G₁⟩ => ?_
    refine (ih M₁ G₁).mono fun r ⟨M, G'⟩ => ⟨M.congr fun p hp => ?_, G'.congr fun v => ?_⟩
    · rw [or_assoc, hcons, hrange, and_iff_right hp]
    · rw [or_assoc]
      refine or_congr_right ⟨?_, ?_⟩
      · rintro (⟨p, hp, rfl⟩ | ⟨p, hlt, hp, rfl⟩)
        · have hp := (hrange p).mp hp
          exact ⟨p, hp.1, (hcons p).mpr (.inl hp.2), rfl⟩
        · exact ⟨p, hlt, (hcons p).mpr (.inr hp), rfl⟩
      · rintro ⟨p, hlt, hp, rfl⟩
        obtain hp | hp := (hcons p).mp hp
        · exact .inl ⟨p, (hrange p).mpr ⟨hlt, hp⟩, rfl⟩
        · exact .inr ⟨p, hlt, hp, rfl⟩

/-! ### The heap -/

theorem nextFree_spec {free_page : ℕ} (h : Marks n P table) (hbelow : ∀ p < free_page, P p)
    (hle : free_page ≤ n) (hpasses : n - free_page < passes) :
    Ensures (fun e => OutOfBounds e ∧ ∀ p < n, P p) (nextFree passes free_page table) fun r =>
      r.1 < n ∧ ¬P r.1 ∧ (∀ p < r.1, P p) ∧ Marks n (fun p => P p ∨ p = r.1) r.2 := by
  induction passes generalizing free_page table with
  | zero => exact absurd hpasses (Nat.not_lt_zero _)
  | succ passes ih =>
    rw [nextFree]
    by_cases hlt : free_page < n
    · refine (setBit_spec h hlt).seq fun r hr => ?_
      obtain ⟨was_clear, table'⟩ := r
      obtain ⟨hclear, M⟩ := hr
      dsimp only at hclear M ⊢
      split
      · rename_i hset
        exact ⟨hlt, hclear.mp hset, hbelow, M⟩
      · rename_i hset
        have hmarked : P free_page := not_not.mp fun hP => hset (hclear.mpr hP)
        have M' : Marks n P table' := M.congr fun p _ => or_iff_left_of_imp fun heq => heq ▸ hmarked
        refine ih M' (fun p hp => ?_) hlt (by omega)
        obtain heq | hp := Nat.eq_or_lt_of_le (Nat.le_of_lt_succ hp)
        · exact heq ▸ hmarked
        · exact hbelow p hp
    · have hout : ¬free_page < table.size_ := by rwa [h.size]
      rw [setBit, if_neg hout]
      exact ⟨⟨_, rfl⟩, fun p hp => hbelow p (by omega)⟩

open Classical in
/-- The number of pages that are not in `P`. -/
noncomputable def freePages (n : ℕ) (P : ℕ → Prop) : ℕ := {p ∈ Finset.range n | ¬P p}.card

theorem freePages_le (n : ℕ) (P : ℕ → Prop) : freePages n P ≤ n := by
  classical
  have hle := Finset.card_filter_le (Finset.range n) fun p => ¬P p
  rw [Finset.card_range] at hle
  unfold freePages
  convert hle

theorem freePages_pos (hk : k < n) (hP : ¬P k) : 0 < freePages n P := by
  classical
  unfold freePages
  exact Finset.card_pos.mpr ⟨k, Finset.mem_filter.mpr ⟨Finset.mem_range.mpr hk, hP⟩⟩

/-- The virtual page behind the first `j` pages of the heap can be mapped: it is not mapped, and its
entry is not that of a page that was mapped before. -/
def Vacant (t : KernelTables) (visited : ℕ → Prop) (start j : ℕ) : Prop :=
  t.page_size (start + j) = 0 ∧ ∀ v, (visited v ∨ start ≤ v ∧ v < start + j) → (t.slot v).isSome →
    t.slot (start + j) ≠ t.slot v

/-- The loop for the heap ends after `m` passes: it has taken the `needed` pages, and mapped the last. -/
def EndsAfter (t : KernelTables) (visited : ℕ → Prop) (start needed m : ℕ) : Prop :=
  needed ≤ m ∧ 0 < m ∧ Vacant t visited start (m - 1)

structure HeapInv (n : ℕ) (P : ℕ → Prop) (t : KernelTables) (visited : ℕ → Prop) (start needed : ℕ)
    (s : HeapState) : Prop where
  marks : Marks n (fun p => P p ∨ p ∈ s.heap) s.page_usage_table
  free_page_le : s.free_page ≤ n
  below : ∀ p < s.free_page, P p ∨ p ∈ s.heap
  zero : 0 < s.num_reserved_heap_pages → P 0 ∨ 0 ∈ s.heap
  fresh : ∀ p ∈ s.heap, p < n ∧ ¬P p
  nodup : s.heap.Nodup
  length : s.heap.length = s.num_reserved_heap_pages
  start_vpn : s.start_vpn = start + s.num_reserved_heap_pages
  grown : Grown t s.tables fun v => visited v ∨ start ≤ v ∧ v < start + s.num_reserved_heap_pages
  temp : 0 < s.num_reserved_heap_pages →
    (s.temp_page_size = 0 ↔ Vacant t visited start (s.num_reserved_heap_pages - 1))
  going : ∀ m < s.num_reserved_heap_pages, ¬EndsAfter t visited start needed m

variable {visited : ℕ → Prop} {start needed : ℕ} {s : HeapState}

theorem HeapInv.le_freePages (I : HeapInv n P t visited start needed s) :
    s.num_reserved_heap_pages ≤ freePages n P := by
  classical
  have hsub : s.heap.toFinset ⊆ {p ∈ Finset.range n | ¬P p} := by
    intro p hp
    rw [Finset.mem_filter, Finset.mem_range]
    exact I.fresh p (List.mem_toFinset.mp hp)
  have hcard := Finset.card_le_card hsub
  rw [List.toFinset_card_of_nodup I.nodup, I.length] at hcard
  unfold freePages
  convert hcard

/-- When no page is free, the heap has all that were. -/
theorem HeapInv.freePages_le (I : HeapInv n P t visited start needed s) (h : ∀ p < n, P p ∨ p ∈ s.heap) :
    freePages n P ≤ s.num_reserved_heap_pages := by
  classical
  have hsub : {p ∈ Finset.range n | ¬P p} ⊆ s.heap.toFinset := by
    intro p hp
    rw [Finset.mem_filter, Finset.mem_range] at hp
    exact List.mem_toFinset.mpr ((h p hp.1).resolve_left hp.2)
  have hcard := Finset.card_le_card hsub
  rw [List.toFinset_card_of_nodup I.nodup, I.length] at hcard
  unfold freePages
  convert hcard

theorem vacant_iff {t' : KernelTables} {j : ℕ}
    (G : Grown t t' fun v => visited v ∨ start ≤ v ∧ v < start + j) :
    t'.page_size (start + j) = 0 ↔ Vacant t visited start j := by
  rw [← not_iff_not, ← ne_eq, G.mapped, Vacant]
  constructor
  · rintro (hmapped | ⟨v, hv, hsome, hslot⟩) ⟨hzero, hfree⟩
    · exact hmapped hzero
    · exact hfree v hv hsome hslot
  · intro hnot
    refine or_iff_not_imp_left.mpr fun hzero => ?_
    by_contra hnone
    exact hnot ⟨not_not.mp hzero, fun v hv hsome hslot => hnone ⟨v, hv, hsome, hslot⟩⟩

theorem HeapInv.next (I : HeapInv n P t visited start needed s) {free_page : ℕ} {table : Bitmap}
    {t' : KernelTables} {temp_page_size : ℕ} (hlt : free_page < n)
    (hfree : ¬(P free_page ∨ free_page ∈ s.heap)) (hbelow : ∀ p < free_page, P p ∨ p ∈ s.heap)
    (M : Marks n (fun p => (P p ∨ p ∈ s.heap) ∨ p = free_page) table)
    (htemp : temp_page_size = s.tables.page_size s.start_vpn)
    (G : Grown t t' fun v =>
      (visited v ∨ start ≤ v ∧ v < start + s.num_reserved_heap_pages) ∨ v = s.start_vpn)
    (hgoing : ¬EndsAfter t visited start needed s.num_reserved_heap_pages) :
    HeapInv n P t visited start needed
      { tables := t'
        page_usage_table := table
        start_vpn := s.start_vpn + 1
        free_page := if temp_page_size = 0 then free_page + 1 else free_page
        temp_page_size := temp_page_size
        num_reserved_heap_pages := s.num_reserved_heap_pages + 1
        heap := s.heap ++ [free_page] } := by
  have hmem : ∀ p, p ∈ s.heap ++ [free_page] ↔ p ∈ s.heap ∨ p = free_page := by simp
  -- every page up to the one that was taken is marked
  have hupto : ∀ p ≤ free_page, P p ∨ p ∈ s.heap ++ [free_page] := by
    intro p hp
    rw [hmem, ← or_assoc]
    obtain heq | hp := Nat.eq_or_lt_of_le hp
    · exact .inr heq
    · exact .inl (hbelow p hp)
  constructor
  · exact M.congr fun p _ => by rw [hmem, or_assoc]
  · dsimp only
    split <;> omega
  · intro p hp
    refine hupto p ?_
    dsimp only at hp
    split at hp <;> omega
  · exact fun _ => hupto 0 (Nat.zero_le _)
  · intro p hp
    obtain hp | heq := (hmem p).mp hp
    · exact I.fresh p hp
    · exact heq ▸ ⟨hlt, fun hP => hfree (.inl hP)⟩
  · refine List.nodup_append.mpr ⟨I.nodup, List.nodup_singleton _, fun p hp q hq => ?_⟩
    rintro rfl
    exact hfree (.inr (List.mem_singleton.mp hq ▸ hp))
  · rw [List.length_append, I.length]
    rfl
  · show s.start_vpn + 1 = _
    rw [I.start_vpn]
    rfl
  · refine G.congr fun v => ?_
    rw [I.start_vpn, or_assoc]
    refine or_congr_right ?_
    dsimp only
    omega
  · intro _
    dsimp only
    rw [htemp, I.start_vpn, Nat.add_sub_cancel]
    exact vacant_iff I.grown
  · intro m hm
    obtain rfl | hm := Nat.eq_or_lt_of_le (Nat.le_of_lt_succ hm)
    · exact hgoing
    · exact I.going m hm

/-- What can stop the loop: an assertion, or that no number of passes that the free pages suffice for
is enough. -/
def HeapStop (n : ℕ) (P : ℕ → Prop) (t : KernelTables) (visited : ℕ → Prop) (start needed : ℕ)
    (e : BootStop) : Prop :=
  e.Assertion ∨ OutOfBounds e ∧ ∀ m ≤ freePages n P, ¬EndsAfter t visited start needed m

/-- The loop ends if the free pages suffice until it can end, else it runs over the end of the table. -/
theorem reserveHeap_spec {num_pages_for_bitmap HEAP_PAGES : ℕ} (hpos : 0 < num_pages_for_bitmap)
    (hneeded : needed = max num_pages_for_bitmap (heapBound N HEAP_PAGES))
    (I : HeapInv n P t visited start needed s)
    (hpasses : freePages n P < passes + s.num_reserved_heap_pages) :
    Ensures (HeapStop n P t visited start needed)
      (reserveHeap N num_pages_for_bitmap HEAP_PAGES passes s) fun s' =>
        HeapInv n P t visited start needed s' ∧
          EndsAfter t visited start needed s'.num_reserved_heap_pages := by
  induction passes generalizing s with
  | zero =>
    have hle := I.le_freePages
    omega
  | succ passes ih =>
    rw [reserveHeap]
    split
    · rename_i hcond
      have hgoing : ¬EndsAfter t visited start needed s.num_reserved_heap_pages := by
        rintro ⟨hle, hpos, hvacant⟩
        have htemp := (I.temp hpos).mpr hvacant
        omega
      have hfuel : n - s.free_page < s.page_usage_table.size_ + 1 := by
        rw [I.marks.size]
        omega
      have hfull : ∀ e, (OutOfBounds e ∧ ∀ p < n, P p ∨ p ∈ s.heap) →
          HeapStop n P t visited start needed e := by
        refine fun e he => .inr ⟨he.1, fun m hm => ?_⟩
        have hle := I.freePages_le he.2
        obtain rfl | hm := Nat.eq_or_lt_of_le (hm.trans hle)
        · exact hgoing
        · exact I.going m hm
      refine ((nextFree_spec I.marks I.below I.free_page_le hfuel).allow hfull).seq fun r hr => ?_
      obtain ⟨free_page, table⟩ := r
      obtain ⟨hlt, hfree, hbelow, M⟩ := hr
      dsimp only at hlt hfree hbelow M ⊢
      refine ((mapUnmapped_spec I.grown).allow fun e he => .inl he).seq fun r hr => ?_
      obtain ⟨temp_page_size, t'⟩ := r
      obtain ⟨htemp, G⟩ := hr
      refine ih (I.next hlt hfree hbelow M htemp G hgoing) ?_
      dsimp only
      omega
    · rename_i hcond
      refine ⟨I, by omega, by omega, (I.temp (by omega)).mp (by omega)⟩

/-! ### The constructor -/

/-- The first `i` bits are copied, the others stay. -/
theorem copyBits_spec (table : Bitmap) {bm : Bitmap} (hok : bm.Ok) (hi : i ≤ bm.size_) :
    (copyBits table i bm).Ok ∧ (copyBits table i bm).size_ = bm.size_ ∧
      ∀ k, Bitmap.getBit (copyBits table i bm).bitmap_ k = true ↔
        Bitmap.getBit bm.bitmap_ k = true ∨ k < i ∧ Bitmap.getBit table.bitmap_ k = true := by
  induction i with
  | zero => exact ⟨hok, rfl, fun k => ⟨.inl, fun hor => hor.resolve_right fun hand => absurd hand.1 (Nat.not_lt_zero k)⟩⟩
  | succ i ih =>
    obtain ⟨hok', hsize', hbits'⟩ := ih (by omega)
    rw [copyBits]
    have hlt : i < (copyBits table i bm).size_ := by omega
    split
    · rename_i hset
      refine ⟨Bitmap.setBit_ok hok' hlt, (Bitmap.setBit_size _ _).trans hsize', fun k => ?_⟩
      rw [Bitmap.getBit_setBit hok' hlt]
      split
      · rename_i heq
        exact ⟨fun _ => .inr ⟨by omega, heq ▸ hset⟩, fun _ => rfl⟩
      · rename_i hne
        rw [hbits']
        exact or_congr_right (and_congr_left fun _ => by omega)
    · rename_i hclear
      refine ⟨hok', hsize', fun k => (hbits' k).trans (or_congr_right ?_)⟩
      constructor
      · exact fun hand => ⟨by omega, hand.2⟩
      · refine fun hand => ⟨Nat.lt_of_le_of_ne (Nat.le_of_lt_succ hand.1) fun heq => ?_, hand.2⟩
        exact hclear (heq ▸ hand.2)

theorem lowestUnreserved_below (bm : Bitmap) (N : ℕ) :
    ∀ p < lowestUnreserved bm N, Bitmap.getBit bm.bitmap_ p = true := by
  intro p hp
  rw [lowestUnreserved] at hp
  cases hfind : (List.range N).find? fun p => !Bitmap.getBit bm.bitmap_ p with
  | none =>
    rw [hfind] at hp
    exact absurd hp (Nat.not_lt_zero p)
  | some q =>
    rw [hfind] at hp
    have hbefore := (List.find?_range_eq_some.mp hfind).2.2 p hp
    simpa using hbefore

/-- A page of the kernel is mapped to `p`. -/
def BootInfo.KernelPage (b : BootInfo) (p : ℕ) : Prop :=
  ∃ v, RESERVED_START ≤ v ∧ v < RESERVED_END ∧ b.tables.Backs v p

/-- The pages that are marked before the heap is reserved. -/
def BootInfo.Taken (b : BootInfo) (p : ℕ) : Prop :=
  (¬Usable b.memory_maps p ∨ ReservedFrom b.tables RESERVED_START p) ∨ ModulePage b.module_maps p

/-- The pages that the heap has to have. -/
noncomputable def BootInfo.neededPages (b : BootInfo) : ℕ :=
  max (b.number_of_pages_ / 8 / PAGE_SIZE + 1) (heapBound b.number_of_pages_
    (heapPages b.number_of_pages_ (b.number_of_pages_ - freePages b.number_of_pages_ b.Taken)))

/-- The free pages suffice until the loop for the heap can end. -/
def BootInfo.HeapFits (b : BootInfo) : Prop :=
  ∃ m ≤ freePages b.number_of_pages_ b.Taken, EndsAfter b.tables (ModuleVpn b.module_maps b.number_of_pages_)
    (pageOf b.getFreeKernelMemoryStart) b.neededPages m

/-- The pages that nobody may be given. -/
def Held (b : BootInfo) (r : Constructed) (p : ℕ) : Prop :=
  ¬Usable b.memory_maps p ∨ b.KernelPage p ∨ ModulePage b.module_maps p ∨ p ∈ r.heap

structure Complete (b : BootInfo) (r : Constructed) : Prop where
  marked : ∀ p < b.number_of_pages_, Held b r p → Bitmap.getBit r.pm.page_usage_table_.bitmap_ p = true
  /-- Whatever is allocated and freed from then on, no such page is part of an allocation. -/
  never_allocated : ∀ s₀ s runs freed, s₀.pm = r.pm → PageOps s₀ s runs freed →
    ∀ run ∈ runs, ∀ p, InRun run.1 run.2 p → ¬Held b r p

/-- The constructor stays inside `page_usage_table` and reserves what it has to. -/
def Reserves (b : BootInfo) : Prop := ∃ r, construct b = .ok r ∧ Complete b r

theorem used_pages_eq (M : Marks n P table) : table.num_bits_set_ = n - freePages n P := by
  classical
  have hset : {p ∈ Finset.range n | Bitmap.getBit table.bitmap_ p = true} = {p ∈ Finset.range n | P p} :=
    Finset.filter_congr fun p hp => M.bits p (Finset.mem_range.mp hp)
  have hsum := Finset.card_filter_add_card_filter_not (s := Finset.range n) P
  have hfree : freePages n P = {p ∈ Finset.range n | ¬P p}.card := by
    unfold freePages
    congr
  rw [Finset.card_range] at hsum
  rw [M.ok.count, M.size, Nat.count_eq_card_filter_range, hset, hfree]
  exact Nat.eq_sub_of_add_eq hsum

variable {b : BootInfo} {r : Constructed}

/-- A bitmap that marks the held pages, and page 0, is enough. -/
theorem complete_of_booted (hbooted : ∀ s₀ : Kernel, s₀.pm = r.pm → Booted s₀)
    (hmarked : ∀ p < b.number_of_pages_, Held b r p →
      Bitmap.getBit r.pm.page_usage_table_.bitmap_ p = true)
    (hnumber : r.pm.number_of_pages_ = b.number_of_pages_) : Complete b r := by
  refine ⟨hmarked, fun s₀ s runs freed hpm hops run hrun p hp hheld => ?_⟩
  have hunused := (((runsInv (hbooted s₀ hpm) hops).fresh run hrun).2 p hp)
  rw [hpm] at hunused
  have hbit := hmarked p (hnumber ▸ hunused.1) hheld
  rw [hunused.2] at hbit
  cases hbit

theorem takeHeap_spec (hN : b.number_of_pages_ ≤ 4096 * 8 * 2)
    (M : Marks b.number_of_pages_ b.Taken table)
    (G : Grown b.tables t (ModuleVpn b.module_maps b.number_of_pages_)) :
    Ensures (fun e => e.Assertion ∨ OutOfBounds e ∧ ¬b.HeapFits) (takeHeap b t table) fun r =>
      Complete b r ∧ b.HeapFits := by
  have hsize : b.boot_bitmap_size = b.number_of_pages_ := min_eq_right hN
  have hneeded : b.neededPages = max (b.number_of_pages_ / 8 / PAGE_SIZE + 1) (heapBound b.number_of_pages_
      (heapPages b.number_of_pages_ table.num_bits_set_)) := by
    rw [used_pages_eq M]
    rfl
  have I : HeapInv b.number_of_pages_ b.Taken b.tables (ModuleVpn b.module_maps b.number_of_pages_)
      (pageOf b.getFreeKernelMemoryStart) b.neededPages
      ⟨t, table, pageOf b.getFreeKernelMemoryStart, 0, 0, 0, []⟩ := by
    constructor
    · exact M.congr fun p _ => (or_iff_left List.not_mem_nil).symm
    · exact Nat.zero_le _
    · exact fun p hp => absurd hp (Nat.not_lt_zero p)
    · exact fun hpos => absurd hpos (Nat.lt_irrefl 0)
    · exact fun p hp => absurd hp List.not_mem_nil
    · exact List.nodup_nil
    · rfl
    · rfl
    · exact G.congr fun v => (or_iff_left (by dsimp only; omega)).symm
    · exact fun hpos => absurd hpos (Nat.lt_irrefl 0)
    · exact fun m hm => absurd hm (Nat.not_lt_zero m)
  have hpasses : freePages b.number_of_pages_ b.Taken < table.size_ + 1 + 0 := by
    rw [M.size]
    exact Nat.lt_succ_of_le (freePages_le _ _)
  rw [takeHeap, ensures_bind]
  refine (ensures_assert.mpr fun _ => ?_).allow fun e he => .inl he
  refine ((reserveHeap_spec (Nat.succ_pos _) hneeded I hpasses).allow fun e he => he.imp_right fun h => ?_).seq
    fun s hs => ?_
  · exact ⟨h.1, fun ⟨m, hm, hends⟩ => h.2 m hm hends⟩
  · obtain ⟨I', hends⟩ := hs
    have hnew : b.boot_bitmap_size ≤ (Bitmap.new b.number_of_pages_).size_ := hsize.le
    obtain ⟨hok, hcopied, hbits⟩ := copyBits_spec s.page_usage_table (Bitmap.new_ok _) hnew
    have hmarks : ∀ p < b.number_of_pages_, b.Taken p ∨ p ∈ s.heap → Bitmap.getBit
        (copyBits s.page_usage_table b.boot_bitmap_size (Bitmap.new b.number_of_pages_)).bitmap_ p = true := by
      intro p hp htaken
      exact (hbits p).mpr (.inr ⟨hsize ▸ hp, (I'.marks.bits p hp).mpr htaken⟩)
    refine (ensures_bind _ _).mpr ((ensures_assert.mpr fun hlowest => ?_).allow fun e he => .inl he)
    refine ⟨complete_of_booted (fun s₀ hpm => ?_) (fun p hp hheld => hmarks p hp ?_) rfl, _, ?_, hends⟩
    · constructor
      · rw [hpm]
        exact hok
      · rw [hpm]
        exact hcopied
      · rw [hpm]
        exact hmarks 0 (by omega) (I'.zero hends.2.1)
      · rw [hpm]
        exact lowestUnreserved_below _ _
      · rw [hpm]
        exact Nat.le_of_lt hlowest
    · obtain hus | ⟨v, hv, hlt, hp⟩ | hmod | hheap := hheld
      · exact .inl (.inl (.inl hus))
      · exact .inl (.inl (.inr ⟨v, hv, hlt, .inl hp⟩))
      · exact .inl (.inr hmod)
      · exact .inr hheap
    · exact I'.le_freePages

/-- Without a page, the first look at the kernel mapping fails. -/
theorem reserveKernelPages_zero (hi : i < RESERVED_END) :
    Ensures BootStop.Assertion (reserveKernelPages t 0 (passes + 1) i table) fun _ => False := by
  have hnone : ¬t.pml4_ppn < 0 := Nat.not_lt_zero _
  rw [reserveKernelPages, if_pos hi]
  exact ⟨.ppnOutOfRange, by simp⟩

/-- A machine whose pages all have a bit in the table. -/
theorem construct_spec (hN : b.number_of_pages_ ≤ 4096 * 8 * 2) :
    Ensures (fun e => e.Assertion ∨ OutOfBounds e ∧ ¬b.HeapFits) (construct b) fun r =>
      Complete b r ∧ b.HeapFits := by
  have hsize : b.boot_bitmap_size = b.number_of_pages_ := min_eq_right hN
  rw [construct, hsize]
  have hclear := clearRegions_spec b.memory_maps (fullTable_marks b.number_of_pages_)
    (Nat.le_refl b.number_of_pages_)
  refine (hclear.allow fun e ⟨k, _, hge, hlt⟩ => absurd hlt (Nat.not_lt_of_le hge)).seq fun table hcleared => ?_
  obtain ⟨M, _⟩ := hcleared
  by_cases hzero : b.number_of_pages_ = 0
  · rw [hzero]
    exact ((reserveKernelPages_zero (by decide)).allow fun e he => .inl he).seq fun _ hfalse => hfalse.elim
  · have hkernel := reserveKernelPages_spec (t := b.tables) (i := RESERVED_START) M (Nat.lt_succ_self _)
      (.inl (by decide))
    refine (hkernel.allow fun e he => .inl he).seq fun table₁ M₁ => ?_
    have hmodules := reserveModules_spec b.module_maps M₁ (Grown.refl b.tables) hzero
    refine (hmodules.allow fun e he => .inl he).seq fun taken htaken => ?_
    obtain ⟨t, table₂⟩ := taken
    obtain ⟨M₂, G⟩ := htaken
    refine takeHeap_spec hN (M₂.congr fun p _ => ?_) (G.congr fun v => or_iff_right id)
    rw [true_and]
    rfl

/-- The last loop copies no bit behind those of the table on the stack. -/
theorem takeHeap_large : Ensures (fun _ => True) (takeHeap b t table) fun r =>
    ∀ p, b.boot_bitmap_size ≤ p → Bitmap.getBit r.pm.page_usage_table_.bitmap_ p = false := by
  rw [takeHeap]
  refine ensures_true.seq fun _ _ => ensures_true.seq fun s _ => ensures_true.seq fun _ _ => ?_
  intro p hp
  obtain ⟨_, _, hbits⟩ := copyBits_spec s.page_usage_table (Bitmap.new_ok b.number_of_pages_)
    (min_le_right (4096 * 8 * 2) b.number_of_pages_)
  rw [← Bool.not_eq_true]
  intro hset
  obtain hnew | hcopied := (hbits p).mp hset
  · rw [Bitmap.getBit_new] at hnew
    exact Bool.false_ne_true hnew
  · exact absurd hcopied.1 (Nat.not_lt_of_le hp)

/-- On a larger machine, the first page without a bit is either cleared or left out of the bitmap. -/
theorem construct_large (hN : 4096 * 8 * 2 < b.number_of_pages_) (hr : construct b = .ok r) :
    ¬Complete b r := by
  intro hcomplete
  have hsize : b.boot_bitmap_size = 4096 * 8 * 2 := min_eq_left (Nat.le_of_lt hN)
  have hlarge : Ensures (fun _ => True) (construct b) fun r => ¬Usable b.memory_maps (4096 * 8 * 2) ∧
      Bitmap.getBit r.pm.page_usage_table_.bitmap_ (4096 * 8 * 2) = false := by
    rw [construct, hsize]
    have hclear := clearRegions_spec b.memory_maps (fullTable_marks (4096 * 8 * 2)) (Nat.le_of_lt hN)
    refine (hclear.allow fun _ _ => trivial).seq fun table hcleared => ensures_true.seq fun table₁ _ =>
      ensures_true.seq fun taken _ => ?_
    obtain ⟨t, table₂⟩ := taken
    refine takeHeap_large.mono fun r hclear => ⟨fun hus => ?_, hclear _ hsize.le⟩
    exact Nat.lt_irrefl _ (hcleared.2 _ hN hus)
  obtain ⟨hunusable, hclear⟩ := hlarge.ok hr
  have hmarked := hcomplete.marked _ hN (.inl hunusable)
  rw [hclear] at hmarked
  cases hmarked

/-- A usable page that has no bit in the table on the stack is not cleared in it. -/
theorem construct_outOfBounds (hp : page < b.number_of_pages_) (husable : Usable b.memory_maps page)
    (hout : b.boot_bitmap_size ≤ page) : ∃ bit_number, construct b = .error (.outOfBounds bit_number) := by
  have hclear := clearRegions_spec b.memory_maps (fullTable_marks b.boot_bitmap_size)
    (min_le_right (4096 * 8 * 2) b.number_of_pages_)
  cases hr : clearRegions b.number_of_pages_ b.memory_maps (fullTable b.boot_bitmap_size) with
  | error e =>
    obtain ⟨bit_number, rfl, _⟩ := hclear.error hr
    refine ⟨bit_number, ?_⟩
    rw [construct, hr]
    rfl
  | ok table => exact absurd ((hclear.ok hr).2 page hp husable) (Nat.not_lt_of_le hout)

/-- The constructor reserves what it has to exactly on the machines whose pages all have a bit in the
table on the stack, and whose free pages suffice for the heap. -/
theorem boot_reserves_iff (h : ∀ e, construct b ≠ .error (.assertion e)) :
    Reserves b ↔ b.number_of_pages_ ≤ 4096 * 8 * 2 ∧ b.HeapFits := by
  constructor
  · rintro ⟨r, hr, hcomplete⟩
    have hN : b.number_of_pages_ ≤ 4096 * 8 * 2 := by
      by_contra hlarge
      exact construct_large (Nat.lt_of_not_le hlarge) hr hcomplete
    exact ⟨hN, ((construct_spec hN).ok hr).2⟩
  · rintro ⟨hN, hfits⟩
    have hspec := construct_spec hN
    cases hr : construct b with
    | error e =>
      obtain ⟨a, rfl⟩ | ⟨_, hnot⟩ := hspec.error hr
      · exact absurd hr (h a)
      · exact absurd hfits hnot
    | ok r => exact ⟨r, hr, (hspec.ok hr).1⟩

/-! ### Two machines -/

def tableEntry (p : ℕ) : Word := page_ppn.put (present.put 0 1) p

/-- The tables of `initialisePaging`, with nothing mapped yet. -/
def bootTables : KernelTables where
  pml4_ppn := 2
  kernel_page_map_level_4 i := if i = 511 then tableEntry 3 else 0
  kernel_page_directory_pointer_table _ i := if i = 510 then tableEntry 4 else 0
  kernel_page_directory _ i := if i < 8 then tableEntry (5 + i) else 0
  kernel_page_table _ _ := 0

theorem reserveKernelPages_unmapped (h : ∀ v, i ≤ v → v < RESERVED_END →
    ∃ m, t.resolveMapping n v = .ok m ∧ m.page_size = 0) (hpasses : RESERVED_END - i < passes) :
    reserveKernelPages t n passes i table = .ok table := by
  induction passes generalizing i with
  | zero => exact absurd hpasses (Nat.not_lt_zero _)
  | succ passes ih =>
    rw [reserveKernelPages]
    split
    · rename_i hi
      obtain ⟨m, hm, hsize⟩ := h i (Nat.le_refl i) hi
      have hnext := ih (fun v hv => h v (Nat.le_of_succ_le hv)) (by omega)
      rw [hm]
      show (Boot.assert _ _ >>= fun _ => _) = _
      rw [hsize, Boot.assert, if_pos (.inl rfl), if_neg (Nat.lt_irrefl 0)]
      exact hnext
    · rfl

theorem bootTables_unmapped (hstart : RESERVED_START ≤ v) (hend : v < RESERVED_END) :
    bootTables.page_size v = 0 ∧ ∃ m, bootTables.resolveMapping 16 v = .ok m ∧ m.page_size = 0 := by
  have hpdpti : v / PAGE_TABLE_ENTRIES / PAGE_TABLE_ENTRIES % PAGE_TABLE_ENTRIES = 510 := by
    unfold RESERVED_START RESERVED_END PAGE_TABLE_ENTRIES at *
    omega
  have hpdpte : bootTables.pdpte v = tableEntry 4 := by
    rw [pdpte, hpdpti]
    rfl
  have hentries : ∀ i < 8, page_ppn.get (tableEntry (5 + i)) < 16 ∧ ¬size.get (tableEntry (5 + i)) ≠ 0 := by
    decide
  have hpde : (page_ppn.get (bootTables.pde v) < 16 ∧ ¬size.get (bootTables.pde v) ≠ 0) := by
    rw [pde, hpdpte]
    dsimp only [bootTables]
    split
    · rename_i hlt
      exact hentries _ hlt
    · decide
  have hsize : bootTables.page_size v = 0 := by
    have hsmall : ¬size.get (tableEntry 4) ≠ 0 := by decide
    have hpte : present.get (bootTables.pte v) = 0 := BitField.get_zero _
    rw [page_size, hpdpte, if_neg hsmall, if_neg hpde.2, if_pos hpte, ite_self, ite_self]
  exact ⟨hsize, resolveMapping_unmapped (by decide) (by rw [hpdpte]; decide) hpde.1 hsize⟩

/-- What is left when the first two loops are known. -/
theorem construct_eq {table₁ : Bitmap}
    (hclear : clearRegions b.number_of_pages_ b.memory_maps (fullTable b.boot_bitmap_size) = pure table)
    (hkernel : reserveKernelPages b.tables b.number_of_pages_ (RESERVED_END - RESERVED_START + 1) RESERVED_START
      table = pure table₁) :
    construct b = (do
      let (t, table) ← reserveModules b.number_of_pages_ b.module_maps b.tables table₁
      takeHeap b t table) := by
  rw [construct, hclear, pure_bind, hkernel, pure_bind]

/-- 64 KiB, of which the first two pages are not usable, with a module in page 3. -/
def smallMachine : BootInfo where
  memory_maps := [⟨0x2000, 0x10000, 1⟩]
  module_maps := [⟨0x3000, 0x3FFF⟩]
  kernel_end_address := 0xFFFFFFFF80002000
  tables := bootTables

theorem smallMachine_kernel : reserveKernelPages bootTables 16 (RESERVED_END - RESERVED_START + 1) RESERVED_START
    table = .ok table :=
  reserveKernelPages_unmapped (fun _ hv hlt => (bootTables_unmapped hv hlt).2) (Nat.lt_succ_self _)

theorem smallMachine_runs : ∃ r, construct smallMachine = .ok r := by
  have hrest : (do
      let table ← clearRegions 16 smallMachine.memory_maps (fullTable 16)
      let (t, table) ← reserveModules 16 smallMachine.module_maps bootTables table
      takeHeap smallMachine t table).toOption.isSome = true := by decide +kernel
  have hnumber : smallMachine.number_of_pages_ = 16 := by decide
  have hsize : smallMachine.boot_bitmap_size = 16 := by decide
  cases hclear : clearRegions 16 smallMachine.memory_maps (fullTable 16) with
  | error e =>
    rw [hclear] at hrest
    cases hrest
  | ok table =>
    have hconstruct := construct_eq (b := smallMachine) (by rw [hnumber, hsize]; exact hclear)
      (by rw [hnumber]; exact smallMachine_kernel)
    rw [hnumber] at hconstruct
    rw [hclear] at hrest
    cases hr : construct smallMachine with
    | error e =>
      rw [hconstruct] at hr
      have hnone : (Except.error e : Boot Constructed).toOption.isSome = true := hr ▸ hrest
      cases hnone
    | ok r => exact ⟨r, rfl⟩

theorem smallMachine_fits : smallMachine.HeapFits := by
  have hnumber : smallMachine.number_of_pages_ = 16 := by decide
  have hstart : pageOf smallMachine.getFreeKernelMemoryStart = RESERVED_START + 4 := by decide
  have hneeded : smallMachine.neededPages = 1 := by
    rw [BootInfo.neededPages, hnumber]
    rfl
  have hfree : ¬smallMachine.Taken 2 := by
    rintro ((hus | ⟨v, hv, hlt, hp⟩) | hmod)
    · exact hus ⟨_, List.mem_singleton_self _, by decide⟩
    · exact not_reservedBy_of_unmapped (bootTables_unmapped hv hlt).1 _ hp
    · obtain ⟨m, hmem, hm⟩ := hmod
      cases List.mem_singleton.mp hmem
      exact absurd hm (by decide)
  refine ⟨1, ?_, hneeded.le, Nat.one_pos, ?_⟩
  · rw [hnumber]
    exact freePages_pos (by decide) hfree
  · rw [hstart, hnumber]
    refine ⟨(bootTables_unmapped (by decide) (by decide)).1, ?_⟩
    rintro v (⟨p, hp, ⟨m, hmem, hm⟩, rfl⟩ | hv)
    · cases List.mem_singleton.mp hmem
      have hthree : p = 3 := by
        have hfirst : ModuleMap.start_page ⟨0x3000, 0x3FFF⟩ = 3 := by decide
        have hlast : ModuleMap.end_page ⟨0x3000, 0x3FFF⟩ = 3 := by decide
        omega
      rw [hthree]
      decide
    · omega

theorem boot_reserves_iff_small : Reserves smallMachine := by
  obtain ⟨r, hr⟩ := smallMachine_runs
  refine (boot_reserves_iff fun e hassert => ?_).mpr ⟨by decide, smallMachine_fits⟩
  rw [hr] at hassert
  cases hassert

/-- 512 MiB, with the hole below 1 MiB. -/
def largeMachine : BootInfo where
  memory_maps := [⟨0, 0x9FC00, 1⟩, ⟨0x100000, 0x20000000, 1⟩]
  module_maps := []
  kernel_end_address := 0xFFFFFFFF80400000
  tables := bootTables

theorem largeMachine_outOfBounds : ∃ k, construct largeMachine = .error (.outOfBounds k) := by
  have hnumber : largeMachine.number_of_pages_ = 131072 := by decide
  have husable : Usable largeMachine.memory_maps 65536 :=
    ⟨_, List.mem_cons_of_mem _ (List.mem_singleton_self _), by decide⟩
  exact construct_outOfBounds (by omega) husable (min_le_left _ _)

/-- No assertion fails, and the first page that has no bit is cleared all the same. -/
theorem boot_writes_outside : (∃ bit_number, construct largeMachine = .error (.outOfBounds bit_number)) ∧
    ¬Reserves largeMachine := by
  obtain ⟨bit_number, hstop⟩ := largeMachine_outOfBounds
  refine ⟨⟨bit_number, hstop⟩, fun hreserves => ?_⟩
  obtain ⟨r, hr, _⟩ := hreserves
  rw [hstop] at hr
  cases hr

end KPanic.PageManagerBoot
