import KPanic.Mm.Kernel

/-!
# `common/source/mm/PageManager.cpp`: `allocPPN` and `freePPN`

`PmInv held pm memory` says that the bitmap marks exactly the pages in `held` and that the free
pages are filled with 0xFF, which is what `allocPPN` checks and `freePPN` restores.
-/

namespace KPanic

open BitField (Word)
open Function
open Wp

/-- `reservePages`; `num` is at least 1 in every call. -/
def reservePages (number_of_pages_ : ℕ) : ℕ → ℕ → Bitmap → Bool × Bitmap
  | 0, _, bm => (false, bm)
  | num + 1, ppn, bm =>
    if ppn < number_of_pages_ ∧ Bitmap.getBit bm.bitmap_ ppn = false then
      if num = 0 then (true, (bm.setBit ppn).2)
      else
        match reservePages number_of_pages_ num (ppn + 1) bm with
        | (true, bm) => (true, (bm.setBit ppn).2)
        | (false, bm) => (false, bm)
    else (false, bm)

/-- The loop of `allocPPN` over the candidates `p`, `passes` of them; 0 says that none was found. -/
def findPages (number_of_pages_ num : ℕ) : ℕ → ℕ → Bitmap → ℕ × Bitmap
  | 0, _, bm => (0, bm)
  | passes + 1, p, bm =>
    if p % num ≠ 0 then findPages number_of_pages_ num passes (p + 1) bm
    else
      match reservePages number_of_pages_ num p bm with
      | (true, bm) => if p ≠ 0 then (p, bm) else findPages number_of_pages_ num passes (p + 1) bm
      | (false, bm) => findPages number_of_pages_ num passes (p + 1) bm

/-- The loop that moves `lowest_unreserved_page_` up. -/
def skipReserved (bm : Bitmap) : ℕ → ℕ → ℕ
  | 0, p => p
  | passes + 1, p => if Bitmap.getBit bm.bitmap_ p then skipReserved bm passes (p + 1) else p

def PageManager.reserve (pm : PageManager) (page_size : ℕ) : ℕ × PageManager :=
  let (found, bm) := findPages pm.number_of_pages_ (page_size / PAGE_SIZE)
    (pm.number_of_pages_ - pm.lowest_unreserved_page_) pm.lowest_unreserved_page_
    pm.page_usage_table_
  (found, { pm with
    page_usage_table_ := bm
    lowest_unreserved_page_ := skipReserved bm
      (pm.number_of_pages_ - pm.lowest_unreserved_page_) pm.lowest_unreserved_page_ })

/-- `memnotchr` finds nothing: the words from the start of `ppn` on are filled with 0xFF. -/
def untouched (memory : ℕ → Page) (ppn : ℕ) (page_size : ℕ) : Bool :=
  (List.range (page_size / 8)).all fun i =>
    memory (ppn + i / PAGE_TABLE_ENTRIES) (i % PAGE_TABLE_ENTRIES) == BitVec.allOnes 64

/-- `memset` on `page_size` bytes from the start of `ppn`. -/
def fill (memory : ℕ → Page) (ppn : ℕ) (page_size : ℕ) (w : Word) : ℕ → Page := fun p =>
  if ppn ≤ p ∧ p < ppn + page_size / PAGE_SIZE then fun _ => w else memory p

def allocPPN (page_size : ℕ) : Kern ℕ := do
  let s ← get
  let (found, pm) := s.pm.reserve page_size
  set { s with pm := pm }
  Kern.assert (found ≠ 0) .outOfMemory
  Kern.assert (untouched s.memory found page_size = true) .pageModifiedAfterFree
  set { s with pm := pm, memory := fill s.memory found page_size 0 }
  return found

/-- `COWManager::ppnShared(uint32)` -/
def ppnShared (ppn : ℕ) : Kern Bool := do
  let s ← get
  return !(s.cow_map_ ppn).isEmpty

/-- The loop of `freePPN`. -/
def unsetPages : ℕ → ℕ → Bitmap → Option Bitmap
  | 0, _, bm => some bm
  | num + 1, p, bm =>
    if Bitmap.getBit bm.bitmap_ p then unsetPages num (p + 1) (bm.unsetBit p).2 else none

def freePPN (page_number : ℕ) (page_size : ℕ) : Kern PUnit := do
  if ← ppnShared page_number then return
  let s ← get
  let memory := fill s.memory page_number page_size (BitVec.allOnes 64)
  let lowest := if page_number < s.pm.lowest_unreserved_page_ then page_number
    else s.pm.lowest_unreserved_page_
  match unsetPages (page_size / PAGE_SIZE) page_number s.pm.page_usage_table_ with
  | none => throw .doubleFree
  | some bm =>
    set { s with
      memory := memory
      pm := { s.pm with page_usage_table_ := bm, lowest_unreserved_page_ := lowest } }

/-! ### Which pages are in use -/

structure PmInv (held : ℕ → Prop) (pm : PageManager) (memory : ℕ → Page) : Prop where
  ok : pm.page_usage_table_.Ok
  bits : pm.page_usage_table_.size_ = pm.number_of_pages_
  few : pm.number_of_pages_ ≤ 2 ^ 28
  used : ∀ {p}, p < pm.number_of_pages_ →
    (Bitmap.getBit pm.page_usage_table_.bitmap_ p = true ↔ held p)
  bound : ∀ {p}, held p → p < pm.number_of_pages_
  zero : held 0
  clean : ∀ {p}, p < pm.number_of_pages_ → ¬held p →
    ∀ i < PAGE_TABLE_ENTRIES, memory p i = BitVec.allOnes 64
  below : ∀ {p}, p < pm.lowest_unreserved_page_ → held p

variable {held : ℕ → Prop} {pm : PageManager} {memory memory' : ℕ → Page} {s : Kernel}

theorem PmInv.congr {held' : ℕ → Prop} (h : PmInv held pm memory) (hheld : ∀ p, held' p ↔ held p) :
    PmInv held' pm memory := by
  have heq : held' = held := funext fun p => propext (hheld p)
  rwa [heq]

/-- Only the contents of free pages matter. -/
theorem PmInv.write (h : PmInv held pm memory) (hsame : ∀ p, ¬held p → memory' p = memory p) :
    PmInv held pm memory' :=
  { h with clean := fun hp hfree i hi => by rw [hsame _ hfree]; exact h.clean hp hfree i hi }

theorem findPages_one {n passes p : ℕ} {bm : Bitmap} {q : ℕ} {bm' : Bitmap}
    (h : findPages n 1 passes p bm = (q, bm')) (hq : q ≠ 0) (h0 : Bitmap.getBit bm.bitmap_ 0 = true) :
    p ≤ q ∧ q < n ∧ Bitmap.getBit bm.bitmap_ q = false ∧ bm' = (bm.setBit q).2 := by
  induction passes generalizing p with
  | zero =>
    cases h
    exact absurd rfl hq
  | succ passes ih =>
    simp only [findPages, Nat.mod_one, ne_eq, not_true_eq_false, if_false] at h
    by_cases hfree : p < n ∧ Bitmap.getBit bm.bitmap_ p = false
    · have hp : p ≠ 0 := by
        intro hp
        rw [hp, h0] at hfree
        cases hfree.2
      simp only [reservePages, hfree, and_self, if_true, hp, not_false_eq_true] at h
      cases h
      exact ⟨Nat.le_refl _, hfree.1, hfree.2, rfl⟩
    · simp only [reservePages, hfree, if_false] at h
      obtain ⟨hle, hrest⟩ := ih h
      exact ⟨by omega, hrest⟩

theorem skipReserved_below {bm : Bitmap} {passes lowest p : ℕ}
    (h : ∀ q < lowest, Bitmap.getBit bm.bitmap_ q = true) (hp : p < skipReserved bm passes lowest) :
    Bitmap.getBit bm.bitmap_ p = true := by
  induction passes generalizing lowest with
  | zero => exact h p hp
  | succ passes ih =>
    rw [skipReserved] at hp
    split at hp
    · rename_i hset
      refine ih (fun q hq => ?_) hp
      by_cases hlow : q = lowest
      · rw [hlow, hset]
      · exact h q (by omega)
    · exact h p hp

theorem skipReserved_le {bm : Bitmap} {passes lowest n : ℕ} (h : lowest + passes ≤ n) :
    skipReserved bm passes lowest ≤ n := by
  induction passes generalizing lowest with
  | zero => exact h
  | succ passes ih =>
    rw [skipReserved]
    split
    · exact ih (by omega)
    · omega

theorem fill_page (memory : ℕ → Page) (ppn : ℕ) (w : Word) :
    fill memory ppn PAGE_SIZE w = update memory ppn fun _ => w := by
  funext p
  by_cases hp : p = ppn
  · subst hp
    simp [fill, PAGE_SIZE]
  · have hout : ¬(ppn ≤ p ∧ p < ppn + PAGE_SIZE / PAGE_SIZE) := by
      simp only [PAGE_SIZE]
      omega
    rw [fill, if_neg hout, update_of_ne hp]

theorem untouched_page {p : ℕ} (h : ∀ i < PAGE_TABLE_ENTRIES, memory p i = BitVec.allOnes 64) :
    untouched memory p PAGE_SIZE = true := by
  rw [untouched, List.all_eq_true]
  intro i hi
  have hlt : i < PAGE_TABLE_ENTRIES := List.mem_range.mp hi
  rw [Nat.div_eq_of_lt hlt, Nat.mod_eq_of_lt hlt, Nat.add_zero, h i hlt]
  exact beq_self_eq_true _

/-! ### What `allocPPN` and `freePPN` do -/

/-- The one assertion that a caller cannot rule out. -/
def OutOfMemory (e : Panic) : Prop := e = .outOfMemory

theorem PmInv.mark (h : PmInv held pm memory) {p : ℕ} (hp : p < pm.number_of_pages_) :
    PmInv (fun q => held q ∨ q = p)
      { pm with
        page_usage_table_ := (pm.page_usage_table_.setBit p).2
        lowest_unreserved_page_ := skipReserved (pm.page_usage_table_.setBit p).2
          (pm.number_of_pages_ - pm.lowest_unreserved_page_) pm.lowest_unreserved_page_ }
      (update memory p fun _ => 0) := by
  have hbit := Bitmap.getBit_setBit h.ok (by rwa [h.bits] : p < pm.page_usage_table_.size_)
  have hused : ∀ {q}, q < pm.number_of_pages_ →
      (Bitmap.getBit (pm.page_usage_table_.setBit p).2.bitmap_ q = true ↔ held q ∨ q = p) := by
    intro q hq
    rw [hbit q]
    split
    · rename_i hqp
      exact ⟨fun _ => .inr hqp, fun _ => rfl⟩
    · rename_i hqp
      rw [h.used hq]
      exact ⟨.inl, fun hor => hor.resolve_right hqp⟩
  have hlowest : pm.lowest_unreserved_page_ ≤ pm.number_of_pages_ := by
    by_contra hgt
    exact Nat.lt_irrefl _ (h.bound (h.below (Nat.lt_of_not_le hgt)))
  constructor
  · exact Bitmap.setBit_ok h.ok (by rwa [h.bits])
  · rw [Bitmap.setBit_size]
    exact h.bits
  · exact h.few
  · exact hused
  · intro q hq
    obtain hq | rfl := hq
    · exact h.bound hq
    · exact hp
  · exact .inl h.zero
  · intro q hq hnot i hi
    have hqp : q ≠ p := fun hqp => hnot (.inr hqp)
    rw [update_of_ne hqp]
    exact h.clean hq (fun hh => hnot (.inl hh)) i hi
  · intro q hq
    have hqn : q < pm.number_of_pages_ := Nat.lt_of_lt_of_le hq (skipReserved_le (by omega))
    refine (hused hqn).mp (skipReserved_below (fun j hj => ?_) hq)
    exact (hused (Nat.lt_of_lt_of_le hj hlowest)).mpr (.inl (h.below hj))

theorem PmInv.reserve (h : PmInv held pm memory) {p : ℕ} {pm' : PageManager}
    (hr : pm.reserve PAGE_SIZE = (p, pm')) (hp : p ≠ 0) :
    ¬held p ∧ pm'.number_of_pages_ = pm.number_of_pages_ ∧
      PmInv (fun q => held q ∨ q = p) pm' (update memory p fun _ => 0) ∧
      untouched memory p PAGE_SIZE = true := by
  have hone : PAGE_SIZE / PAGE_SIZE = 1 := by decide
  have hn : 0 < pm.number_of_pages_ := h.bound h.zero
  rw [PageManager.reserve, hone] at hr
  cases hr
  obtain ⟨-, hlt, hclear, hbm⟩ := findPages_one rfl hp ((h.used hn).mpr h.zero)
  have hfree := hclear
  rw [← Bool.not_eq_true, h.used hlt] at hfree
  refine ⟨hfree, rfl, ?_, untouched_page (h.clean hlt hfree)⟩
  have hmark := h.mark hlt
  rwa [← hbm] at hmark

theorem wp_allocPPN {Q : ℕ → Kernel → Prop} (h : PmInv held s.pm s.memory)
    (hQ : ∀ p pm', ¬held p → pm'.number_of_pages_ = s.pm.number_of_pages_ →
      PmInv (fun q => held q ∨ q = p) pm' (update s.memory p fun _ => 0) →
      Q p { s with pm := pm', memory := update s.memory p fun _ => 0 }) :
    wp OutOfMemory (allocPPN PAGE_SIZE) Q s := by
  cases hr : s.pm.reserve PAGE_SIZE with
  | mk p pm' =>
    simp only [allocPPN, wp_bind, wp_get, wp_set, Kern.assert, hr]
    by_cases hp : p = 0
    · rw [if_neg (not_not_intro hp), wp_throw]
      exact rfl
    · obtain ⟨hfree, hn, hpm, huntouched⟩ := h.reserve hr hp
      rw [if_pos hp, if_pos huntouched, fill_page, wp_pure, wp_pure, wp_pure]
      exact hQ p pm' hfree hn hpm

theorem wp_freePPN_shared {Q : PUnit → Kernel → Prop} {p : ℕ} (hp : s.cow_map_ p ≠ [])
    (hQ : Q ⟨⟩ s) : wp OutOfMemory (freePPN p PAGE_SIZE) Q s := by
  simp [freePPN, ppnShared, hp, hQ]

theorem PmInv.unmark (h : PmInv held pm memory) {p : ℕ} (hp : held p) (hp0 : p ≠ 0) :
    PmInv (fun q => held q ∧ q ≠ p)
      { pm with
        page_usage_table_ := (pm.page_usage_table_.unsetBit p).2
        lowest_unreserved_page_ :=
          if p < pm.lowest_unreserved_page_ then p else pm.lowest_unreserved_page_ }
      (update memory p fun _ => BitVec.allOnes 64) := by
  have hlt := h.bound hp
  have hbit := Bitmap.getBit_unsetBit h.ok (by rwa [h.bits] : p < pm.page_usage_table_.size_)
  constructor
  · exact Bitmap.unsetBit_ok h.ok (by rwa [h.bits])
  · rw [Bitmap.unsetBit_size]
    exact h.bits
  · exact h.few
  · intro q hq
    rw [hbit q]
    split
    · rename_i hqp
      simp [hqp]
    · rename_i hqp
      rw [h.used hq]
      exact ⟨fun hh => ⟨hh, hqp⟩, And.left⟩
  · exact fun hq => h.bound hq.1
  · exact ⟨h.zero, hp0.symm⟩
  · intro q hq hnot i hi
    by_cases hqp : q = p
    · rw [hqp, update_self]
    · rw [update_of_ne hqp]
      exact h.clean hq (fun hh => hnot ⟨hh, hqp⟩) i hi
  · intro q hq
    dsimp only at hq
    split at hq
    · exact ⟨h.below (by omega), by omega⟩
    · exact ⟨h.below hq, by omega⟩

theorem wp_freePPN {allowed : Panic → Prop} {Q : PUnit → Kernel → Prop} {p : ℕ} (h : PmInv held s.pm s.memory)
    (hp : held p) (hp0 : p ≠ 0) (hcow : s.cow_map_ p = [])
    (hQ : ∀ pm', pm'.number_of_pages_ = s.pm.number_of_pages_ →
      PmInv (fun q => held q ∧ q ≠ p) pm' (update s.memory p fun _ => BitVec.allOnes 64) →
      Q ⟨⟩ { s with pm := pm', memory := update s.memory p fun _ => BitVec.allOnes 64 }) :
    wp allowed (freePPN p PAGE_SIZE) Q s := by
  have hone : PAGE_SIZE / PAGE_SIZE = 1 := by decide
  have hset := (h.used (h.bound hp)).mpr hp
  simp only [freePPN, ppnShared, wp_bind, wp_get, wp_pure, hcow, List.isEmpty_nil, Bool.not_true,
    Bool.false_eq_true, if_false, hone, unsetPages, hset, if_true, fill_page, wp_set]
  exact hQ _ rfl (h.unmark hp hp0)

end KPanic
