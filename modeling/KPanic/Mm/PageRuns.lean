import Mathlib.Data.List.Pairwise
import KPanic.Mm.PageManager

/-!
# Runs of several pages

`allocPPN` finds the lowest free run of the size asked for, on a page number that is a multiple of
this size, for every history of allocations and frees.
-/

namespace KPanic

open Function
open Wp

variable {n num k p q passes : ℕ} {bm bm' : Bitmap} {memory : ℕ → Page} {pm : PageManager}

/-! ### The loops -/

def Unused (n : ℕ) (bm : Bitmap) (q : ℕ) : Prop := q < n ∧ Bitmap.getBit bm.bitmap_ q = false

def InRun (p k q : ℕ) : Prop := p ≤ q ∧ q < p + k

instance : Decidable (InRun p k q) := inferInstanceAs (Decidable (_ ∧ _))

/-- A run that `allocPPN` may take. -/
def FreeRun (n : ℕ) (bm : Bitmap) (p k : ℕ) : Prop := p % k = 0 ∧ ∀ q, InRun p k q → Unused n bm q

structure Marked (bm bm' : Bitmap) (p k : ℕ) : Prop where
  ok : bm'.Ok
  size : bm'.size_ = bm.size_
  bits : ∀ q, Bitmap.getBit bm'.bitmap_ q = if InRun p k q then true else Bitmap.getBit bm.bitmap_ q

theorem reservePages_true (h : bm.Ok) (hsize : bm.size_ = n) (hnum : num ≠ 0)
    (hr : reservePages n num p bm = (true, bm')) :
    (∀ q, InRun p num q → Unused n bm q) ∧ Marked bm bm' p num := by
  induction num generalizing p bm' with
  | zero => exact absurd rfl hnum
  | succ num ih =>
    rw [reservePages] at hr
    split at hr
    · rename_i hfree
      have hlt : p < bm.size_ := by omega
      split at hr
      · rename_i hlast
        cases hr
        subst hlast
        have honly : ∀ {q}, InRun p (0 + 1) q ↔ q = p := by
          intro q
          unfold InRun
          omega
        refine ⟨fun q hq => honly.mp hq ▸ hfree, Bitmap.setBit_ok h hlt, Bitmap.setBit_size bm p, ?_⟩
        intro q
        rw [Bitmap.getBit_setBit h hlt]
        exact if_congr honly.symm rfl rfl
      · rename_i hmore
        split at hr
        · rename_i tail htail
          cases hr
          obtain ⟨hrest, hmark⟩ := ih hmore htail
          have hcons : ∀ {q}, InRun p (num + 1) q ↔ q = p ∨ InRun (p + 1) num q := by
            intro q
            unfold InRun
            omega
          have hlt' : p < tail.size_ := by rw [hmark.size]; exact hlt
          refine ⟨fun q hq => ?_, Bitmap.setBit_ok hmark.ok hlt', ?_, fun q => ?_⟩
          · obtain rfl | hq := hcons.mp hq
            · exact hfree
            · exact hrest q hq
          · rw [Bitmap.setBit_size, hmark.size]
          · rw [Bitmap.getBit_setBit hmark.ok hlt', hmark.bits]
            by_cases hq : q = p
            · rw [if_pos hq, if_pos (hcons.mpr (.inl hq))]
            · rw [if_neg hq]
              refine if_congr ?_ rfl rfl
              rw [hcons]
              exact ⟨.inr, fun h => h.resolve_left hq⟩
        · cases hr
    · cases hr

/-- A reservation that fails half way has set no bit. -/
theorem reservePages_false (hnum : num ≠ 0) (hr : reservePages n num p bm = (false, bm')) :
    bm' = bm ∧ ∃ q, InRun p num q ∧ ¬Unused n bm q := by
  induction num generalizing p bm' with
  | zero => exact absurd rfl hnum
  | succ num ih =>
    rw [reservePages] at hr
    split at hr
    · split at hr
      · cases hr
      · rename_i hmore
        split at hr
        · cases hr
        · rename_i tail htail
          cases hr
          obtain ⟨htail', q, hq, hused⟩ := ih hmore htail
          refine ⟨htail', q, ?_, hused⟩
          unfold InRun at hq ⊢
          omega
    · rename_i hused
      cases hr
      exact ⟨rfl, p, ⟨Nat.le_refl p, by omega⟩, hused⟩

theorem freeRun_reserved (hk : k ≠ 0) (h0 : Bitmap.getBit bm.bitmap_ 0 = true) : ¬FreeRun n bm 0 k := by
  intro h
  have hfree := h.2 0 ⟨Nat.le_refl 0, by omega⟩
  rw [hfree.2] at h0
  cases h0

/-- The loop of `allocPPN`: the first run that is free, or none. -/
theorem findPages_spec (h : bm.Ok) (hsize : bm.size_ = n) (hk : k ≠ 0)
    (h0 : Bitmap.getBit bm.bitmap_ 0 = true) (hr : findPages n k passes p bm = (q, bm')) :
    (q = 0 → bm' = bm ∧ ∀ p', p ≤ p' → p' < p + passes → ¬FreeRun n bm p' k) ∧
    (q ≠ 0 → p ≤ q ∧ FreeRun n bm q k ∧ Marked bm bm' q k ∧
      ∀ p', p ≤ p' → p' < q → ¬FreeRun n bm p' k) := by
  induction passes generalizing p with
  | zero =>
    cases hr
    exact ⟨fun _ => ⟨rfl, fun p' hle hlt => by omega⟩, fun hq => absurd rfl hq⟩
  | succ passes ih =>
    -- a candidate that fails leaves the rest of the loop
    have skip : ¬FreeRun n bm p k → findPages n k passes (p + 1) bm = (q, bm') →
        (q = 0 → bm' = bm ∧ ∀ p', p ≤ p' → p' < p + (passes + 1) → ¬FreeRun n bm p' k) ∧
        (q ≠ 0 → p ≤ q ∧ FreeRun n bm q k ∧ Marked bm bm' q k ∧
          ∀ p', p ≤ p' → p' < q → ¬FreeRun n bm p' k) := by
      intro hp hrest
      obtain ⟨hnone, hsome⟩ := ih hrest
      constructor
      · intro hq
        refine ⟨(hnone hq).1, fun p' hle hlt => ?_⟩
        by_cases hpp : p' = p
        · rw [hpp]
          exact hp
        · exact (hnone hq).2 p' (by omega) (by omega)
      · intro hq
        obtain ⟨hle, hrun, hmark, hfirst⟩ := hsome hq
        refine ⟨by omega, hrun, hmark, fun p' hle' hlt => ?_⟩
        by_cases hpp : p' = p
        · rw [hpp]
          exact hp
        · exact hfirst p' (by omega) hlt
    rw [findPages] at hr
    split at hr
    · rename_i hmod
      exact skip (fun hrun => hmod hrun.1) hr
    · rename_i hmod
      split at hr
      · rename_i tail hres
        obtain ⟨hfree, hmark⟩ := reservePages_true h hsize hk hres
        have hrun : FreeRun n bm p k := ⟨not_not.mp hmod, hfree⟩
        split at hr
        · rename_i hp
          cases hr
          exact ⟨fun hq => absurd hq hp, fun _ =>
            ⟨Nat.le_refl _, hrun, hmark, fun p' hle hlt => by omega⟩⟩
        · rename_i hp
          rw [not_not.mp hp] at hrun
          exact absurd hrun (freeRun_reserved hk h0)
      · rename_i tail hres
        obtain ⟨rfl, q', hq', hused⟩ := reservePages_false hk hres
        exact skip (fun hrun => hused (hrun.2 q' hq')) hr

theorem unsetPages_spec (h : bm.Ok)
    (hset : ∀ q, InRun p k q → q < bm.size_ ∧ Bitmap.getBit bm.bitmap_ q = true) :
    ∃ bm', unsetPages k p bm = some bm' ∧ bm'.Ok ∧ bm'.size_ = bm.size_ ∧
      ∀ q, Bitmap.getBit bm'.bitmap_ q = if InRun p k q then false else Bitmap.getBit bm.bitmap_ q := by
  induction k generalizing p bm with
  | zero =>
    refine ⟨bm, rfl, h, rfl, fun q => ?_⟩
    rw [if_neg]
    unfold InRun
    omega
  | succ k ih =>
    have hcons : ∀ {q}, InRun p (k + 1) q ↔ q = p ∨ InRun (p + 1) k q := by
      intro q
      unfold InRun
      omega
    obtain ⟨hlt, hbit⟩ := hset p (hcons.mpr (.inl rfl))
    have hclear := Bitmap.getBit_unsetBit h hlt
    obtain ⟨bm', hrun, hok, hsize, hbits⟩ := ih (p := p + 1) (Bitmap.unsetBit_ok h hlt) (by
      intro q hq
      obtain ⟨hq', hb⟩ := hset q (hcons.mpr (.inr hq))
      rw [Bitmap.unsetBit_size, hclear, if_neg (by unfold InRun at hq; omega)]
      exact ⟨hq', hb⟩)
    refine ⟨bm', ?_, hok, by rw [hsize, Bitmap.unsetBit_size], fun q => ?_⟩
    · rw [unsetPages, if_pos hbit]
      exact hrun
    · rw [hbits, hclear]
      by_cases hq : q = p
      · rw [if_pos hq, if_pos (hcons.mpr (.inl hq)), ite_self]
      · rw [if_neg hq]
        refine if_congr ?_ rfl rfl
        rw [hcons]
        exact ⟨.inr, fun h => h.resolve_left hq⟩

/-! ### Contents -/

/-- The page is filled with 0xFF. -/
def Filled (memory : ℕ → Page) (q : ℕ) : Prop :=
  ∀ i < PAGE_TABLE_ENTRIES, memory q i = BitVec.allOnes 64

theorem untouched_iff : untouched memory p (k * PAGE_SIZE) = true ↔ ∀ q, InRun p k q → Filled memory q := by
  have hwords : k * PAGE_SIZE / 8 = k * PAGE_TABLE_ENTRIES := by
    simp only [PAGE_SIZE, PAGE_TABLE_ENTRIES]
    omega
  rw [untouched, List.all_eq_true, hwords]
  constructor
  · intro h q hq i hi
    obtain ⟨hle, hlt⟩ := hq
    have hmem := h ((q - p) * PAGE_TABLE_ENTRIES + i) (by
      rw [List.mem_range]
      simp only [PAGE_TABLE_ENTRIES] at hi ⊢
      omega)
    have hdiv : ((q - p) * PAGE_TABLE_ENTRIES + i) / PAGE_TABLE_ENTRIES = q - p := by
      simp only [PAGE_TABLE_ENTRIES] at hi ⊢
      omega
    have hmod : ((q - p) * PAGE_TABLE_ENTRIES + i) % PAGE_TABLE_ENTRIES = i := by
      simp only [PAGE_TABLE_ENTRIES] at hi ⊢
      omega
    rw [hdiv, hmod, beq_iff_eq, Nat.add_sub_cancel' hle] at hmem
    exact hmem
  · intro h i hi
    rw [List.mem_range] at hi
    rw [beq_iff_eq]
    refine h (p + i / PAGE_TABLE_ENTRIES) ⟨Nat.le_add_right _ _, ?_⟩ _ (Nat.mod_lt _ (by decide))
    simp only [PAGE_TABLE_ENTRIES] at hi ⊢
    omega

theorem fill_inRun {w : BitField.Word} (hq : InRun p k q) :
    fill memory p (k * PAGE_SIZE) w q = fun _ => w := by
  rw [fill, Nat.mul_div_cancel k (by decide)]
  exact if_pos hq

theorem fill_outside {w : BitField.Word} (hq : ¬InRun p k q) :
    fill memory p (k * PAGE_SIZE) w q = memory q := by
  rw [fill, Nat.mul_div_cancel k (by decide)]
  exact if_neg hq

/-! ### One call -/

variable {s s₀ s' : Kernel} {runs : List (ℕ × ℕ)} {freed : ℕ → Prop}

/-- What holds of the bitmap when the first process starts, and from then on. -/
structure Booted (s : Kernel) : Prop where
  ok : s.pm.page_usage_table_.Ok
  size : s.pm.page_usage_table_.size_ = s.pm.number_of_pages_
  reserved : Bitmap.getBit s.pm.page_usage_table_.bitmap_ 0 = true
  below : ∀ p < s.pm.lowest_unreserved_page_, Bitmap.getBit s.pm.page_usage_table_.bitmap_ p = true
  lowest_le : s.pm.lowest_unreserved_page_ ≤ s.pm.number_of_pages_

theorem Booted.congr (h : Booted s) (hpm : s'.pm = s.pm) : Booted s' := by
  obtain ⟨hok, hsize, hreserved, hbelow, hle⟩ := h
  rw [← hpm] at hok hsize hreserved hbelow hle
  exact ⟨hok, hsize, hreserved, hbelow, hle⟩

def Kernel.marked (s : Kernel) (q : ℕ) : Bool := Bitmap.getBit s.pm.page_usage_table_.bitmap_ q

/-- The lowest run of `k` free pages that is aligned. -/
def LowestRun (s : Kernel) (k p : ℕ) : Prop :=
  FreeRun s.pm.number_of_pages_ s.pm.page_usage_table_ p k ∧
    ∀ p' < p, ¬FreeRun s.pm.number_of_pages_ s.pm.page_usage_table_ p' k

structure Took (s s' : Kernel) (p k : ℕ) : Prop where
  lowest : LowestRun s k p
  filled : ∀ q, InRun p k q → Filled s.memory q
  booted : Booted s'
  number : s'.pm.number_of_pages_ = s.pm.number_of_pages_
  bits : ∀ q, s'.marked q = if InRun p k q then true else s.marked q
  memory : ∀ q, s'.memory q = if InRun p k q then fun _ => 0 else s.memory q

/-- How `allocPPN` can fail. -/
def AllocFails (s : Kernel) (k : ℕ) (e : Panic) : Prop :=
  (e = .outOfMemory ∧ ∀ p, ¬FreeRun s.pm.number_of_pages_ s.pm.page_usage_table_ p k) ∨
  (e = .pageModifiedAfterFree ∧ ∃ p q, LowestRun s k p ∧ InRun p k q ∧ ¬Filled s.memory q)

theorem Booted.not_below (h : Booted s) (hk : k ≠ 0) (hp : p < s.pm.lowest_unreserved_page_) :
    ¬FreeRun s.pm.number_of_pages_ s.pm.page_usage_table_ p k := by
  intro hrun
  have hfree := (hrun.2 p ⟨Nat.le_refl p, by omega⟩).2
  rw [h.below p hp] at hfree
  cases hfree

theorem allocPPN_spec (h : Booted s) (hk : k ≠ 0) :
    wp (AllocFails s k) (allocPPN (k * PAGE_SIZE)) (fun p s' => Took s s' p k) s := by
  have hdiv : k * PAGE_SIZE / PAGE_SIZE = k := Nat.mul_div_cancel k (by decide)
  cases hr : s.pm.reserve (k * PAGE_SIZE) with
  | mk p pm =>
    rw [PageManager.reserve, hdiv] at hr
    obtain ⟨⟨found, bm⟩, hfind⟩ : ∃ r, findPages s.pm.number_of_pages_ k
      (s.pm.number_of_pages_ - s.pm.lowest_unreserved_page_) s.pm.lowest_unreserved_page_
      s.pm.page_usage_table_ = r := ⟨_, rfl⟩
    obtain ⟨hnone, hsome⟩ := findPages_spec h.ok h.size hk h.reserved hfind
    rw [hfind] at hr
    cases hr
    simp only [allocPPN, wp_bind, wp_get, wp_set, Kern.assert, PageManager.reserve, hdiv, hfind]
    by_cases hp : p = 0
    · rw [if_neg (not_not_intro hp), wp_throw]
      refine .inl ⟨rfl, fun p' hrun => ?_⟩
      obtain hlow | hlow := Nat.lt_or_ge p' s.pm.lowest_unreserved_page_
      · exact h.not_below hk hlow hrun
      · have hlt := (hrun.2 p' ⟨Nat.le_refl p', by omega⟩).1
        exact (hnone hp).2 p' hlow (by omega) hrun
    · obtain ⟨hle, hrun, hmark, hfirst⟩ := hsome hp
      have hlowest : LowestRun s k p := by
        refine ⟨hrun, fun p' hlt => ?_⟩
        obtain hlow | hlow := Nat.lt_or_ge p' s.pm.lowest_unreserved_page_
        · exact h.not_below hk hlow
        · exact hfirst p' hlow hlt
      rw [if_pos hp, wp_pure]
      refine wp_ite (fun huntouched => ?_) fun hmodified => ?_
      · rw [wp_pure, wp_pure]
        refine ⟨hlowest, untouched_iff.mp huntouched, ?_, rfl, hmark.bits, fun q => ?_⟩
        · constructor
          · exact hmark.ok
          · exact hmark.size.trans h.size
          · exact (hmark.bits 0).trans (by rw [h.reserved, ite_self])
          · refine fun q hq => skipReserved_below (fun j hj => ?_) hq
            rw [hmark.bits, h.below j hj, ite_self]
          · have hle := h.lowest_le
            exact skipReserved_le (n := s.pm.number_of_pages_) (by omega)
        · show fill s.memory p (k * PAGE_SIZE) 0 q = _
          split
          · exact fill_inRun ‹_›
          · exact fill_outside ‹_›
      · rw [wp_throw]
        refine .inr ⟨rfl, p, ?_⟩
        by_contra hall
        refine hmodified (untouched_iff.mpr fun q hq => ?_)
        by_contra hq'
        exact hall ⟨q, hlowest, hq, hq'⟩

structure Gave (s s' : Kernel) (p k : ℕ) : Prop where
  booted : Booted s'
  number : s'.pm.number_of_pages_ = s.pm.number_of_pages_
  bits : ∀ q, s'.marked q = if InRun p k q then false else s.marked q
  memory : ∀ q, s'.memory q = if InRun p k q then fun _ => BitVec.allOnes 64 else s.memory q

theorem freePPN_spec (h : Booted s) (hshared : s.cow_map_ p = []) (hzero : ¬InRun p k 0)
    (hset : ∀ q, InRun p k q → q < s.pm.number_of_pages_ ∧ s.marked q = true) :
    wp (fun _ => False) (freePPN p (k * PAGE_SIZE)) (fun _ s' => Gave s s' p k) s := by
  have hdiv : k * PAGE_SIZE / PAGE_SIZE = k := Nat.mul_div_cancel k (by decide)
  obtain ⟨bm, hrun, hok, hsize, hbits⟩ := unsetPages_spec h.ok fun q hq => by
    rw [h.size]
    exact hset q hq
  simp only [freePPN, ppnShared, wp_bind, wp_get, wp_pure, hshared, List.isEmpty_nil, Bool.not_true,
    Bool.false_eq_true, if_false, hdiv, hrun, wp_set]
  refine ⟨⟨hok, hsize.trans h.size, ?_, fun q hq => ?_, ?_⟩, rfl, hbits, fun q => ?_⟩
  · exact (hbits 0).trans (by rw [if_neg hzero, h.reserved])
  · dsimp only at hq ⊢
    split at hq
    · rw [hbits, if_neg (by unfold InRun; omega), h.below q (by omega)]
    · rw [hbits, if_neg (by unfold InRun; omega), h.below q hq]
  · dsimp only
    have := h.lowest_le
    split
    · omega
    · exact this
  · show fill s.memory p (k * PAGE_SIZE) _ q = _
    split
    · exact fill_inRun ‹_›
    · exact fill_outside ‹_›

/-! ### Every history -/

/-- Sequences of calls from `s₀`: the runs that are allocated, and the pages freed so far. Users
write to pages that are in use, and the sharer sets change as they like. -/
inductive PageOps (s₀ : Kernel) : Kernel → List (ℕ × ℕ) → (ℕ → Prop) → Prop
  | start : PageOps s₀ s₀ [] fun _ => False
  | alloc {s s' : Kernel} {runs : List (ℕ × ℕ)} {freed : ℕ → Prop} {p k : ℕ} :
      PageOps s₀ s runs freed → k ≠ 0 →
      (allocPPN (k * PAGE_SIZE)).run s = .ok (p, s') → PageOps s₀ s' ((p, k) :: runs) freed
  | free {s s' : Kernel} {runs : List (ℕ × ℕ)} {freed : ℕ → Prop} {p k : ℕ} :
      PageOps s₀ s runs freed → (p, k) ∈ runs → s.cow_map_ p = [] →
      (freePPN p (k * PAGE_SIZE)).run s = .ok (⟨⟩, s') →
      PageOps s₀ s' (runs.erase (p, k)) fun q => freed q ∨ InRun p k q
  | write {s : Kernel} {runs : List (ℕ × ℕ)} {freed : ℕ → Prop} {q : ℕ} (f : Page) :
      PageOps s₀ s runs freed → s.marked q = true →
      PageOps s₀ { s with memory := update s.memory q f } runs freed
  | share {s : Kernel} {runs : List (ℕ × ℕ)} {freed : ℕ → Prop} (cow_map_ : ℕ → List ℕ) :
      PageOps s₀ s runs freed →
      PageOps s₀ { s with cow_map_ := cow_map_ } runs freed

structure RunsInv (s₀ s : Kernel) (runs : List (ℕ × ℕ)) (freed : ℕ → Prop) : Prop where
  booted : Booted s
  number : s.pm.number_of_pages_ = s₀.pm.number_of_pages_
  used : ∀ q, s.marked q = true ↔ s₀.marked q = true ∨ ∃ run ∈ runs, InRun run.1 run.2 q
  fresh : ∀ run ∈ runs, run.2 ≠ 0 ∧ ∀ q, InRun run.1 run.2 q → Unused s₀.pm.number_of_pages_
    s₀.pm.page_usage_table_ q
  disjoint : runs.Pairwise fun a b => ∀ q, ¬(InRun a.1 a.2 q ∧ InRun b.1 b.2 q)
  clean : ∀ q < s.pm.number_of_pages_, s.marked q = false →
    Filled s.memory q ∨ ¬freed q ∧ s.memory q = s₀.memory q

theorem RunsInv.unused (I : RunsInv s₀ s runs freed) (h : Unused s.pm.number_of_pages_
    s.pm.page_usage_table_ q) : Unused s₀.pm.number_of_pages_ s₀.pm.page_usage_table_ q ∧
      ∀ run ∈ runs, ¬InRun run.1 run.2 q := by
  have hmark : ¬s.marked q = true := by
    show ¬Bitmap.getBit _ q = true
    rw [h.2]
    decide
  rw [I.used] at hmark
  refine ⟨⟨I.number ▸ h.1, ?_⟩, fun run hrun hq => hmark (.inr ⟨run, hrun, hq⟩)⟩
  rw [← Bool.not_eq_true]
  exact fun h0 => hmark (.inl h0)

theorem RunsInv.alloc (I : RunsInv s₀ s runs freed) (hk : k ≠ 0) (h : Took s s' p k) :
    RunsInv s₀ s' ((p, k) :: runs) freed := by
  have hrun := h.lowest.1.2
  constructor
  · exact h.booted
  · exact h.number.trans I.number
  · intro q
    rw [h.bits, List.exists_mem_cons_iff]
    split
    · rename_i hq
      exact ⟨fun _ => .inr (.inl hq), fun _ => rfl⟩
    · rename_i hq
      rw [I.used]
      exact or_congr_right ⟨.inr, fun h => h.resolve_left hq⟩
  · intro run hmem
    obtain rfl | hmem := List.mem_cons.mp hmem
    · exact ⟨hk, fun q hq => (I.unused (hrun q hq)).1⟩
    · exact I.fresh run hmem
  · rw [List.pairwise_cons]
    refine ⟨fun run hmem q hq => ?_, I.disjoint⟩
    exact (I.unused (hrun q hq.1)).2 run hmem hq.2
  · intro q hlt hq
    rw [h.bits] at hq
    split at hq
    · cases hq
    · rename_i hout
      unfold Filled
      rw [h.memory, if_neg hout]
      exact I.clean q (h.number ▸ hlt) hq

theorem RunsInv.disjoint_mem (I : RunsInv s₀ s runs freed) {a b : ℕ × ℕ} (ha : a ∈ runs)
    (hb : b ∈ runs) (hne : a ≠ b) (q : ℕ) : ¬(InRun a.1 a.2 q ∧ InRun b.1 b.2 q) := by
  have hsymm : Std.Symm fun a b : ℕ × ℕ => ∀ q, ¬(InRun a.1 a.2 q ∧ InRun b.1 b.2 q) :=
    ⟨fun _ _ h q hq => h q hq.symm⟩
  exact I.disjoint.forall ha hb hne q

theorem RunsInv.nodup (I : RunsInv s₀ s runs freed) : runs.Nodup := by
  refine I.disjoint.imp_of_mem fun {a b} ha _ h => ?_
  rintro rfl
  have hk := (I.fresh a ha).1
  exact h a.1 ⟨⟨Nat.le_refl _, by omega⟩, ⟨Nat.le_refl _, by omega⟩⟩

theorem RunsInv.free (I : RunsInv s₀ s runs freed) (hmem : (p, k) ∈ runs) (h : Gave s s' p k) :
    RunsInv s₀ s' (runs.erase (p, k)) fun q => freed q ∨ InRun p k q := by
  have herase : ∀ {run}, run ∈ runs.erase (p, k) ↔ run ≠ (p, k) ∧ run ∈ runs :=
    I.nodup.mem_erase_iff
  have hfresh := (I.fresh _ hmem).2
  constructor
  · exact h.booted
  · exact h.number.trans I.number
  · intro q
    rw [h.bits]
    split
    · rename_i hq
      have hnot : ¬s₀.marked q = true := by
        show ¬Bitmap.getBit _ q = true
        rw [(hfresh q hq).2]
        decide
      constructor
      · intro hfalse
        cases hfalse
      · intro hor
        obtain hs | ⟨run, hrun, hq'⟩ := hor
        · exact absurd hs hnot
        · obtain ⟨hne, hrun⟩ := herase.mp hrun
          exact absurd ⟨hq', hq⟩ (I.disjoint_mem hrun hmem hne q)
    · rename_i hq
      rw [I.used]
      refine or_congr_right ⟨fun ⟨run, hrun, hq'⟩ => ?_, fun ⟨run, hrun, hq'⟩ => ?_⟩
      · refine ⟨run, herase.mpr ⟨?_, hrun⟩, hq'⟩
        rintro rfl
        exact hq hq'
      · exact ⟨run, (herase.mp hrun).2, hq'⟩
  · exact fun run hrun => I.fresh run (herase.mp hrun).2
  · exact I.disjoint.sublist (List.erase_sublist)
  · intro q hlt hq
    unfold Filled
    rw [h.memory]
    rw [h.bits] at hq
    split at hq
    · rename_i hin
      rw [if_pos hin]
      exact .inl fun i _ => rfl
    · rename_i hout
      rw [if_neg hout]
      refine (I.clean q (h.number ▸ hlt) hq).imp_right fun hold => ⟨?_, hold.2⟩
      exact fun hor => hor.elim hold.1 hout

theorem RunsInv.freePPN (I : RunsInv s₀ s runs freed) (h₀ : Booted s₀) (hmem : (p, k) ∈ runs)
    (hshared : s.cow_map_ p = []) :
    wp (fun _ => False) (freePPN p (k * PAGE_SIZE)) (fun _ s' => Gave s s' p k) s := by
  refine freePPN_spec I.booted hshared (fun hzero => ?_) fun q hq => ⟨?_, ?_⟩
  · have hbit := ((I.fresh _ hmem).2 0 hzero).2
    rw [h₀.reserved] at hbit
    cases hbit
  · exact I.number ▸ ((I.fresh _ hmem).2 q hq).1
  · exact (I.used q).mpr (.inr ⟨_, hmem, hq⟩)

theorem runsInv (h₀ : Booted s₀) (h : PageOps s₀ s runs freed) : RunsInv s₀ s runs freed := by
  induction h with
  | start =>
    constructor
    · exact h₀
    · rfl
    · simp
    · simp
    · exact .nil
    · exact fun q _ _ => .inr ⟨id, rfl⟩
  | alloc _ hk hrun ih =>
    have htook := of_wp (allocPPN_spec ih.booted hk) hrun
    exact ih.alloc hk htook
  | free _ hmem hshared hrun ih =>
    have hgave := of_wp (ih.freePPN h₀ hmem hshared) hrun
    exact ih.free hmem hgave
  | @write s runs freed q f _ hmark ih =>
    refine ⟨ih.booted.congr rfl, ih.number, ih.used, ih.fresh, ih.disjoint, fun q' hlt hq' => ?_⟩
    have hne : q' ≠ q := by
      rintro rfl
      have hfalse : s.marked q' = false := hq'
      rw [hmark] at hfalse
      cases hfalse
    unfold Filled
    show (∀ i < PAGE_TABLE_ENTRIES, update s.memory q f q' i = _) ∨ _ ∧ update s.memory q f q' = _
    rw [update_of_ne hne]
    exact ih.clean q' hlt hq'
  | share _ _ ih => exact ⟨ih.booted.congr rfl, ih.number, ih.used, ih.fresh, ih.disjoint, ih.clean⟩

/-- After any history of allocations and frees, the next call finds the lowest aligned run. It can
meet a modified page only if this page was not filled at boot and has not been freed since. -/
theorem pageAllocator_correct (h₀ : Booted s₀) (h : PageOps s₀ s runs freed) :
    (∀ p < s.pm.lowest_unreserved_page_, s.marked p = true) ∧
    s.pm.page_usage_table_.num_bits_set_ = Nat.count (fun q => s.marked q) s.pm.number_of_pages_ ∧
    (∀ q, s.marked q = true ↔ s₀.marked q = true ∨ ∃ run ∈ runs, InRun run.1 run.2 q) ∧
    (runs.Pairwise fun a b => ∀ q, ¬(InRun a.1 a.2 q ∧ InRun b.1 b.2 q)) ∧
    (∀ q < s.pm.number_of_pages_, s.marked q = false → freed q → Filled s.memory q) ∧
    (∀ k ≠ 0, wp (fun e =>
        (e = .outOfMemory ∧ ∀ p, ¬FreeRun s.pm.number_of_pages_ s.pm.page_usage_table_ p k) ∨
        (e = .pageModifiedAfterFree ∧
          ∃ q, s₀.marked q = false ∧ ¬freed q ∧ ¬Filled s₀.memory q))
      (allocPPN (k * PAGE_SIZE)) (fun p s' => Took s s' p k) s) ∧
    (∀ p k, (p, k) ∈ runs → s.cow_map_ p = [] →
      wp (fun _ => False) (freePPN p (k * PAGE_SIZE)) (fun _ s' => Gave s s' p k) s) := by
  have I := runsInv h₀ h
  refine ⟨I.booted.below, ?_, I.used, I.disjoint, fun q hlt hq hfreed => ?_, fun k hk => ?_,
    fun p k hmem hshared => I.freePPN h₀ hmem hshared⟩
  · rw [← I.booted.size]
    exact I.booted.ok.count
  · exact (I.clean q hlt hq).resolve_right fun hold => hold.1 hfreed
  · refine wp_allowed (allocPPN_spec I.booted hk) fun e he => ?_
    obtain he | ⟨he, p, q, hlow, hq, hmod⟩ := he
    · exact .inl he
    · refine .inr ⟨he, q, ?_⟩
      have hunused := hlow.1.2 q hq
      obtain hfill | ⟨hfreed, hsame⟩ := I.clean q hunused.1 hunused.2
      · exact absurd hfill hmod
      · refine ⟨(I.unused hunused).1.2, hfreed, ?_⟩
        unfold Filled at hmod ⊢
        rwa [hsame] at hmod

/-- Four pages; page 0 is reserved. -/
def fourPages : Kernel where
  memory _ := fun _ => BitVec.allOnes 64
  pm := ⟨((Bitmap.new 4).setBit 0).2, 4, 1⟩
  kernel_page_map_level_4 := fun _ => 0
  cow_map_ _ := []
  process_list_ _ := none
  pid_counter_ := 0

theorem fourPages_booted : Booted fourPages where
  ok := Bitmap.setBit_ok ⟨rfl, rfl⟩ (by decide)
  size := rfl
  reserved := rfl
  below := by decide
  lowest_le := by decide

theorem pageAllocator_correct_four : ∃ s, (allocPPN (2 * PAGE_SIZE)).run fourPages = .ok (2, s) ∧
    ∀ p < s.pm.lowest_unreserved_page_, s.marked p = true := by
  have hfound : (match (allocPPN (2 * PAGE_SIZE)).run fourPages with
      | .ok (p, _) => p == 2
      | .error _ => false) = true := by decide +kernel
  split at hfound
  · rename_i p s hrun
    obtain rfl := beq_iff_eq.mp hfound
    exact ⟨s, hrun, (pageAllocator_correct fourPages_booted (.alloc .start (by decide) hrun)).1⟩
  · cases hfound

end KPanic
