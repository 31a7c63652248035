import KPanic.Mm.HeapCalls

/-!
# Reallocation

A block keeps its segment, grows into the free segment behind it, or moves.
-/

namespace KPanic.Heap

open Bytes Wp MallocSegment

variable {s t u : KernelMemoryManager} {x y z : Segment} {l r segs segs' : List Segment}
  {new ptr b : ℕ} {allowed : Failure → Prop}

theorem wp_canGrow {size : ℕ} (I : HeapInv s (l ++ x :: r)) :
    wp allowed (canGrow x.addr size) (fun ok t => t = s ∧ (ok = true ↔
      ∃ z r', r = z :: r' ∧ z.used = false ∧ size ≤ z.size + x.size)) s := by
  have hxb := I.mem_bounds (x := x) (by simp)
  refine (wp_bind _ _ _).mpr (wp_readNext I.header rfl ?_)
  cases r with
  | nil =>
    refine wp_ite (fun _ => (wp_pure _).mpr ⟨rfl, ?_⟩) fun hne => absurd rfl hne
    simp
  | cons z r =>
    have hz := I.mem_bounds (x := z) (by simp)
    have hheader := I.linkedBehind.1
    refine wp_ite (fun hc => absurd hc hz.2.2.2.1) fun _ => ?_
    refine (wp_bind _ _ _).mpr (wp_getUsed hheader rfl hz.2.2.1 ?_)
    refine wp_ite (fun hused => (wp_pure _).mpr ⟨rfl, ?_⟩) fun hfree => ?_
    · refine iff_of_false Bool.false_ne_true ?_
      rintro ⟨z', r', heq, hz', -⟩
      cases heq
      rw [hused] at hz'
      cases hz'
    · refine (wp_bind _ _ _).mpr (wp_getSize hheader rfl hz.2.2.1 ?_)
      refine (wp_bind _ _ _).mpr (wp_getSize I.header rfl hxb.2.2.1 ?_)
      refine (wp_pure _).mpr ⟨rfl, ?_⟩
      rw [decide_eq_true_iff]
      constructor
      · exact fun hle => ⟨z, r, rfl, Bool.eq_false_of_not_eq_true hfree, hle⟩
      · rintro ⟨z', r', heq, -, hle⟩
        cases heq
        exact hle

/-- What growing `x` into the free segment `z` leaves. -/
def Grown (s t : KernelMemoryManager) (l : List Segment) (x z : Segment) (r : List Segment)
    (new : ℕ) : Prop :=
  Edited s t (l ++ (filled (merged x z) new ++ r)) fun b =>
    HeaderByte (l ++ (filled (merged x z) new ++ r)) b ∨ (z.addr ≤ b ∧ b < z.addr + 56)

theorem wp_grow (I : HeapInv s (l ++ x :: z :: r)) (hz : z.used = false)
    (hsize : new ≤ z.size + x.size) (halign : new % 16 = 0) :
    wp allowed (do
      let _ ← mergeWithFollowingFreeSegment x.addr
      fillSegment x.addr new false
      return x.addr + 56) (fun ptr t => ptr = x.addr + 56 ∧ Grown s t l x z r new) s := by
  refine wp_seq (wp_mergeFollowing I hz) ?_
  rintro _ t ⟨hmerge, -⟩
  have hle : new ≤ (merged x z).size := by
    show new ≤ x.size + 56 + z.size
    omega
  refine wp_seq (wp_fillSegment (x := merged x z) hmerge.inv hle halign) ?_
  rintro _ u hfill
  refine (wp_pure _).mpr ⟨rfl, hmerge.trans ⟨hfill.inv, hfill.same, fun b hb => ?_⟩ fun b hb => ?_⟩
  · exact hfill.bytes b fun hp => hb (.inl hp)
  · obtain ⟨w, hw, hin⟩ := hb
    rw [List.mem_append, List.mem_cons, List.mem_cons] at hw
    obtain hw | rfl | rfl | hw := hw
    · exact .inl (headerByte_filled ⟨w, by simp [hw], hin⟩)
    · exact .inl (headerByte_filled ⟨merged w z, by simp, hin⟩)
    · exact .inr hin
    · exact .inl (headerByte_filled ⟨w, by simp [hw], hin⟩)

/-- Once the new block holds the old contents. -/
def copied (s : KernelMemoryManager) (dst src n : ℕ) : KernelMemoryManager :=
  { s with mem := copy s.mem dst src n }

/-- What reallocating the block of the used segment `x` leaves. -/
inductive Reallocated (s t : KernelMemoryManager) (l : List Segment) (x : Segment)
    (r : List Segment) (new : ℕ) : ℕ → List Segment → Prop
  | same : x.size = new → t = s → Reallocated s t l x r new (x.addr + 56) (l ++ x :: r)
  | shrunk : new < x.size →
      Edited s t (l ++ (filled x new ++ r)) (HeaderByte (l ++ (filled x new ++ r))) →
      Reallocated s t l x r new (x.addr + 56) (l ++ (filled x new ++ r))
  | grown {z r'} : r = z :: r' → z.used = false → x.size < new → new ≤ z.size + x.size →
      Grown s t l x z r' new →
      Reallocated s t l x r new (x.addr + 56) (l ++ (filled (merged x z) new ++ r'))
  | moved {u l₁ y r₁ w l₂ r₂ l' v r'} : l ++ x :: r = l₁ ++ y :: r₁ → y.used = false →
      x.size < new → new ≤ y.size → Allocated s u l₁ y r₁ new w →
      l₁ ++ (filled y new ++ r₁) = l₂ ++ x :: r₂ →
      Freed (copied u (y.addr + 56) (x.addr + 56) x.size) t l₂ x r₂ l' v r' →
      Reallocated s t l x r new (y.addr + 56) (l' ++ v :: r')

/-- Two segments of a heap begin at different addresses. -/
theorem HeapInv.addr_ne (I : HeapInv s (l ++ x :: r)) (hy : y ∈ l ++ r) : y.addr ≠ x.addr := by
  obtain hy | hy := List.mem_append.mp hy
  · have hle := I.before hy
    unfold Segment.stop at hle
    omega
  · have hle := I.behind hy
    unfold Segment.stop at hle
    omega

/-- The copy stays inside the new block. -/
theorem Allocated.inv_copied {n k : ℕ} {w : List (ℕ × ℕ)} (h : Allocated s u l y r new w)
    (hnew : new ≤ y.size) (hn : n ≤ new) :
    HeapInv (copied u (y.addr + 56) k n) (l ++ (filled y new ++ r)) := by
  obtain ⟨y', rest, hfilled, haddr, -, hle, -, -⟩ := filled_cons y hnew
  refine h.1.inv.congr (fun b hb => copy_apart ?_) _
  by_contra hin
  refine h.1.inv.not_headerByte (x := y') ?_ (by omega) ?_ hb
  · rw [hfilled]
    simp
  · unfold Segment.stop
    omega

theorem wp_move {caller : Caller} (I : HeapInv s (l ++ x :: r)) (hx : x.used = true)
    (hsize : x.size < new) (halign : new % 16 = 0)
    (hk : ∀ e : Failure, e.ofKsbrk = true → allowed e)
    (h : allowed .memoryNotZero ∨ ∀ y ∈ l ++ x :: r, y.used = false →
      ∀ b, y.addr + 56 ≤ b → b < y.stop → s.mem b = 0) :
    wp allowed (do
      let new_address ← private_AllocateMemory new caller
      let size ← getSize x.addr
      modify fun s => { s with mem := copy s.mem new_address (x.addr + 56) size }
      freeAt x.addr caller
      return new_address) (fun ptr t => ∃ segs', Reallocated s t l x r new ptr segs') s := by
  refine wp_seq (wp_private_AllocateMemory I halign hk h) ?_
  rintro _ u ⟨l₁, y, r₁, w, hsegs, hy, hnew, rfl, halloc⟩
  have hxy : x ∈ l₁ ++ r₁ := by
    have hmem : x ∈ l₁ ++ y :: r₁ := hsegs ▸ List.mem_append_right _ List.mem_cons_self
    rw [List.mem_append, List.mem_cons] at hmem
    obtain hmem | rfl | hmem := hmem
    · exact List.mem_append_left _ hmem
    · rw [hx] at hy
      cases hy
    · exact List.mem_append_right _ hmem
  have I₀ := hsegs ▸ I
  have hne := I₀.addr_ne hxy
  have hxmem : x ∈ l₁ ++ (filled y new ++ r₁) := by
    obtain hmem | hmem := List.mem_append.mp hxy
    · exact List.mem_append_left _ hmem
    · exact List.mem_append_right _ (List.mem_append_right _ hmem)
  obtain ⟨y', rest, hfilled, haddr, hused, -, -, -⟩ := filled_cons y hnew
  have hy' : y' ∈ l₁ ++ (filled y new ++ r₁) := by
    rw [hfilled]
    simp
  obtain ⟨l₂, r₂, hlist⟩ := List.append_of_mem hxmem
  have I₁ := halloc.1.inv
  rw [hlist] at I₁ hy'
  have hxb := I₁.mem_bounds (x := x) (by simp)
  refine (wp_bind _ _ _).mpr (wp_getSize I₁.header rfl hxb.2.2.1 ?_)
  refine (wp_bind _ _ _).mpr ((wp_modify _ _).mpr ?_)
  have I₂ := halloc.inv_copied (k := x.addr + 56) hnew hsize.le
  rw [hlist] at I₂
  refine wp_seq (wp_freeAt I₂ hx fun hfree => ?_) ?_
  · have hmem : y' ∈ l₂ ++ r₂ := by
      rw [List.mem_append, List.mem_cons] at hy'
      obtain hy' | rfl | hy' := hy'
      · exact List.mem_append_left _ hy'
      · exact absurd haddr hne
      · exact List.mem_append_right _ hy'
    rw [hfree y' hmem] at hused
    cases hused
  · rintro _ t ⟨l', v, r', hfreed⟩
    exact (wp_pure _).mpr ⟨_, .moved hsegs hy hsize hnew halloc hlist hfreed⟩

theorem wp_reallocateMemory {size : ℕ} {caller : Caller} (I : HeapInv s (l ++ x :: r))
    (hx : x.used = true) (hlt : size < 2 ^ 64) (h0 : size ≠ 0)
    (hlarge : allowed .requestedTooMuch) (hk : ∀ e : Failure, e.ofKsbrk = true → allowed e)
    (h : allowed .memoryNotZero ∨ ∀ y ∈ l ++ x :: r, y.used = false →
      ∀ b, y.addr + 56 ≤ b → b < y.stop → s.mem b = 0) :
    wp allowed (reallocateMemory (x.addr + 56) size caller) (fun ptr t => ∃ segs',
      size ≤ align size ∧ Reallocated s t l x r (align size) ptr segs') s := by
  have hxb := I.mem_bounds (x := x) (by simp)
  refine (wp_bind _ _ _).mpr (wp_checkRequest hlarge fun hbit => ?_)
  obtain ⟨hsize, halign⟩ := align_spec hlt hbit
  refine wp_ite (fun hc => absurd hc h0) fun _ => ?_
  refine wp_ite (fun hc => by omega) fun _ => ?_
  refine (wp_bind _ _ _).mpr (wp_getSegmentFromAddress I ?_)
  refine (wp_bind _ _ _).mpr (wp_getSize I.header rfl hxb.2.2.1 ?_)
  refine wp_ite (fun heq => (wp_pure _).mpr ⟨_, hsize, .same heq.symm rfl⟩) fun hne => ?_
  refine wp_ite (fun hlt => ?_) fun hge => ?_
  · refine wp_seq (wp_fillSegment I hlt.le halign) fun _ t ht => ?_
    exact (wp_pure _).mpr ⟨_, hsize, .shrunk hlt ht⟩
  · have hgt : x.size < align size := by omega
    refine wp_seq (wp_canGrow I) ?_
    rintro ok t ⟨rfl, hok⟩
    refine wp_ite (fun hgrow => ?_) fun _ => ?_
    · obtain ⟨z, r', rfl, hz, hfits⟩ := hok.mp hgrow
      refine wp_mono (wp_grow I hz hfits halign) ?_
      rintro _ u ⟨rfl, hgrown⟩
      exact ⟨_, hsize, .grown rfl hz hgt hfits hgrown⟩
    · exact wp_mono (wp_move I hx hgt halign hk h) fun _ _ ⟨segs', h'⟩ => ⟨segs', hsize, h'⟩

end KPanic.Heap
