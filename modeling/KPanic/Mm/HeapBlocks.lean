import KPanic.Mm.HeapReallocate
import Mathlib.Data.List.Chain

/-!
# Blocks

The callers know the heap as the blocks that they own and what they wrote there. The blocks are the
used segments: an operation adds one, takes one away or changes the size of one, and keeps the bytes
of the others.
-/

namespace KPanic.Heap

open Bytes

variable {s t u : KernelMemoryManager} {m m' : Memory} {x y z : Segment}
  {l r l' r' segs segs' A B U : List Segment} {new req ptr b : ℕ} {w : List (ℕ × ℕ)}

/-- A block that was handed out: its address, the size asked for and its contents. -/
structure Block where
  ptr : ℕ
  size : ℕ
  bytes : ℕ → UInt8

variable {live : List Block} {c : Block}

/-- The bodies of `U` have the same bytes in `m` and `m'`. -/
def Kept (m m' : Memory) (U : List Segment) : Prop :=
  ∀ x ∈ U, ∀ b, x.addr + 56 ≤ b → b < x.stop → m' b = m b

/-- The live blocks are the segments `U`, and the memory holds their contents. -/
structure Owns (m : Memory) (U : List Segment) (live : List Block) : Prop where
  owner : ∀ c ∈ live, ∃ x ∈ U, x.addr + 56 = c.ptr ∧ c.size ≤ x.size
  owned : ∀ x ∈ U, ∃ c ∈ live, x.addr + 56 = c.ptr
  nodup : (live.map Block.ptr).Nodup
  bytes : ∀ c ∈ live, ∀ i < c.size, m (c.ptr + i) = c.bytes i

def eraseBlock (live : List Block) (ptr : ℕ) : List Block := live.filter fun c => c.ptr ≠ ptr

theorem mem_eraseBlock : c ∈ eraseBlock live ptr ↔ c ∈ live ∧ c.ptr ≠ ptr := by
  rw [eraseBlock, List.mem_filter, decide_eq_true_iff]

theorem Owns.kept (h : Owns m U live) (hk : Kept m m' U) : Owns m' U live := by
  refine ⟨h.owner, h.owned, h.nodup, fun c hc i hi => ?_⟩
  obtain ⟨x, hx, hptr, hsize⟩ := h.owner c hc
  have hin : c.ptr + i < x.stop := by
    unfold Segment.stop
    omega
  exact (hk x hx _ (by omega) hin).trans (h.bytes c hc i hi)

theorem Owns.erase (h : Owns m (A ++ x :: B) live) (hne : ∀ v ∈ A ++ B, v.addr ≠ x.addr) :
    Owns m (A ++ B) (eraseBlock live (x.addr + 56)) := by
  constructor
  · intro c hc
    obtain ⟨hc, hptr⟩ := mem_eraseBlock.mp hc
    obtain ⟨v, hv, hvptr, hsize⟩ := h.owner c hc
    rw [List.mem_append, List.mem_cons] at hv
    obtain hv | rfl | hv := hv
    · exact ⟨v, List.mem_append_left _ hv, hvptr, hsize⟩
    · exact absurd hvptr.symm hptr
    · exact ⟨v, List.mem_append_right _ hv, hvptr, hsize⟩
  · intro v hv
    have hvx := hne v hv
    obtain ⟨c, hc, hptr⟩ := h.owned v (by
      obtain hv | hv := List.mem_append.mp hv
      · exact List.mem_append_left _ hv
      · exact List.mem_append_right _ (List.mem_cons_of_mem _ hv))
    exact ⟨c, mem_eraseBlock.mpr ⟨hc, by omega⟩, hptr⟩
  · exact h.nodup.sublist (List.filter_sublist.map _)
  · exact fun c hc => h.bytes c (mem_eraseBlock.mp hc).1

theorem Owns.insert (h : Owns m (A ++ B) live) (hne : ∀ v ∈ A ++ B, v.addr ≠ y.addr)
    (hptr : y.addr + 56 = c.ptr) (hsize : c.size ≤ y.size)
    (hbytes : ∀ i < c.size, m (c.ptr + i) = c.bytes i) : Owns m (A ++ y :: B) (c :: live) := by
  constructor
  · rw [List.forall_mem_cons]
    refine ⟨⟨y, by simp, hptr, hsize⟩, fun d hd => ?_⟩
    obtain ⟨v, hv, hd⟩ := h.owner d hd
    obtain hv | hv := List.mem_append.mp hv
    · exact ⟨v, List.mem_append_left _ hv, hd⟩
    · exact ⟨v, List.mem_append_right _ (List.mem_cons_of_mem _ hv), hd⟩
  · intro v hv
    rw [List.mem_append, List.mem_cons] at hv
    obtain hv | rfl | hv := hv
    · obtain ⟨d, hd, hdptr⟩ := h.owned v (List.mem_append_left _ hv)
      exact ⟨d, List.mem_cons_of_mem _ hd, hdptr⟩
    · exact ⟨c, List.mem_cons_self, hptr⟩
    · obtain ⟨d, hd, hdptr⟩ := h.owned v (List.mem_append_right _ hv)
      exact ⟨d, List.mem_cons_of_mem _ hd, hdptr⟩
  · rw [List.map_cons, List.nodup_cons]
    refine ⟨fun hmem => ?_, h.nodup⟩
    obtain ⟨d, hd, hdptr⟩ := List.mem_map.mp hmem
    obtain ⟨v, hv, hvptr, -⟩ := h.owner d hd
    have hvy := hne v hv
    omega
  · rw [List.forall_mem_cons]
    exact ⟨hbytes, h.bytes⟩

/-- The owner of the block at `ptr` writes a byte. -/
def writeBlock (live : List Block) (ptr i : ℕ) (v : UInt8) : List Block :=
  live.map fun c => if c.ptr = ptr then { c with bytes := Function.update c.bytes i v } else c

theorem Owns.write {i : ℕ} {v : UInt8} (h : Owns m U live)
    (hU : ∀ x ∈ U, ∀ y ∈ U, x.addr ≠ y.addr → x.stop ≤ y.addr ∨ y.stop ≤ x.addr) (hc : c ∈ live)
    (hi : i < c.size) : Owns (Function.update m (c.ptr + i) v) U (writeBlock live c.ptr i v) := by
  have hmem : ∀ d', d' ∈ writeBlock live c.ptr i v → ∃ d ∈ live, d'.ptr = d.ptr ∧ d'.size = d.size ∧
      d'.bytes = if d.ptr = c.ptr then Function.update d.bytes i v else d.bytes := by
    intro d' hd'
    obtain ⟨d, hd, rfl⟩ := List.mem_map.mp hd'
    refine ⟨d, hd, ?_⟩
    split
    · exact ⟨rfl, rfl, rfl⟩
    · exact ⟨rfl, rfl, rfl⟩
  constructor
  · intro d' hd'
    obtain ⟨d, hd, hptr, hsize, -⟩ := hmem d' hd'
    rw [hptr, hsize]
    exact h.owner d hd
  · intro x hx
    obtain ⟨d, hd, hptr⟩ := h.owned x hx
    refine ⟨_, List.mem_map_of_mem hd, hptr.trans ?_⟩
    split
    · rfl
    · rfl
  · have hptrs : (writeBlock live c.ptr i v).map Block.ptr = live.map Block.ptr := by
      rw [writeBlock, List.map_map]
      refine List.map_congr_left fun d _ => ?_
      rw [Function.comp]
      split
      · rfl
      · rfl
    rw [hptrs]
    exact h.nodup
  · intro d' hd' j hj
    obtain ⟨d, hd, hptr, hsize, hbytes⟩ := hmem d' hd'
    rw [hsize] at hj
    rw [hptr, hbytes]
    split
    · rename_i hdc
      rw [hdc]
      by_cases hij : j = i
      · rw [hij, Function.update_self, Function.update_self]
      · rw [Function.update_of_ne (by omega), Function.update_of_ne hij, ← hdc]
        exact h.bytes d hd j hj
    · rename_i hdc
      obtain ⟨x, hx, hxptr, hxsize⟩ := h.owner c hc
      obtain ⟨y, hy, hyptr, hysize⟩ := h.owner d hd
      have hapart := hU x hx y hy (by omega)
      unfold Segment.stop at hapart
      rw [Function.update_of_ne (by omega)]
      exact h.bytes d hd j hj

/-! ### The used segments -/

def usedOf (l : List Segment) : List Segment := l.filter (·.used)

theorem mem_usedOf : x ∈ usedOf l ↔ x ∈ l ∧ x.used = true := List.mem_filter

theorem usedOf_append (l r : List Segment) : usedOf (l ++ r) = usedOf l ++ usedOf r :=
  List.filter_append l r

theorem usedOf_cons (hx : x.used = true) (l : List Segment) : usedOf (x :: l) = x :: usedOf l :=
  List.filter_cons_of_pos hx

theorem usedOf_free (hx : x.used = false) (l : List Segment) : usedOf (x :: l) = usedOf l :=
  List.filter_cons_of_neg (Bool.eq_false_iff.mp hx)

theorem usedOf_filled (hreq : req ≤ x.size) : ∃ y ∈ filled x req, y.addr = x.addr ∧ req ≤ y.size ∧
    y.stop ≤ x.stop ∧ ∀ r, usedOf (filled x req ++ r) = y :: usedOf r := by
  obtain ⟨y, rest, hfilled, haddr, hused, hle, hsize, hrest⟩ := filled_cons x hreq
  have hfree : usedOf rest = [] :=
    List.filter_eq_nil_iff.mpr fun z hz => Bool.eq_false_iff.mp (hrest z hz).1
  refine ⟨y, by rw [hfilled]; exact List.mem_cons_self, haddr, hle, ?_, fun r => ?_⟩
  · unfold Segment.stop
    omega
  · rw [hfilled, List.cons_append, usedOf_cons hused, usedOf_append, hfree, List.nil_append]

theorem Before.usedOf (h : Before l l' x y) : usedOf l' = usedOf l := by
  obtain ⟨rfl, -, -⟩ | ⟨v, rfl, hv, -⟩ := h
  · rfl
  · rw [usedOf_append, usedOf_free hv]
    exact (List.append_nil _).symm

theorem Behind.usedOf (h : Behind r r' x y) : usedOf r' = usedOf r := by
  obtain ⟨rfl, -, -⟩ | ⟨z, rfl, hz, -⟩ := h
  · rfl
  · exact (usedOf_free hz _).symm

/-- A segment lies on one side of another. -/
theorem HeapInv.apart {v : Segment} (I : HeapInv s (l ++ x :: r)) (hv : v ∈ l ++ r) :
    v.stop ≤ x.addr ∨ x.stop ≤ v.addr := by
  obtain hv | hv := List.mem_append.mp hv
  · exact .inl (I.before hv)
  · exact .inr (I.behind hv)

theorem mem_append_used {v : Segment} (hv : v ∈ usedOf l ++ usedOf r) : v ∈ l ++ r := by
  rw [← usedOf_append] at hv
  exact (mem_usedOf.mp hv).1

/-- An edit keeps the body of a segment that stays, if it may only change bytes elsewhere. -/
theorem Edited.kept {P : ℕ → Prop} (h : Edited s t segs P) (hU : ∀ x ∈ U, x ∈ segs)
    (hP : ∀ x ∈ U, ∀ b, x.addr + 56 ≤ b → b < x.stop → P b → HeaderByte segs b) :
    Kept s.mem t.mem U := fun x hx b hlo hhi =>
  h.bytes b fun hb => h.inv.not_headerByte (hU x hx) hlo hhi (hP x hx b hlo hhi hb)

theorem Allocated.kept (I : HeapInv s (l ++ x :: r)) (hreq : req ≤ x.size)
    (h : Allocated s t l x r req w) : Kept s.mem t.mem (usedOf l ++ usedOf r) := by
  intro v hv b hlo hhi
  have hv := mem_append_used hv
  have hmem : v ∈ l ++ (filled x req ++ r) := by
    obtain hv | hv := List.mem_append.mp hv
    · exact List.mem_append_left _ hv
    · exact List.mem_append_right _ (List.mem_append_right _ hv)
  have hapart := I.apart hv
  unfold Segment.stop at hapart hhi
  exact (h.1.bytes b (h.1.inv.not_headerByte hmem hlo hhi)).trans (fill_apart (by omega))

theorem Freed.kept (h : Freed s t l x r l' y r') : Kept s.mem t.mem (usedOf l ++ usedOf r) := by
  intro v hv b hlo hhi
  rw [← h.before.usedOf, ← h.behind.usedOf] at hv
  have hv := mem_append_used hv
  have hmem : v ∈ l' ++ y :: r' := by
    obtain hv | hv := List.mem_append.mp hv
    · exact List.mem_append_left _ hv
    · exact List.mem_append_right _ (List.mem_cons_of_mem _ hv)
  have hapart := h.inv.apart hv
  rw [h.bytes b (h.inv.not_headerByte hmem hlo hhi), if_neg (by omega)]

theorem Freed.owns (I : HeapInv s (l ++ x :: r)) (hx : x.used = true)
    (h : Freed s t l x r l' y r') (ho : Owns s.mem (usedOf (l ++ x :: r)) live) :
    Owns t.mem (usedOf (l' ++ y :: r')) (eraseBlock live (x.addr + 56)) := by
  rw [usedOf_append, usedOf_cons hx] at ho
  rw [usedOf_append, usedOf_free h.free, h.before.usedOf, h.behind.usedOf]
  exact (ho.erase fun v hv => I.addr_ne (mem_append_used hv)).kept h.kept

theorem Allocated.owns (I : HeapInv s (l ++ x :: r)) (hx : x.used = false) (hreq : req ≤ x.size)
    (h : Allocated s t l x r req w) (ho : Owns s.mem (usedOf (l ++ x :: r)) live)
    (hptr : x.addr + 56 = c.ptr) (hsize : c.size ≤ req)
    (hk : Kept t.mem m' (usedOf l ++ usedOf r))
    (hbytes : ∀ i < c.size, m' (c.ptr + i) = c.bytes i) :
    Owns m' (usedOf (l ++ (filled x req ++ r))) (c :: live) := by
  obtain ⟨y, -, haddr, hle, -, hfilled⟩ := usedOf_filled hreq
  rw [usedOf_append, usedOf_free hx] at ho
  rw [usedOf_append, hfilled]
  refine ((ho.kept (h.kept I hreq)).kept hk).insert (fun v hv => ?_) (by omega) (by omega) hbytes
  rw [haddr]
  exact I.addr_ne (mem_append_used hv)

/-! ### Reallocated blocks -/

/-- The block `c` after a reallocation; what is new comes from memory. -/
def resized (c : Block) (ptr size : ℕ) (m : Memory) : Block :=
  ⟨ptr, size, fun i => if i < c.size then c.bytes i else m (ptr + i)⟩

/-- A block that keeps its address. -/
theorem Owns.resize {size : ℕ} (h : Owns m (A ++ x :: B) live) (hc : c ∈ live)
    (hptr : x.addr + 56 = c.ptr) (hne : ∀ v ∈ A ++ B, v.addr ≠ x.addr)
    (hk : Kept m m' (A ++ B)) (hy : y.addr = x.addr) (hsize : size ≤ y.size)
    (hbody : ∀ b, x.addr + 56 ≤ b → b < x.stop → b < y.stop → m' b = m b) :
    Owns m' (A ++ y :: B) (resized c c.ptr size m' :: eraseBlock live c.ptr) := by
  have herase := h.erase hne
  rw [hptr] at herase
  refine (herase.kept hk).insert (fun v hv => hy ▸ hne v hv) (by rw [hy]; exact hptr) hsize
    fun i hi => ?_
  have hi : i < size := hi
  show m' (c.ptr + i) = if i < c.size then c.bytes i else m' (c.ptr + i)
  split
  · rename_i hic
    obtain ⟨v, hv, hvptr, hvsize⟩ := h.owner c hc
    have hvx : v = x := by
      rw [List.mem_append, List.mem_cons] at hv
      obtain hv | hv | hv := hv
      · exact absurd (hne v (List.mem_append_left _ hv)) (by omega)
      · exact hv
      · exact absurd (hne v (List.mem_append_right _ hv)) (by omega)
    subst hvx
    rw [hbody _ (by omega) (by unfold Segment.stop; omega) (by unfold Segment.stop; omega)]
    exact h.bytes c hc i hic
  · rfl

/-- A block that moves. -/
theorem Freed.owns_moved {l₁ r₁ l₂ r₂ : List Segment} {v : Segment} {size : ℕ}
    (I : HeapInv s (l ++ x :: r)) (hx : x.used = true) (ho : Owns s.mem (usedOf (l ++ x :: r)) live)
    (hc : c ∈ live) (hptr : x.addr + 56 = c.ptr) (hcx : c.size ≤ x.size) (hsize : size ≤ new)
    (hsegs : l ++ x :: r = l₁ ++ y :: r₁) (hy : y.used = false) (hlt : x.size < new)
    (hnew : new ≤ y.size) (halloc : Allocated s u l₁ y r₁ new w)
    (hlist : l₁ ++ (filled y new ++ r₁) = l₂ ++ x :: r₂)
    (h : Freed (copied u (y.addr + 56) (x.addr + 56) x.size) t l₂ x r₂ l' v r') :
    Owns t.mem (usedOf (l' ++ v :: r'))
      (resized c (y.addr + 56) size t.mem :: eraseBlock live c.ptr) := by
  have I₀ := hsegs ▸ I
  have I₂ := halloc.inv_copied (k := x.addr + 56) hnew hlt.le
  obtain ⟨y', hy', haddr, hle, -, hfilled⟩ := usedOf_filled hnew
  have hx₁ : x ∈ usedOf l₁ ++ usedOf r₁ := by
    have hmem : x ∈ usedOf (l ++ x :: r) := mem_usedOf.mpr ⟨by simp, hx⟩
    rwa [hsegs, usedOf_append, usedOf_free hy] at hmem
  have hyx : y.addr ≠ x.addr := (I₀.addr_ne (mem_append_used hx₁)).symm
  have hy₂ : y' ∈ usedOf l₂ ++ usedOf r₂ := by
    have hmem : y' ∈ usedOf (l₁ ++ (filled y new ++ r₁)) := by
      rw [usedOf_append, hfilled]
      simp
    rw [hlist, usedOf_append, usedOf_cons hx, List.mem_append, List.mem_cons] at hmem
    obtain hmem | rfl | hmem := hmem
    · exact List.mem_append_left _ hmem
    · exact absurd haddr.symm hyx
    · exact List.mem_append_right _ hmem
  have howned : Owns (copied u (y.addr + 56) (x.addr + 56) x.size).mem
      (usedOf (l₁ ++ (filled y new ++ r₁))) (resized c (y.addr + 56) size t.mem :: live) := by
    refine halloc.owns I₀ hy hnew (hsegs ▸ ho) rfl hsize (fun z hz b hlo hhi => ?_) fun i hi => ?_
    · have hapart := I₀.apart (mem_append_used hz)
      unfold Segment.stop at hapart hhi
      exact copy_apart (by omega)
    · have hi : i < size := hi
      show copy u.mem (y.addr + 56) (x.addr + 56) x.size (y.addr + 56 + i) =
        if i < c.size then c.bytes i else t.mem (y.addr + 56 + i)
      split
      · have hin : x.addr + 56 + i < x.stop := by
          unfold Segment.stop
          omega
        rw [copy_inside (by omega), halloc.kept I₀ hnew x hx₁ _ (by omega) hin, hptr]
        exact ho.bytes c hc i ‹_›
      · refine (h.kept y' hy₂ _ (by omega) ?_).symm
        unfold Segment.stop
        omega
  rw [hlist] at I₂ howned
  have hfree := h.owns I₂ hx howned
  have herase : eraseBlock (resized c (y.addr + 56) size t.mem :: live) (x.addr + 56) =
      resized c (y.addr + 56) size t.mem :: eraseBlock live (x.addr + 56) :=
    List.filter_cons_of_pos (decide_eq_true fun heq => by
      have heq : y.addr + 56 = x.addr + 56 := heq
      omega)
  rwa [herase, hptr] at hfree

theorem Reallocated.owns {size : ℕ} (I : HeapInv s (l ++ x :: r)) (hx : x.used = true)
    (h : Reallocated s t l x r new ptr segs') (ho : Owns s.mem (usedOf (l ++ x :: r)) live)
    (hc : c ∈ live) (hptr : x.addr + 56 = c.ptr) (hsize : size ≤ new) :
    Owns t.mem (usedOf segs') (resized c ptr size t.mem :: eraseBlock live c.ptr) := by
  have hlive := ho
  rw [usedOf_append, usedOf_cons hx] at hlive
  have hne : ∀ v ∈ usedOf l ++ usedOf r, v.addr ≠ x.addr :=
    fun v hv => I.addr_ne (mem_append_used hv)
  cases h with
  | same heq hst =>
    subst hst heq
    rw [hptr, usedOf_append, usedOf_cons hx]
    exact hlive.resize hc hptr hne (fun _ _ _ _ _ => rfl) rfl hsize fun _ _ _ _ => rfl
  | shrunk hlt hedit =>
    obtain ⟨y, hy, haddr, hle, hstop, hfilled⟩ := usedOf_filled hlt.le
    rw [hptr, usedOf_append, hfilled]
    refine hlive.resize hc hptr hne (hedit.kept (fun v hv => ?_) fun _ _ _ _ _ h => h) haddr
      (by omega) fun b hlo hhi hby => hedit.bytes b (hedit.inv.not_headerByte (x := y) ?_ ?_ hby)
    · obtain hv | hv := List.mem_append.mp (mem_append_used hv)
      · exact List.mem_append_left _ hv
      · exact List.mem_append_right _ (List.mem_append_right _ hv)
    · exact List.mem_append_right _ (List.mem_append_left _ hy)
    · omega
  | grown hr hz hlt hfits hgrown =>
    rename_i z r'
    subst hr
    have hle : new ≤ (merged x z).size := by
      show new ≤ x.size + 56 + z.size
      omega
    have hstop := (merged_lt I).2.2
    have I' : HeapInv s ((l ++ [x]) ++ z :: r') := by simpa using I
    obtain ⟨y, hy, haddr, hle, -, hfilled⟩ := usedOf_filled hle
    rw [usedOf_free hz] at hlive hne
    rw [hptr, usedOf_append, hfilled]
    refine hlive.resize hc hptr hne (hgrown.kept (fun v hv => ?_) fun v hv b hlo hhi hb => ?_)
      haddr (by omega) fun b hlo hhi hby => hgrown.bytes b ?_
    · obtain hv | hv := List.mem_append.mp (mem_append_used hv)
      · exact List.mem_append_left _ hv
      · exact List.mem_append_right _ (List.mem_append_right _ hv)
    · refine hb.resolve_right fun hin => ?_
      have hv : v ∈ (l ++ [x]) ++ r' := by
        have hv := mem_append_used hv
        simp only [List.mem_append] at hv ⊢
        exact hv.imp_left .inl
      have hapart := I'.apart hv
      unfold Segment.stop at hapart hhi
      omega
    · rintro (hb | hin)
      · refine hgrown.inv.not_headerByte (x := y) ?_ (by rw [haddr]; exact hlo) hby hb
        exact List.mem_append_right _ (List.mem_append_left _ hy)
      · omega
  | moved hsegs hy hlt hnew halloc hlist hfreed =>
    obtain ⟨v, hv, hvptr, hvsize⟩ := ho.owner c hc
    have hcx : c.size ≤ x.size := by
      rw [usedOf_append, usedOf_cons hx, List.mem_append, List.mem_cons] at hv
      obtain hv | rfl | hv := hv
      · exact absurd (hne v (List.mem_append_left _ hv)) (by omega)
      · exact hvsize
      · exact absurd (hne v (List.mem_append_right _ hv)) (by omega)
    exact hfreed.owns_moved I hx ho hc hptr hcx hsize hsegs hy hlt hnew halloc hlist

end KPanic.Heap
