import KPanic.Mm.HeapOps

/-!
# Allocating and freeing on the list of segments
-/

namespace KPanic.Heap

open Bytes Wp MallocSegment

variable {s t u : KernelMemoryManager} {m m' : Memory} {x y z : Segment}
  {l l' r r' segs segs' : List Segment} {p n a e v b : ℕ} {allowed : Failure → Prop}
  {Q : PUnit → KernelMemoryManager → Prop}

/-! ### Walks -/

theorem Tiles.length_le (h : Tiles a l e) : a + 56 * l.length ≤ e := by
  induction l generalizing a with
  | nil => exact h.le
  | cons x l ih =>
    have hle := ih h.2
    have hx := h.1
    unfold Segment.stop at hle
    rw [List.length_cons]
    omega

/-- The walks have enough fuel. -/
theorem HeapInv.length_lt (I : HeapInv s segs) : segs.length < fuel s := by
  have hlength := I.tiles.length_le
  have htop := I.top_le
  have hbreak := I.break_
  have hreserved := I.reserved
  unfold fuel
  omega

theorem HeapInv.head (I : HeapInv s segs) : s.first_ = headAddr segs 0 := by
  have hfirst := I.first
  have htiles := I.tiles
  cases segs with
  | nil =>
    have htop : s.base_break_ = top s := htiles
    unfold top at htop
    omega
  | cons x l => exact hfirst.trans htiles.1.symm

theorem wp_checkLoop {k : ℕ} (h : Linked s.mem p l 0) (hne : ∀ y ∈ l, y.addr ≠ 0)
    (hk : l.length < k) : wp allowed (checkLoop k (headAddr l 0)) (fun _ t => t = s) s := by
  induction l generalizing p k with
  | nil =>
    cases k with
    | zero => omega
    | succ k => exact wp_ite (fun hc => absurd rfl hc) fun _ => (wp_pure _).mpr rfl
  | cons x l ih =>
    cases k with
    | zero => omega
    | succ k =>
      rw [List.length_cons] at hk
      refine wp_ite (fun _ => ?_) fun hc => absurd (hne x List.mem_cons_self) hc
      refine (wp_bind _ _ _).mpr (wp_checkMarker h.1 rfl (hne x List.mem_cons_self) ?_)
      refine (wp_bind _ _ _).mpr (wp_readNext h.1 rfl ?_)
      exact ih h.2 (fun y hy => hne y (List.mem_cons_of_mem _ hy)) (by omega)

theorem HeapInv.wp_checkLoop (I : HeapInv s segs) :
    wp allowed (checkLoop (fuel s) s.first_) (fun _ t => t = s) s := by
  rw [I.head]
  exact Heap.wp_checkLoop I.linked (fun y hy => (I.mem_bounds hy).2.2.2.1) I.length_lt

/-- The segment that the search returns, if there is one. -/
theorem wp_findLoop {k req : ℕ} (h : Linked s.mem p l 0) (hl : ∀ y ∈ l, y.addr ≠ 0 ∧ y.size < 2 ^ 31)
    (hk : l.length < k) : wp allowed (findLoop req k (headAddr l 0)) (fun found t => t = s ∧
      match found with
      | some a => ∃ l₁ x l₂, l = l₁ ++ x :: l₂ ∧ a = x.addr ∧ x.used = false ∧ req ≤ x.size ∧
        ∀ y ∈ l₁, ¬(req ≤ y.size ∧ y.used = false)
      | none => ∀ y ∈ l, ¬(req ≤ y.size ∧ y.used = false)) s := by
  induction l generalizing p k with
  | nil =>
    cases k with
    | zero => omega
    | succ k =>
      exact wp_ite (fun _ => (wp_pure _).mpr ⟨rfl, nofun⟩) fun hc => absurd rfl hc
  | cons x l ih =>
    cases k with
    | zero => omega
    | succ k =>
      have hx := hl x List.mem_cons_self
      rw [List.length_cons] at hk
      refine wp_ite (fun hc => absurd hc hx.1) fun _ => ?_
      refine (wp_bind _ _ _).mpr (wp_checkMarker h.1 rfl hx.1 ?_)
      refine (wp_bind _ _ _).mpr (wp_getSize h.1 rfl hx.2 ?_)
      refine (wp_bind _ _ _).mpr (wp_getUsed h.1 rfl hx.2 ?_)
      refine wp_ite (fun hfit => (wp_pure _).mpr ⟨rfl, [], x, l, rfl, rfl, hfit.2, hfit.1, nofun⟩) fun hno => ?_
      refine (wp_bind _ _ _).mpr (wp_readNext h.1 rfl ?_)
      refine wp_mono (ih h.2 (fun y hy => hl y (List.mem_cons_of_mem _ hy)) (by omega)) ?_
      rintro found _ ⟨rfl, hfound⟩
      refine ⟨rfl, ?_⟩
      cases found with
      | some a =>
        obtain ⟨l₁, w, l₂, rfl, ha, hused, hsize, hfirst⟩ := hfound
        exact ⟨x :: l₁, w, l₂, rfl, ha, hused, hsize, List.forall_mem_cons.mpr ⟨hno, hfirst⟩⟩
      | none => exact List.forall_mem_cons.mpr ⟨hno, hfound⟩

/-! ### `freeSegment` -/

/-- The bytes that a merge into `y` may change. -/
def Touched (segs : List Segment) (y : Segment) (b : ℕ) : Prop :=
  HeaderByte segs b ∨ (y.addr ≤ b ∧ b < y.stop)

/-- How `y` begins, for a segment `x` with `l` before it. -/
def Before (l l' : List Segment) (x y : Segment) : Prop :=
  (l' = l ∧ y.addr = x.addr ∧ ∀ w ∈ l.getLast?, w.used = true) ∨
    ∃ w, l = l' ++ [w] ∧ w.used = false ∧ y.addr = w.addr

/-- How `y` ends, for a segment `x` with `r` behind it. -/
def Behind (r r' : List Segment) (x y : Segment) : Prop :=
  (r' = r ∧ y.stop = x.stop ∧ ∀ z ∈ r.head?, z.used = true) ∨
    ∃ z, r = z :: r' ∧ z.used = false ∧ y.stop = z.stop

theorem touched_merged (I : HeapInv s (l ++ x :: z :: r))
    (h : Touched (l ++ x :: z :: r) x b ∨ Touched (l ++ x :: z :: r) z b) :
    Touched (l ++ merged x z :: r) (merged x z) b := by
  obtain ⟨-, hmstop, hstop⟩ := merged_lt I
  have hmaddr : (merged x z).addr = x.addr := rfl
  have hxstop : x.stop = x.addr + 56 + x.size := rfl
  have hzstop : z.stop = z.addr + 56 + z.size := rfl
  have hheader : HeaderByte (l ++ x :: z :: r) b →
      Touched (l ++ merged x z :: r) (merged x z) b := by
    rintro ⟨w, hw, hlo, hhi⟩
    simp only [List.mem_append, List.mem_cons] at hw
    obtain hw | rfl | rfl | hw := hw
    · exact .inl ⟨w, List.mem_append_left _ hw, hlo, hhi⟩
    · exact .inr (by omega)
    · exact .inr (by omega)
    · exact .inl ⟨w, List.mem_append_right _ (List.mem_cons_of_mem _ hw), hlo, hhi⟩
  obtain (h | ⟨hlo, hhi⟩) | (h | ⟨hlo, hhi⟩) := h
  · exact hheader h
  · exact .inr (by omega)
  · exact hheader h
  · exact .inr (by omega)

theorem wp_mergeBefore (I : HeapInv s (l ++ x :: r)) (hx : x.used = false) :
    wp allowed (mergeWithPrevious x.addr) (fun a t => ∃ l' y, a = y.addr ∧ y.used = false ∧
      y.stop = x.stop ∧ Before l l' x y ∧
      (∀ b, Touched (l ++ x :: r) x b → Touched (l' ++ y :: r) y b) ∧
      Edited s t (l' ++ y :: r) (Touched (l' ++ y :: r) y)) s := by
  by_cases hl : ∀ w ∈ l.getLast?, w.used = true
  · refine wp_mono (wp_mergeWithPrevious_none I hl) ?_
    rintro _ _ ⟨rfl, rfl⟩
    exact ⟨l, x, rfl, hx, rfl, .inl ⟨rfl, rfl, hl⟩, fun _ h => h, I, ⟨_, _, rfl⟩, fun _ _ => rfl⟩
  · obtain rfl | ⟨l', w, rfl⟩ := List.eq_nil_or_concat' l
    · exact absurd nofun hl
    · have hw : w.used = false := by simpa using hl
      have I' : HeapInv s (l' ++ w :: x :: r) := by simpa using I
      refine wp_mono (wp_mergeWithPrevious I' hw) ?_
      rintro _ t ⟨rfl, hedit⟩
      refine ⟨l', merged w x, rfl, hw, (merged_lt I').2.1, .inr ⟨w, rfl, hw, rfl⟩,
        fun b hb => ?_, hedit.inv, hedit.same, ?_⟩
      · have hb' : Touched (l' ++ w :: x :: r) x b := by simpa using hb
        exact touched_merged I' (.inr hb')
      exact fun b hb => hedit.bytes b fun hp => hb (touched_merged I' (.inl (.inl hp)))

theorem wp_mergeBehind (I : HeapInv s (l ++ x :: r)) (hx : x.used = false) :
    wp allowed (mergeWithFollowingFreeSegment x.addr) (fun _ t => ∃ y r', y.addr = x.addr ∧
      y.used = false ∧ x.stop ≤ y.stop ∧ Behind r r' x y ∧
      (∀ b, Touched (l ++ x :: r) x b → Touched (l ++ y :: r') y b) ∧
      Edited s t (l ++ y :: r') (Touched (l ++ y :: r') y)) s := by
  by_cases hr : ∀ z ∈ r.head?, z.used = true
  · refine wp_mono (wp_mergeFollowing_none I hr) ?_
    rintro _ _ rfl
    exact ⟨x, r, rfl, hx, le_rfl, .inl ⟨rfl, rfl, hr⟩, fun _ h => h, I, ⟨_, _, rfl⟩, fun _ _ => rfl⟩
  · cases r with
    | nil => exact absurd nofun hr
    | cons z r =>
      have hz : z.used = false := by simpa using hr
      have hstop := (merged_lt I).2
      have hzstop : z.stop = z.addr + 56 + z.size := rfl
      refine wp_mono (wp_mergeFollowing I hz) ?_
      rintro _ t ⟨hedit, -⟩
      refine ⟨merged x z, r, rfl, hx, by omega, .inr ⟨z, rfl, hz, hstop.1⟩,
        fun b hb => touched_merged I (.inl hb), hedit.inv, hedit.same, ?_⟩
      exact fun b hb => hedit.bytes b fun hp => hb (touched_merged I (.inl (.inl hp)))

theorem lastAddr_eq (I : HeapInv s (l ++ x :: r)) : x.addr = s.last_ ↔ r = [] := by
  rw [I.last, lastAddr_append, lastAddr]
  obtain rfl | ⟨r', y, rfl⟩ := List.eq_nil_or_concat' r
  · exact iff_of_true rfl rfl
  · have hle := I.behind (y := y) (by simp)
    rw [lastAddr_append]
    refine iff_of_false (fun heq => ?_) (by simp)
    have haddr : x.addr = y.addr := heq
    unfold Segment.stop at hle
    omega

theorem firstAddr_eq (I : HeapInv s (l ++ x :: r)) : x.addr = s.first_ ↔ l = [] := by
  rw [I.head, headAddr_append]
  cases l with
  | nil => exact iff_of_true rfl rfl
  | cons y l =>
    have hle := I.before (y := y) List.mem_cons_self
    refine iff_of_false (fun heq => ?_) (List.cons_ne_nil _ _)
    have haddr : x.addr = y.addr := heq
    unfold Segment.stop at hle
    omega

/-- Without `DYNAMIC_KMM` the break does not move. -/
theorem wp_ksbrk {size : ℕ} {Q : ℕ → KernelMemoryManager → Prop}
    (h : ∀ e : Failure, e.ofKsbrk = true → allowed e) : wp allowed (ksbrk size) Q s := by
  simp only [ksbrk, wp_bind, wp_get, require]
  refine wp_ite (fun _ => (wp_pure _).mpr ?_) fun _ => (wp_throw _).mpr (h _ rfl)
  refine wp_ite (fun _ => (wp_pure _).mpr ?_) fun _ => (wp_throw _).mpr (h _ rfl)
  exact wp_ite (fun hd => absurd hd (by decide)) fun _ => (wp_throw _).mpr (h _ rfl)

/-- The break is left alone, except where one segment is left: there the code wants to move it. -/
theorem wp_changeBreak (I : HeapInv s (l ++ x :: r))
    (hsingle : l = [] → r = [] → ∀ e : Failure, e.ofKsbrk = true → allowed e) :
    wp allowed (changeBreak x.addr) (fun _ t => t = s ∧ (l ≠ [] ∨ r ≠ [])) s := by
  have hx := I.mem_bounds (x := x) (by simp)
  have htop := I.top_le
  have hbreak := I.break_
  have hstop : x.stop = x.addr + 56 + x.size := rfl
  simp only [changeBreak, wp_bind, wp_get]
  refine wp_getSize I.header rfl hx.2.2.1 ?_
  refine wp_ite (fun hlast => ?_) fun hlast => (wp_pure _).mpr ⟨rfl, .inr fun hr => hlast ((lastAddr_eq I).mpr hr)⟩
  have hr := (lastAddr_eq I).mp hlast
  refine wp_ite (fun hfirst => ?_) fun hfirst => ?_
  · have hl : l ≠ [] := fun hl => hfirst ((firstAddr_eq I).mpr hl)
    refine wp_ite (fun hgt => ?_) fun _ => wp_ite (fun _ => (wp_pure _).mpr ⟨rfl, .inl hl⟩) fun hgt => ?_
    · omega
    · simp only [sizeof_MallocSegment] at hgt
      omega
  · have hl := (firstAddr_eq I).mp (not_not.mp hfirst)
    have hsize : x.size < s.reserved_min_ := by omega
    have hwrap : sub64 x.size s.reserved_min_ ≠ 0 := by
      have hfits := I.fits
      unfold sub64
      omega
    rw [if_pos hwrap]
    exact (wp_bind _ _ _).mpr (wp_ksbrk (hsingle hl hr))

theorem wp_freeSegment (I : HeapInv s (l ++ x :: r)) (hx : x.used = true)
    (hsingle : (∀ w ∈ l ++ r, w.used = false) → ∀ e : Failure, e.ofKsbrk = true → allowed e) :
    wp allowed (freeSegment x.addr) (fun _ t => ∃ l' y r', y.used = false ∧ Before l l' x y ∧
      Behind r r' x y ∧ (l' ≠ [] ∨ r' ≠ []) ∧ HeapInv t (l' ++ y :: r') ∧
      (∃ mem last, t = { s with mem := mem, last_ := last }) ∧
      ∀ b, ¬HeaderByte (l' ++ y :: r') b →
        t.mem b = if y.addr + 56 ≤ b ∧ b < y.stop then 0 else s.mem b) s := by
  have hxb := I.mem_bounds (x := x) (by simp)
  have hedit := I.setUsed false
  refine (wp_bind _ _ _).mpr (wp_checkMarker I.header rfl hxb.2.2.2.1 ?_)
  refine (wp_bind _ _ _).mpr (wp_getUsed I.header rfl hxb.2.2.1 ?_)
  refine (wp_bind _ _ _).mpr (wp_require hx ?_)
  refine (wp_bind _ _ _).mpr (wp_setUsed I.header rfl hxb.2.2.1 ?_)
  refine wp_seq (wp_mergeBefore (x := { x with used := false }) hedit.inv rfl) ?_
  rintro _ t₁ ⟨l', y₁, rfl, hy₁, hstop₁, hbefore, htouched₁, hedit₁⟩
  refine wp_seq (wp_mergeBehind hedit₁.inv hy₁) ?_
  rintro _ t₂ ⟨y, r', haddr, hy, hstop, hbehind, htouched, hedit₂⟩
  have I₂ := hedit₂.inv
  have hyb := I₂.mem_bounds (x := y) (by simp)
  rw [← haddr]
  refine (wp_bind _ _ _).mpr (wp_getSize I₂.header rfl hyb.2.2.1 ?_)
  refine (wp_bind _ _ _).mpr ((wp_modify _ _).mpr ?_)
  have I₃ : HeapInv { t₂ with mem := fill t₂.mem (y.addr + 56) y.size 0 } (l' ++ y :: r') := by
    refine I₂.congr (fun b hb => fill_apart ?_) _
    by_contra hin
    refine I₂.not_headerByte (x := y) (by simp) (by omega) ?_ hb
    unfold Segment.stop
    omega
  have halone : l' = [] → r' = [] → ∀ w ∈ l ++ r, w.used = false := by
    rintro rfl rfl w hw
    obtain hw | hw := List.mem_append.mp hw
    · obtain ⟨rfl, -, -⟩ | ⟨w', rfl, hw', -⟩ := hbefore
      · cases hw
      · rwa [List.mem_singleton.mp hw]
    · obtain ⟨rfl, -, -⟩ | ⟨z, rfl, hz, -⟩ := hbehind
      · cases hw
      · rwa [List.mem_singleton.mp hw]
  refine wp_seq (wp_changeBreak I₃ fun hl hr => hsingle (halone hl hr)) ?_
  rintro _ _ ⟨rfl, hne⟩
  refine (wp_bind _ _ _).mpr ((wp_get _).mpr ?_)
  refine (wp_bind _ _ _).mpr ((wp_get _).mpr (wp_mono I₃.wp_checkLoop ?_))
  rintro _ _ rfl
  have hsame : ∃ mem last, t₂ = { s with mem := mem, last_ := last } := by
    obtain ⟨mem₁, last₁, rfl⟩ := hedit₁.same
    obtain ⟨mem₂, last₂, h₂⟩ := hedit₂.same
    exact ⟨mem₂, last₂, h₂⟩
  refine ⟨l', y, r', hy, ?_, ?_, hne, I₃, ?_, fun b hb => ?_⟩
  · rw [Before, haddr]
    exact hbefore
  · obtain ⟨hr, hys, hused⟩ | ⟨z, hr, hz, hys⟩ := hbehind
    · exact .inl ⟨hr, hys.trans hstop₁, hused⟩
    · exact .inr ⟨z, hr, hz, hys⟩
  · obtain ⟨mem, last, rfl⟩ := hsame
    exact ⟨_, _, rfl⟩
  · by_cases hin : y.addr + 56 ≤ b ∧ b < y.stop
    · rw [if_pos hin]
      exact fill_inside hin.1 hin.2
    · rw [if_neg hin]
      have hout : ¬Touched (l' ++ y :: r') y b := by
        rintro (h | ⟨hlo, hhi⟩)
        · exact hb h
        · exact hb ⟨y, by simp, by omega, by omega⟩
      have hout₁ : ¬Touched (l' ++ y₁ :: r) y₁ b := fun h => hout (htouched b h)
      have hout₀ : ¬HeaderByte (l ++ x :: r) b := by
        rintro ⟨w, hw, hwb⟩
        refine hout₁ (htouched₁ b (.inl ?_))
        simp only [List.mem_append, List.mem_cons] at hw
        obtain hw | rfl | hw := hw
        · exact ⟨w, by simp [hw], hwb⟩
        · exact ⟨{ w with used := false }, by simp, hwb⟩
        · exact ⟨w, by simp [hw], hwb⟩
      refine (fill_apart (by unfold Segment.stop at hin; omega)).trans ?_
      exact (hedit₂.bytes b hout).trans ((hedit₁.bytes b hout₁).trans (hedit.bytes b hout₀))

/-! ### `allocateMemory` -/

theorem wp_findFreeSegment {req : ℕ} (I : HeapInv s segs)
    (hk : ∀ e : Failure, e.ofKsbrk = true → allowed e) :
    wp allowed (findFreeSegment req) (fun a t => t = s ∧ ∃ l x r, segs = l ++ x :: r ∧
      a = x.addr ∧ x.used = false ∧ req ≤ x.size) s := by
  have hbreak := I.break_
  simp only [findFreeSegment, wp_bind, wp_get]
  rw [I.head]
  refine wp_mono (wp_findLoop I.linked (fun y hy => ⟨(I.mem_bounds hy).2.2.2.1, (I.mem_bounds hy).2.2.1⟩)
    I.length_lt) ?_
  rintro found t ⟨rfl, hfound⟩
  cases found with
  | some a =>
    obtain ⟨l, x, r, rfl, rfl, hused, hsize, -⟩ := hfound
    exact (wp_pure _).mpr ⟨rfl, l, x, r, rfl, rfl, hused, hsize⟩
  | none =>
    obtain rfl | ⟨l, x, rfl⟩ := List.eq_nil_or_concat' segs
    · have htop : t.base_break_ = top t := I.tiles
      unfold top at htop
      omega
    · have hx := I.mem_bounds (x := x) (by simp)
      rw [I.last, lastAddr_append]
      simp only [lastAddr, wp_bind]
      refine wp_getUsed I.header rfl hx.2.2.1 (wp_ite (fun _ => ?_) fun hfree => ?_)
      · exact (wp_bind _ _ _).mpr (wp_ksbrk hk)
      · simp only [wp_bind]
        exact wp_getSize I.header rfl hx.2.2.1 (wp_ksbrk hk)

/-- A field that the list does not depend on. -/
theorem HeapInv.setOther (I : HeapInv s (l ++ x :: r)) (ha : x.addr + 24 ≤ a)
    (ha' : a + 8 ≤ x.addr + 48) :
    Edited s { s with mem := store 8 s.mem a v } (l ++ x :: r) (HeaderByte (l ++ x :: r)) := by
  refine ⟨I.replace (k := []) (j := []) ⟨_, _, rfl⟩ rfl (fun e he => he) ?_
    ⟨I.header.setOther ha ha', trivial⟩ ?_ ?_ ?_, ⟨_, _, rfl⟩, ?_⟩
  · intro w hw b _ hhi
    have hle := I.before hw
    unfold Segment.stop at hle
    exact store_apart (by omega)
  · refine I.linkedBehind.congr fun w hw b hlo _ => store_apart ?_
    have hle := I.behind hw
    unfold Segment.stop at hle
    omega
  · have hlast := I.last
    rw [lastAddr_append] at hlast
    exact hlast
  · rintro rfl w hw
    obtain rfl : x = w := by simpa using hw
    exact I.lastSize x (by simp)
  · intro b hb
    refine store_apart ?_
    by_contra hin
    exact hb ⟨x, by simp, by omega, by omega⟩

theorem filled_cons (x : Segment) {req : ℕ} (hreq : req ≤ x.size) : ∃ y rest,
    filled x req = y :: rest ∧ y.addr = x.addr ∧ y.used = true ∧ req ≤ y.size ∧
      y.size ≤ x.size ∧ ∀ z ∈ rest, z.used = false ∧ y.stop = z.addr ∧ z.stop = x.stop := by
  unfold filled
  split
  · refine ⟨_, _, rfl, rfl, rfl, le_rfl, hreq, fun z hz => ?_⟩
    rw [List.mem_singleton.mp hz]
    refine ⟨rfl, rfl, ?_⟩
    unfold Segment.stop
    simp only
    omega
  · exact ⟨_, [], rfl, rfl, rfl, hreq, le_rfl, nofun⟩

/-- What an allocation of `req` bytes in the free segment `x` leaves. -/
def Allocated (s t : KernelMemoryManager) (l : List Segment) (x : Segment) (r : List Segment)
    (req : ℕ) (w : List (ℕ × ℕ)) : Prop :=
  Edited (zeroed s x req w) t (l ++ (filled x req ++ r)) (HeaderByte (l ++ (filled x req ++ r))) ∧
    ((∀ b, x.addr + 56 ≤ b → b < x.addr + 56 + req → s.mem b = 0) → w = [])

theorem wp_private_AllocateMemory {req : ℕ} {caller : Caller} (I : HeapInv s segs)
    (halign : req % 16 = 0) (hk : ∀ e : Failure, e.ofKsbrk = true → allowed e)
    (h : allowed .memoryNotZero ∨ ∀ x ∈ segs, x.used = false →
      ∀ b, x.addr + 56 ≤ b → b < x.stop → s.mem b = 0) :
    wp allowed (private_AllocateMemory req caller) (fun ptr t => ∃ l x r w, segs = l ++ x :: r ∧
      x.used = false ∧ req ≤ x.size ∧ ptr = x.addr + 56 ∧ Allocated s t l x r req w) s := by
  refine (wp_bind _ _ _).mpr (wp_require halign ?_)
  refine wp_seq (wp_findFreeSegment I hk) ?_
  rintro _ t ⟨rfl, l, x, r, rfl, rfl, hused, hsize⟩
  have hx := I.mem_bounds (x := x) (by simp)
  refine (wp_bind _ _ _).mpr (wp_require hx.2.2.2.1 ?_)
  have hzero : allowed .memoryNotZero ∨
      ∀ b, x.addr + 56 ≤ b → b < x.addr + 56 + req → t.mem b = 0 :=
    h.imp_right fun h b hlo hhi => h x (by simp) hused b hlo (by unfold Segment.stop; omega)
  refine wp_seq (wp_fillSegment_check I hsize halign hzero) ?_
  rintro _ u ⟨w, hedit, hw⟩
  obtain ⟨y, rest, hfilled, haddr, -, -, -, -⟩ := filled_cons x hsize
  have hsegs : l ++ (filled x req ++ r) = l ++ y :: (rest ++ r) := by rw [hfilled, List.cons_append]
  rw [hsegs] at hedit
  have hother : ∀ {u' : KernelMemoryManager} {a v : ℕ}, Edited (zeroed t x req w) u'
      (l ++ y :: (rest ++ r)) (HeaderByte (l ++ y :: (rest ++ r))) → y.addr + 24 ≤ a →
      a + 8 ≤ y.addr + 48 → Edited (zeroed t x req w) { u' with mem := store 8 u'.mem a v }
      (l ++ y :: (rest ++ r)) (HeaderByte (l ++ y :: (rest ++ r))) :=
    fun h ha ha' => h.trans (h.inv.setOther ha ha') fun _ h => h
  simp only [wp_bind, wp_write, wp_get, wp_pure, Field.offset]
  refine ⟨l, x, r, w, rfl, hused, hsize, rfl, ?_, hw⟩
  rw [hsegs]
  exact hother (hother (hother hedit (by omega) (by omega)) (by omega) (by omega)) (by omega) (by omega)

theorem align_spec {size : ℕ} (h : size < 2 ^ 64) (hbit : size.testBit 31 = false) :
    size ≤ align size ∧ align size % 16 = 0 := by
  have hlt : size + 0xF < 2 ^ 64 := by
    by_contra hge
    have hmod : size / 2 ^ 31 % 2 = 1 := by omega
    rw [Nat.testBit_eq_decide_div_mod_eq, hmod] at hbit
    cases hbit
  unfold align
  omega

theorem wp_checkRequest {size : ℕ} (hlarge : allowed .requestedTooMuch)
    (hQ : size.testBit 31 = false → Q ⟨⟩ s) : wp allowed (checkRequest size) Q s :=
  wp_ite (fun h => (wp_pure _).mpr (hQ h)) fun _ => (wp_throw _).mpr hlarge

/-! ### `freeMemory` -/

/-- What freeing the used segment `x` leaves; `y` is the free segment that it becomes part of. -/
structure Freed (s t : KernelMemoryManager) (l : List Segment) (x : Segment) (r : List Segment)
    (l' : List Segment) (y : Segment) (r' : List Segment) : Prop where
  free : y.used = false
  before : Before l l' x y
  behind : Behind r r' x y
  notAlone : l' ≠ [] ∨ r' ≠ []
  inv : HeapInv t (l' ++ y :: r')
  same : ∃ mem last, t = { s with mem := mem, last_ := last }
  bytes : ∀ b, ¬HeaderByte (l' ++ y :: r') b →
    t.mem b = if y.addr + 56 ≤ b ∧ b < y.stop then 0 else s.mem b

theorem wp_markerOk_zero {Q : Bool → KernelMemoryManager → Prop}
    (h : ∀ b, a ≤ b → b < a + 8 → s.mem b = 0) (hQ : Q false s) :
    wp allowed (markerOk a) Q s := by
  have hne : load 8 s.mem a ≠ marker a := by
    rw [load_eq_zero.mpr h]
    unfold marker
    omega
  rw [markerOk, wp_bind, wp_read, wp_pure, Field.offset, Nat.add_zero, decide_eq_false hne]
  exact hQ

theorem wp_freeAt {caller : Caller} (I : HeapInv s (l ++ x :: r)) (hx : x.used = true)
    (hsingle : (∀ w ∈ l ++ r, w.used = false) → ∀ e : Failure, e.ofKsbrk = true → allowed e) :
    wp allowed (freeAt x.addr caller) (fun _ t => ∃ l' y r', Freed s t l x r l' y r') s := by
  have hxb := I.mem_bounds (x := x) (by simp)
  have htop := I.top_le
  have hxstop : x.stop = x.addr + 56 + x.size := rfl
  refine wp_seq (wp_freeSegment I hx hsingle) ?_
  rintro _ t ⟨l', y, r', hy, hbefore, hbehind, hne, I', hsame, hbytes⟩
  have hfreed : Freed s t l x r l' y r' := ⟨hy, hbefore, hbehind, hne, I', hsame, hbytes⟩
  have hkernel : t.kernel_break_ = s.kernel_break_ := by
    obtain ⟨mem, last, rfl⟩ := hsame
    rfl
  have hstop : x.stop ≤ y.stop := by
    obtain ⟨-, hstop, -⟩ | ⟨z, rfl, -, hstop⟩ := hbehind
    · exact hstop.ge
    · have hle := I.behind (y := z) List.mem_cons_self
      have hzstop : z.stop = z.addr + 56 + z.size := rfl
      omega
  refine (wp_bind _ _ _).mpr ((wp_get _).mpr (wp_ite (fun _ => ?_) fun hge => absurd ?_ hge))
  · obtain ⟨-, haddr, -⟩ | ⟨w, rfl, -, haddr⟩ := id hbefore
    · refine (wp_bind _ _ _).mpr (wp_markerOk I'.header haddr ?_)
      rw [if_pos rfl]
      have hedit := I'.setOther (a := x.addr + 24) (v := caller.called_by) (by omega) (by omega)
      refine wp_write.mpr ⟨l', y, r', ?_⟩
      obtain ⟨mem, last, rfl⟩ := hsame
      exact ⟨hy, hbefore, hbehind, hne, hedit.inv, ⟨_, _, rfl⟩,
        fun b hb => (hedit.bytes b hb).trans (hbytes b hb)⟩
    · have hwle := I.before (y := w) (by simp)
      unfold Segment.stop at hwle
      refine (wp_bind _ _ _).mpr (wp_markerOk_zero (fun b hlo hhi => ?_) ?_)
      · rw [hbytes b (I'.not_headerByte (x := y) (by simp) (by omega) (by omega)), if_pos (by omega)]
      · exact (wp_pure _).mpr ⟨l', y, r', hfreed⟩
  · omega

/-- The byte after the header of a segment lies in the heap. -/
theorem HeapInv.body_lt (I : HeapInv s (l ++ x :: r)) : x.addr + 56 < s.kernel_break_ := by
  have hx := I.mem_bounds (x := x) (by simp)
  have htop := I.top_le
  have hxstop : x.stop = x.addr + 56 + x.size := rfl
  cases r with
  | nil =>
    have hsize := I.lastSize x (by simp)
    omega
  | cons z r =>
    have hle := I.behind (y := z) List.mem_cons_self
    have hz := I.mem_bounds (x := z) (by simp)
    have hzstop : z.stop = z.addr + 56 + z.size := rfl
    omega

theorem wp_getSegmentFromAddress {Q : ℕ → KernelMemoryManager → Prop} (I : HeapInv s (l ++ x :: r))
    (hQ : Q x.addr s) : wp allowed (getSegmentFromAddress (x.addr + 56)) Q s := by
  have hx := I.mem_bounds (x := x) (by simp)
  refine (wp_bind _ _ _).mpr (wp_require (by omega) ?_)
  refine (wp_bind _ _ _).mpr (wp_checkMarker I.header rfl hx.2.2.2.1 ?_)
  exact (wp_pure _).mpr hQ

theorem wp_freeMemory {caller : Caller} (I : HeapInv s (l ++ x :: r)) (hx : x.used = true)
    (hsingle : (∀ w ∈ l ++ r, w.used = false) → ∀ e : Failure, e.ofKsbrk = true → allowed e) :
    wp allowed (freeMemory (x.addr + 56) caller)
      (fun ok t => ok = true ∧ ∃ l' y r', Freed s t l x r l' y r') s := by
  have hxb := I.mem_bounds (x := x) (by simp)
  have hbody := I.body_lt
  have hfirst := I.first
  refine (wp_bind _ _ _).mpr ((wp_get _).mpr (wp_ite (fun hc => by omega) fun _ => ?_))
  refine (wp_bind _ _ _).mpr (wp_getSegmentFromAddress I ?_)
  refine (wp_bind _ _ _).mpr (wp_markerOk I.header rfl ?_)
  refine wp_ite (fun h => by cases h) fun _ => ?_
  refine wp_seq (wp_freeAt I hx hsingle) fun _ t ht => ?_
  exact (wp_pure _).mpr ⟨rfl, ht⟩

end KPanic.Heap
