import KPanic.Mm.HeapSegments

/-!
# What the operations do to the list of segments

Each function of the memory manager edits a few neighbouring segments. Its specification says which
segments take their place and which bytes outside the headers may change.
-/

namespace KPanic.Heap

open Bytes Wp MallocSegment

variable {s t u : KernelMemoryManager} {m m' : Memory} {x y z : Segment}
  {l r segs segs' k j : List Segment} {p n a e v b : ℕ} {allowed : Failure → Prop}
  {Q : PUnit → KernelMemoryManager → Prop}

/-! ### The invariant -/

/-- Where the segments end: at the break, if the heap is below `2 ^ 31` bytes. -/
def top (s : KernelMemoryManager) : ℕ := s.base_break_ + 56 + (s.reserved_min_ - 56) % 2 ^ 31

structure HeapInv (s : KernelMemoryManager) (segs : List Segment) : Prop where
  linked : Linked s.mem 0 segs 0
  tiles : Tiles s.base_break_ segs (top s)
  first : s.first_ = s.base_break_
  last : s.last_ = lastAddr 0 segs
  base : 0 < s.base_break_
  break_ : s.kernel_break_ = s.base_break_ + s.reserved_min_
  reserved : 56 ≤ s.reserved_min_
  fits : s.kernel_break_ < 2 ^ 64
  lastSize : ∀ x ∈ segs.getLast?, 0 < x.size

/-- `t` is `s` with other segments; of the other bytes only those in `P` may have changed. -/
structure Edited (s t : KernelMemoryManager) (segs : List Segment) (P : ℕ → Prop) : Prop where
  inv : HeapInv t segs
  same : ∃ mem last, t = { s with mem := mem, last_ := last }
  bytes : ∀ b, ¬P b → t.mem b = s.mem b

theorem top_congr (h : ∃ mem last, t = { s with mem := mem, last_ := last }) : top t = top s := by
  obtain ⟨mem, last, rfl⟩ := h
  rfl

theorem HeapInv.top_le (I : HeapInv s segs) : top s ≤ s.kernel_break_ := by
  have hmod := Nat.mod_le (s.reserved_min_ - 56) (2 ^ 31)
  have hbreak := I.break_
  have hreserved := I.reserved
  unfold top
  omega

/-- The break lies a multiple of `2 ^ 31` bytes after the end of the segments. -/
theorem HeapInv.break_mod (I : HeapInv s segs) : ∃ k, s.kernel_break_ = top s + 2 ^ 31 * k := by
  refine ⟨(s.reserved_min_ - 56) / 2 ^ 31, ?_⟩
  have hdiv := Nat.mod_add_div (s.reserved_min_ - 56) (2 ^ 31)
  have hbreak := I.break_
  have hreserved := I.reserved
  unfold top
  omega

theorem HeapInv.mem_bounds (I : HeapInv s segs) (hx : x ∈ segs) :
    s.base_break_ ≤ x.addr ∧ x.stop ≤ top s ∧ x.size < 2 ^ 31 ∧ x.addr ≠ 0 ∧ x.stop < 2 ^ 64 := by
  have hmem := I.tiles.mem hx
  have hbase := I.base
  have htop := I.top_le
  have hfits := I.fits
  have hmod := Nat.mod_lt (s.reserved_min_ - 56) (by decide : 2 ^ 31 > 0)
  have htop' : top s = s.base_break_ + 56 + (s.reserved_min_ - 56) % 2 ^ 31 := rfl
  unfold Segment.stop at hmem ⊢
  omega

theorem HeapInv.split (I : HeapInv s (l ++ x :: (k ++ r))) :
    Tiles s.base_break_ l x.addr ∧ ∃ e, Tiles x.stop k e ∧ Tiles e r (top s) := by
  obtain ⟨a, hl, hx⟩ := tiles_append.mp I.tiles
  exact ⟨hx.1 ▸ hl, tiles_append.mp hx.2⟩

theorem HeapInv.header (I : HeapInv s (l ++ x :: r)) :
    Header s.mem x (lastAddr 0 l) (headAddr r 0) :=
  (linked_append.mp I.linked).2.1

theorem getLast?_append_cons (l r : List Segment) (x y : Segment) :
    (l ++ x :: (k ++ y :: r)).getLast? = (y :: r).getLast? := by
  rw [List.getLast?_append_of_ne_nil _ (List.cons_ne_nil _ _), ← List.cons_append,
    List.getLast?_append_of_ne_nil _ (List.cons_ne_nil _ _)]

/-- Neighbours are replaced by segments that fill the same addresses. -/
theorem HeapInv.replace (I : HeapInv s (l ++ x :: (k ++ r)))
    (ht : ∃ mem last, t = { s with mem := mem, last_ := last }) (haddr : y.addr = x.addr)
    (htiles : ∀ e, Tiles x.stop k e → Tiles y.stop j e)
    (hl : ∀ z ∈ l, ∀ b, z.addr ≤ b → b < z.addr + 56 → t.mem b = s.mem b)
    (hmid : Linked t.mem (lastAddr 0 l) (y :: j) (headAddr r 0))
    (hr : Linked t.mem (lastAddr y.addr j) r 0)
    (hlast : t.last_ = lastAddr (lastAddr y.addr j) r)
    (hsize : r = [] → ∀ z ∈ (y :: j).getLast?, 0 < z.size) :
    HeapInv t (l ++ y :: (j ++ r)) := by
  have htop := top_congr ht
  obtain ⟨htl, e, htmid, htr⟩ := I.split
  obtain ⟨hlink, -⟩ := linked_append.mp I.linked
  have hlinked : Linked t.mem 0 (l ++ y :: (j ++ r)) 0 := by
    refine linked_append.mpr ⟨?_, (linked_append (l := y :: j)).mpr ⟨hmid, hr⟩⟩
    have hhead : headAddr (y :: (j ++ r)) 0 = headAddr (x :: (k ++ r)) 0 := haddr
    rw [hhead]
    exact hlink.congr hl
  have hlast' : t.last_ = lastAddr 0 (l ++ y :: (j ++ r)) := by
    rw [hlast, lastAddr_append, lastAddr, lastAddr_append]
  have htiles' : Tiles s.base_break_ (l ++ y :: (j ++ r)) (top s) :=
    tiles_append.mpr ⟨x.addr, htl, haddr, tiles_append.mpr ⟨e, htiles e htmid, htr⟩⟩
  have hsize' : ∀ z ∈ (l ++ y :: (j ++ r)).getLast?, 0 < z.size := by
    intro z hz
    cases r with
    | nil =>
      rw [List.append_nil, List.getLast?_append_of_ne_nil _ (List.cons_ne_nil _ _)] at hz
      exact hsize rfl z hz
    | cons w r =>
      rw [getLast?_append_cons] at hz
      refine I.lastSize z ?_
      rw [getLast?_append_cons]
      exact hz
  obtain ⟨mem, last, rfl⟩ := ht
  exact ⟨hlinked, htiles', I.first, hlast', I.base, I.break_, I.reserved, I.fits, hsize'⟩

/-! ### Links to the previous segment -/

/-- The next segment, if there is one, gets `v` as its previous one. -/
def relink (m : Memory) (r : List Segment) (v : ℕ) : Memory :=
  match r with
  | [] => m
  | y :: _ => store 8 m (y.addr + 16) v

theorem relink_apart (h : ¬HeaderByte r b) : relink m r v b = m b := by
  cases r with
  | nil => rfl
  | cons y r =>
    refine store_apart ?_
    by_contra hb
    exact h ⟨y, List.mem_cons_self, by omega, by omega⟩

theorem Linked.relink (h : Linked m p r n) (htiles : Tiles a r e) (hv : v < 2 ^ 64) :
    Linked (relink m r v) v r n := by
  cases r with
  | nil => trivial
  | cons y r =>
    refine ⟨h.1.setPrev hv, h.2.congr fun z hz b hb _ => store_apart ?_⟩
    have hmem := htiles.2.mem hz
    unfold Segment.stop at hmem
    omega

theorem wp_relinkNext (h : Header s.mem x p (headAddr r 0)) (ha : x.addr = a)
    (hr : Linked s.mem n r 0) (hne : ∀ y ∈ r, y.addr ≠ 0)
    (hQ : Q ⟨⟩ { s with mem := relink s.mem r v }) : wp allowed (relinkNext a v) Q s := by
  subst ha
  simp only [relinkNext, wp_bind, wp_read, Field.offset, h.next]
  cases r with
  | nil => exact wp_ite (fun hc => absurd rfl hc) fun _ => (wp_pure _).mpr hQ
  | cons y r =>
    refine wp_ite (fun _ => ?_) fun hc => absurd (hne y List.mem_cons_self) hc
    refine (wp_bind _ _ _).mpr (wp_checkMarker hr.1 rfl (hne y List.mem_cons_self) ?_)
    exact wp_write.mpr hQ

theorem wp_setLast (h : Header s.mem x p (headAddr r 0)) (ha : x.addr = a)
    (hne : ∀ y ∈ r, y.addr ≠ 0) (hQ : Q ⟨⟩ { s with last_ := if r = [] then a else s.last_ }) :
    wp allowed (setLast a) Q s := by
  subst ha
  simp only [setLast, wp_bind, wp_read, Field.offset, h.next]
  cases r with
  | nil => exact wp_ite (fun _ => (wp_modify _ _).mpr hQ) fun hc => absurd rfl hc
  | cons y r =>
    exact wp_ite (fun hc => absurd hc (hne y List.mem_cons_self)) fun _ => (wp_pure _).mpr hQ

/-! ### New headers -/

/-- What the constructor writes for a free segment. -/
def newHeader (m : Memory) (x : Segment) (p n : ℕ) : Memory :=
  store 8 (store 8 (store 8 (store 8 (store 8 (store 8 m x.addr (marker x.addr)) (x.addr + 8) n)
    (x.addr + 16) p) (x.addr + 24) 0) (x.addr + 32) 0) (x.addr + 48) x.flag

theorem newHeader_apart (h : b < x.addr ∨ x.addr + 56 ≤ b) : newHeader m x p n b = m b := by
  unfold newHeader
  repeat rw [store_apart (by omega)]

theorem header_new (hx : x.size < 2 ^ 31) (hp : p < 2 ^ 64) (hn : n < 2 ^ 64) :
    Header (newHeader m x p n) x p n := by
  have hmarker : marker x.addr < 256 ^ 8 := by
    unfold marker
    omega
  unfold newHeader
  constructor
  · repeat rw [load_store_apart (by omega)]
    exact store_of_lt hmarker
  · repeat rw [load_store_apart (by omega)]
    exact store_of_lt hn
  · rw [load_store_apart (by omega), load_store_apart (by omega), load_store_apart (by omega)]
    exact store_of_lt hp
  · exact store_of_lt (flag_lt hx)

theorem wp_new {E : Failure → Prop} (ha : x.addr = a) (hv : x.size = v % 2 ^ 31)
    (hused : x.used = false) (hQ : Q ⟨⟩ { s with mem := newHeader s.mem x p n }) :
    wp E (MallocSegment.new a p n v false) Q s := by
  subst ha
  have hflag : x.flag = v &&& 0x7FFFFFFF := by
    rw [and_size, ← hv, Segment.flag, hused]
    rfl
  simp only [MallocSegment.new, wp_bind, wp_write, Field.offset, Nat.add_zero, Bool.false_eq_true,
    ↓reduceIte, wp_pure, ← hflag]
  exact hQ

/-! ### `fillSegment` -/

theorem headAddr_lt (I : HeapInv s (l ++ x :: r)) : headAddr r 0 < 2 ^ 64 := by
  cases r with
  | nil => decide
  | cons y r =>
    have hy := I.mem_bounds (x := y) (by simp)
    unfold Segment.stop at hy
    rw [headAddr]
    omega

theorem HeapInv.before (I : HeapInv s (l ++ x :: r)) (hy : y ∈ l) : y.stop ≤ x.addr :=
  ((I.split (k := [])).1.mem hy).2

theorem HeapInv.behind (I : HeapInv s (l ++ x :: r)) (hy : y ∈ r) : x.stop ≤ y.addr := by
  obtain ⟨-, e, hmid, hr⟩ := I.split (k := [])
  have hle := (hr.mem hy).1
  have he : x.stop = e := hmid
  omega

theorem HeapInv.linkedBehind (I : HeapInv s (l ++ x :: r)) : Linked s.mem x.addr r 0 :=
  (linked_append.mp I.linked).2.2

theorem HeapInv.ne_zero (I : HeapInv s (l ++ x :: r)) : ∀ y ∈ r, y.addr ≠ 0 :=
  fun _ hy => (I.mem_bounds (List.mem_append_right _ (List.mem_cons_of_mem _ hy))).2.2.2.1

theorem wp_splitSegment {req left : ℕ} (I : HeapInv s (l ++ x :: r)) (hused : x.used = true)
    (hsize : x.size = req + 56 + left) (hleft : 0 < left) :
    wp allowed (splitSegment x.addr req (left + 56)) (fun _ t => Edited s t
      (l ++ ⟨x.addr, req, true⟩ :: ⟨x.addr + 56 + req, left, false⟩ :: r)
      (HeaderByte (l ++ ⟨x.addr, req, true⟩ :: ⟨x.addr + 56 + req, left, false⟩ :: r))) s := by
  have hx := I.mem_bounds (x := x) (by simp)
  have hstop : x.stop = x.addr + 56 + x.size := rfl
  have hbehind : ∀ w ∈ r, x.stop ≤ w.addr := fun w hw => I.behind hw
  have hbefore : ∀ w ∈ l, w.stop ≤ x.addr := fun w hw => I.before hw
  have hoffset : Field.next_.offset = 8 := rfl
  generalize hy : (⟨x.addr, req, true⟩ : Segment) = y
  generalize hz : (⟨x.addr + 56 + req, left, false⟩ : Segment) = z
  have hyx : y.addr = x.addr := by rw [← hy]
  have hzx : z.addr = x.addr + 56 + req := by rw [← hz]
  have hzsize : z.size = left := by rw [← hz]
  have hysize : y.size = req := by rw [← hy]
  have hyused : y.used = true := by rw [← hy]
  have hset : ({ x with size := req % 2 ^ 31 } : Segment) = y := by
    rw [Nat.mod_eq_of_lt (by omega), hused, hy]
  -- the memory after each write
  let m₁ := store 8 s.mem (x.addr + 48) y.flag
  let m₂ := newHeader m₁ z x.addr (headAddr r 0)
  let m₃ := relink m₂ r (x.addr + 56 + req)
  have h₁ : Header m₁ y (lastAddr 0 l) (headAddr r 0) :=
    I.header.setFlag hyx (flag_lt (by omega))
  have h₂ : Header m₂ y (lastAddr 0 l) (headAddr r 0) :=
    h₁.congr fun b _ _ => newHeader_apart (by omega)
  have hz₂ : Header m₂ z x.addr (headAddr r 0) := header_new (by omega) (by omega) (headAddr_lt I)
  have hr₂ : Linked m₂ x.addr r 0 := by
    refine I.linkedBehind.congr fun w hw b hb _ => ?_
    have hle := hbehind w hw
    exact (newHeader_apart (by omega)).trans (store_apart (by omega))
  have hnr : ∀ b, b < x.stop → ¬HeaderByte r b := by
    rintro b hb ⟨w, hw, hlo, -⟩
    have hle := hbehind w hw
    omega
  have h₃ : Header m₃ y (lastAddr 0 l) (headAddr r 0) :=
    h₂.congr fun b _ _ => relink_apart (hnr b (by omega))
  have hz₃ : Header (store 8 m₃ (x.addr + 8) (x.addr + 56 + req)) z x.addr (headAddr r 0) :=
    (hz₂.congr fun b _ _ => relink_apart (hnr b (by omega))).keep (by omega)
  unfold splitSegment
  refine (wp_bind _ _ _).mpr (wp_setSize I.header rfl hx.2.2.1 ?_)
  rw [hset]
  refine (wp_bind _ _ _).mpr (wp_getSize h₁ hyx (by omega) ?_)
  refine (wp_bind _ _ _).mpr (wp_require hysize ?_)
  refine (wp_bind _ _ _).mpr (wp_getUsed h₁ hyx (by omega) ?_)
  refine (wp_bind _ _ _).mpr (wp_require hyused ?_)
  refine (wp_bind _ _ _).mpr (wp_readNext h₁ hyx ?_)
  refine (wp_bind _ _ _).mpr (wp_new (x := z) hzx ?_ (by rw [← hz]) ?_)
  · rw [hzsize, sizeof_MallocSegment, Nat.add_sub_cancel, Nat.mod_eq_of_lt (by omega)]
  refine (wp_bind _ _ _).mpr (wp_relinkNext h₂ hyx hr₂ I.ne_zero ?_)
  refine (wp_bind _ _ _).mpr (wp_write.mpr (wp_setLast hz₃ hzx I.ne_zero ?_))
  refine ⟨I.replace (k := []) (j := [z]) ⟨_, _, rfl⟩ hyx ?_ ?_ ?_ ?_ ?_ ?_, ⟨_, _, rfl⟩, ?_⟩
  · rintro e rfl
    refine ⟨hzx.trans (by unfold Segment.stop; omega), ?_⟩
    show z.stop = x.stop
    unfold Segment.stop
    omega
  · intro w hw b hlo hhi
    have hle := hbefore w hw
    have hne : ¬HeaderByte r b := hnr b (by unfold Segment.stop at hle; omega)
    unfold Segment.stop at hle
    refine (store_apart (by omega)).trans ((relink_apart hne).trans ?_)
    exact (newHeader_apart (by omega)).trans (store_apart (by omega))
  · have hnext := h₃.setNext (v := x.addr + 56 + req) (by omega)
    rw [hyx] at hnext
    refine ⟨?_, ?_, trivial⟩
    · rw [headAddr, hzx]
      exact hnext
    · rw [hyx]
      exact hz₃
  · obtain ⟨-, e, -, hr⟩ := I.split (k := [])
    have hrelink := hr₂.relink (v := x.addr + 56 + req) hr (by omega)
    rw [lastAddr, lastAddr, hzx]
    refine hrelink.congr fun w hw b hlo _ => store_apart ?_
    have hle := hbehind w hw
    omega
  · rw [lastAddr, lastAddr, hzx]
    cases hr : r with
    | nil => rfl
    | cons w r' =>
      have hlast := I.last
      rw [hr, lastAddr_append] at hlast
      exact hlast
  · intro _ w hw
    obtain rfl : z = w := by simpa using hw
    omega
  · intro b hb
    have hout : ∀ w ∈ l ++ y :: z :: r, b < w.addr ∨ w.addr + 56 ≤ b := by
      intro w hw
      by_contra hin
      exact hb ⟨w, hw, by omega, by omega⟩
    have hby := hout y (by simp)
    have hbz := hout z (by simp)
    have hbr : ¬HeaderByte r b := by
      rintro ⟨w, hw, hin⟩
      exact hb ⟨w, by simp [hw], hin⟩
    refine (store_apart (by omega)).trans ((relink_apart hbr).trans ?_)
    exact (newHeader_apart (by omega)).trans (store_apart (by omega))

/-- The bytes of the headers stay. -/
theorem HeapInv.congr (I : HeapInv s segs) (h : ∀ b, HeaderByte segs b → m' b = s.mem b)
    (w : List (ℕ × ℕ)) : HeapInv { s with mem := m', warnings := w } segs :=
  ⟨I.linked.congr fun x hx b hlo hhi => h b ⟨x, hx, hlo, hhi⟩, I.tiles, I.first, I.last, I.base,
    I.break_, I.reserved, I.fits, I.lastSize⟩

/-- No header lies in the body of a segment. -/
theorem HeapInv.not_headerByte (I : HeapInv s segs) (hx : x ∈ segs) (hlo : x.addr + 56 ≤ b)
    (hhi : b < x.stop) : ¬HeaderByte segs b := by
  rintro ⟨y, hy, hylo, hyhi⟩
  obtain ⟨l, r, rfl⟩ := List.append_of_mem hx
  obtain hy | hy := List.mem_append.mp hy
  · have hle := I.before hy
    unfold Segment.stop at hle
    omega
  · obtain rfl | hy := List.mem_cons.mp hy
    · omega
    · have hle := I.behind hy
      omega

theorem HeapInv.setUsed (I : HeapInv s (l ++ x :: r)) (u : Bool) :
    Edited s { s with mem := store 8 s.mem (x.addr + 48) { x with used := u }.flag }
      (l ++ { x with used := u } :: r) (HeaderByte (l ++ x :: r)) := by
  have hx := I.mem_bounds (x := x) (by simp)
  have hheader := I.header.setFlag (y := { x with used := u }) rfl (flag_lt hx.2.2.1)
  refine ⟨I.replace (k := []) (j := []) ⟨_, _, rfl⟩ rfl (fun e he => he) ?_ ⟨hheader, trivial⟩
    ?_ ?_ ?_, ⟨_, _, rfl⟩, ?_⟩
  · intro w hw b _ hhi
    have hle := I.before hw
    unfold Segment.stop at hle
    exact store_apart (by omega)
  · refine I.linkedBehind.congr fun w hw b hlo _ => store_apart ?_
    have hle := I.behind hw
    unfold Segment.stop at hle
    omega
  · have hlast := I.last
    rw [lastAddr_append] at hlast
    exact hlast
  · rintro rfl w hw
    obtain rfl : { x with used := u } = w := by simpa using hw
    exact I.lastSize x (by simp)
  · intro b hb
    refine store_apart ?_
    by_contra hin
    exact hb ⟨x, by simp, by omega, by omega⟩

/-! The loop that checks for zero -/

/-- What the check leaves: the first `req` bytes of the body are zero. -/
def zeroed (s : KernelMemoryManager) (x : Segment) (req : ℕ) (w : List (ℕ × ℕ)) :
    KernelMemoryManager :=
  { s with mem := fill s.mem (x.addr + 56) req 0, warnings := s.warnings ++ w }

theorem fill_add (h : ∀ b, a + n ≤ b → b < a + n + p → m b = 0) :
    fill m a (n + p) 0 = fill m a n 0 := by
  funext b
  unfold fill
  split
  · split
    · rfl
    · exact (h b (by omega) (by omega)).symm
  · rw [if_neg (by omega)]

theorem store_fill : store p (fill m a n 0) (a + n) 0 = fill m a (n + p) 0 := by
  funext b
  by_cases hb : a + n ≤ b ∧ b < a + n + p
  · rw [store_zero hb.1 hb.2, fill_inside (by omega) (by omega)]
  · rw [store_apart (by omega)]
    unfold fill
    split
    · rw [if_pos (by omega)]
    · rw [if_neg (by omega)]

theorem fill_zero : fill m a 0 0 = m := funext fun _ => fill_apart (by omega)

theorem wp_zeroWord {i : ℕ} {w : List (ℕ × ℕ)}
    (h : allowed .memoryNotZero ∨ ∀ b, x.addr + 56 + 4 * i ≤ b → b < x.addr + 56 + 4 * i + 4 →
      s.mem b = 0) :
    wp allowed (zeroWord x.addr i) (fun _ t => ∃ w', t = zeroed s x (4 * (i + 1)) (w ++ w') ∧
      ((∀ b, x.addr + 56 + 4 * i ≤ b → b < x.addr + 56 + 4 * i + 4 → s.mem b = 0) → w' = []))
      (zeroed s x (4 * i) w) := by
  have hload : load 4 (fill s.mem (x.addr + 56) (4 * i) 0) (x.addr + 56 + 4 * i) =
      load 4 s.mem (x.addr + 56 + 4 * i) := load_congr fun b hb _ => fill_apart (by omega)
  simp only [zeroWord, wp_bind, wp_get]
  refine wp_ite (fun hne => ?_) fun heq => (wp_pure _).mpr ?_
  · have hnz : ¬∀ b, x.addr + 56 + 4 * i ≤ b → b < x.addr + 56 + 4 * i + 4 → s.mem b = 0 := by
      intro hzero
      exact hne (hload.trans (load_eq_zero.mpr hzero))
    have hallowed := h.resolve_right hnz
    simp only [wp_bind, wp_modify, wp_read]
    unfold require
    refine wp_ite (fun _ => ?_) fun _ => (wp_throw _).mpr hallowed
    have hstore : store 4 (fill s.mem (x.addr + 56) (4 * i) 0) (x.addr + 56 + 4 * i) 0 =
        fill s.mem (x.addr + 56) (4 * (i + 1)) 0 := store_fill
    refine (wp_pure _).mpr ⟨[(x.addr + 56 + 4 * i, load 4 (fill s.mem (x.addr + 56) (4 * i) 0)
      (x.addr + 56 + 4 * i))], ?_, fun hzero => absurd hzero hnz⟩
    have hstate : ∀ w', zeroed s x (4 * (i + 1)) (w ++ w') = { s with
        mem := store 4 (fill s.mem (x.addr + 56) (4 * i) 0) (x.addr + 56 + 4 * i) 0
        warnings := s.warnings ++ w ++ w' } := by
      intro w'
      rw [zeroed, hstore, List.append_assoc]
    rw [hstate]
    rfl
  · have hzero := load_eq_zero.mp (hload.symm.trans (not_not.mp heq))
    refine ⟨[], ?_, fun _ => rfl⟩
    simp only [zeroed, List.append_nil]
    rw [Nat.mul_add, fill_add hzero]

theorem wp_zeroCheck {req : ℕ} (hreq : req % 4 = 0)
    (h : allowed .memoryNotZero ∨ ∀ b, x.addr + 56 ≤ b → b < x.addr + 56 + req → s.mem b = 0) :
    wp allowed (zeroCheck x.addr req true) (fun _ t => ∃ w, t = zeroed s x req w ∧
      ((∀ b, x.addr + 56 ≤ b → b < x.addr + 56 + req → s.mem b = 0) → w = [])) s := by
  have hdiv : 4 * (req / 4) = req := by omega
  refine wp_mono (wp_forUpTo (I := fun i t => ∃ w, t = zeroed s x (4 * i) w ∧
    ((∀ b, x.addr + 56 ≤ b → b < x.addr + 56 + req → s.mem b = 0) → w = [])) ?_ ?_) ?_
  · refine ⟨[], ?_, fun _ => rfl⟩
    rw [zeroed, Nat.mul_zero, fill_zero, List.append_nil]
  · rintro i _ hi ⟨w, rfl, hw⟩
    have hpart : (∀ b, x.addr + 56 ≤ b → b < x.addr + 56 + req → s.mem b = 0) →
        ∀ b, x.addr + 56 + 4 * i ≤ b → b < x.addr + 56 + 4 * i + 4 → s.mem b = 0 :=
      fun hzero b hlo hhi => hzero b (by omega) (by omega)
    refine wp_mono (wp_zeroWord (h.imp_right hpart)) ?_
    rintro _ _ ⟨w', rfl, hw'⟩
    refine ⟨_, rfl, fun hzero => ?_⟩
    rw [hw hzero, hw' (hpart hzero)]
    rfl
  · rintro _ _ ⟨w, rfl, hw⟩
    rw [hdiv]
    exact ⟨w, rfl, hw⟩

/-- What takes the place of `x` when `req` bytes of it are used. -/
def filled (x : Segment) (req : ℕ) : List Segment :=
  if x.size - req > 56 then
    [⟨x.addr, req, true⟩, ⟨x.addr + 56 + req, x.size - req - 56, false⟩]
  else [⟨x.addr, x.size, true⟩]

theorem headerByte_filled {req : ℕ} (h : HeaderByte (l ++ x :: r) b) :
    HeaderByte (l ++ (filled x req ++ r)) b := by
  obtain ⟨y, hy, hin⟩ := h
  have hx : ∃ x' ∈ filled x req, x'.addr = x.addr := by
    unfold filled
    split
    · exact ⟨_, List.mem_cons_self, rfl⟩
    · exact ⟨_, List.mem_cons_self, rfl⟩
  obtain ⟨x', hx', haddr⟩ := hx
  rw [List.mem_append, List.mem_cons] at hy
  obtain hy | rfl | hy := hy
  · exact ⟨y, List.mem_append_left _ hy, hin⟩
  · exact ⟨x', List.mem_append_right _ (List.mem_append_left _ hx'), haddr ▸ hin⟩
  · exact ⟨y, List.mem_append_right _ (List.mem_append_right _ hy), hin⟩

theorem Edited.trans {P P' : ℕ → Prop} (h : Edited s t segs P) (h' : Edited t u segs' P')
    (hP : ∀ b, P b → P' b) : Edited s u segs' P' := by
  obtain ⟨mem, last, rfl⟩ := h.same
  obtain ⟨mem', last', rfl⟩ := h'.same
  exact ⟨h'.inv, ⟨mem', last', rfl⟩, fun b hb => (h'.bytes b hb).trans (h.bytes b fun hp => hb (hP b hp))⟩

/-- The part of `fillSegment` after the check. -/
theorem wp_fillAfterCheck {req : ℕ} (I : HeapInv s (l ++ x :: r)) (hreq : req ≤ x.size) :
    wp allowed (do
      let space_left := (← getSize x.addr) - req
      setUsed x.addr true
      require ((← getUsed x.addr) = true) .fillUnused
      if space_left > sizeof_MallocSegment then splitSegment x.addr req space_left)
      (fun _ t => Edited s t (l ++ (filled x req ++ r)) (HeaderByte (l ++ (filled x req ++ r)))) s := by
  have hx := I.mem_bounds (x := x) (by simp)
  have hedit := I.setUsed true
  have hheader := hedit.inv.header
  refine (wp_bind _ _ _).mpr (wp_getSize I.header rfl hx.2.2.1 ?_)
  refine (wp_bind _ _ _).mpr (wp_setUsed I.header rfl hx.2.2.1 ?_)
  refine (wp_bind _ _ _).mpr (wp_getUsed hheader rfl hx.2.2.1 ?_)
  refine (wp_bind _ _ _).mpr (wp_require rfl ?_)
  refine wp_ite (fun hgt => ?_) fun hle => (wp_pure _).mpr ?_
  · have hgt' : x.size - req > 56 := hgt
    obtain ⟨left, hleft⟩ : ∃ left, x.size - req = left + 56 := ⟨x.size - req - 56, by omega⟩
    have hfilled : filled x req = [⟨x.addr, req, true⟩, ⟨x.addr + 56 + req, left, false⟩] := by
      rw [filled, if_pos hgt', hleft, Nat.add_sub_cancel]
    have hheaders : ∀ b, HeaderByte (l ++ x :: r) b → HeaderByte (l ++ (filled x req ++ r)) b :=
      fun b => headerByte_filled
    rw [hleft]
    rw [hfilled] at hheaders ⊢
    refine wp_mono (wp_splitSegment (x := { x with used := true }) hedit.inv rfl (by show x.size = _; omega)
      (by omega)) ?_
    exact fun _ t ht => hedit.trans ht hheaders
  · have hle' : ¬x.size - req > 56 := hle
    have hheaders : ∀ b, HeaderByte (l ++ x :: r) b → HeaderByte (l ++ (filled x req ++ r)) b :=
      fun b => headerByte_filled
    rw [filled, if_neg hle'] at hheaders ⊢
    exact ⟨hedit.inv, hedit.same, fun b hb => hedit.bytes b fun hp => hb (hheaders b hp)⟩

theorem wp_fillSegment {req : ℕ} (I : HeapInv s (l ++ x :: r)) (hreq : req ≤ x.size)
    (halign : req % 16 = 0) :
    wp allowed (fillSegment x.addr req false) (fun _ t =>
      Edited s t (l ++ (filled x req ++ r)) (HeaderByte (l ++ (filled x req ++ r)))) s := by
  have hx := I.mem_bounds (x := x) (by simp)
  refine (wp_bind _ _ _).mpr (wp_checkMarker I.header rfl hx.2.2.2.1 ?_)
  refine (wp_bind _ _ _).mpr (wp_getSize I.header rfl hx.2.2.1 ?_)
  refine (wp_bind _ _ _).mpr (wp_require hreq ((wp_bind _ _ _).mpr (wp_require halign ?_)))
  refine (wp_bind _ _ _).mpr ?_
  rw [zeroCheck, if_neg Bool.false_ne_true]
  exact (wp_pure _).mpr (wp_fillAfterCheck I hreq)

theorem HeapInv.zeroed (I : HeapInv s (l ++ x :: r)) {req : ℕ} (hreq : req ≤ x.size)
    (w : List (ℕ × ℕ)) : HeapInv (zeroed s x req w) (l ++ x :: r) := by
  refine I.congr (fun b hb => fill_apart ?_) _
  by_contra hin
  refine I.not_headerByte (x := x) (by simp) (by omega) ?_ hb
  unfold Segment.stop
  omega

/-- `fillSegment` of a free segment, with the check. -/
theorem wp_fillSegment_check {req : ℕ} (I : HeapInv s (l ++ x :: r)) (hreq : req ≤ x.size)
    (halign : req % 16 = 0)
    (h : allowed .memoryNotZero ∨ ∀ b, x.addr + 56 ≤ b → b < x.addr + 56 + req → s.mem b = 0) :
    wp allowed (fillSegment x.addr req true) (fun _ t => ∃ w,
      Edited (zeroed s x req w) t (l ++ (filled x req ++ r)) (HeaderByte (l ++ (filled x req ++ r))) ∧
      ((∀ b, x.addr + 56 ≤ b → b < x.addr + 56 + req → s.mem b = 0) → w = [])) s := by
  have hx := I.mem_bounds (x := x) (by simp)
  refine (wp_bind _ _ _).mpr (wp_checkMarker I.header rfl hx.2.2.2.1 ?_)
  refine (wp_bind _ _ _).mpr (wp_getSize I.header rfl hx.2.2.1 ?_)
  refine (wp_bind _ _ _).mpr (wp_require hreq ((wp_bind _ _ _).mpr (wp_require halign ?_)))
  refine wp_seq (wp_zeroCheck (by omega) h) ?_
  rintro _ _ ⟨w, rfl, hw⟩
  exact wp_mono (wp_fillAfterCheck (I.zeroed hreq w) hreq) fun _ t ht => ⟨w, ht, hw⟩

/-! ### Merging -/

theorem wp_trueSize (I : HeapInv s (l ++ x :: r)) {Q : ℕ → KernelMemoryManager → Prop}
    (hQ : ∀ v, v % 2 ^ 31 = (56 + x.size) % 2 ^ 31 → Q v s) : wp allowed (trueSize x.addr) Q s := by
  have hx := I.mem_bounds (x := x) (by simp)
  obtain ⟨k, hk⟩ := I.break_mod
  refine (wp_bind _ _ _).mpr (wp_readNext I.header rfl ?_)
  cases r with
  | nil =>
    obtain ⟨-, e, he, htop⟩ := I.split (k := [])
    have hstop : x.stop = top s := Eq.trans he htop
    refine wp_ite (fun _ => ?_) fun hne => absurd rfl hne
    simp only [wp_bind, wp_get, wp_pure]
    unfold Segment.stop at hstop
    exact hQ _ (by omega)
  | cons y r =>
    obtain ⟨-, e, he, hr⟩ := I.split (k := [])
    have hstop : x.stop = y.addr := Eq.trans he hr.1.symm
    refine wp_ite (fun hc => absurd hc (I.ne_zero y List.mem_cons_self)) fun _ => (wp_pure _).mpr ?_
    unfold Segment.stop at hstop
    exact hQ _ (by rw [headAddr]; omega)

/-- `x` swallows the segment `z` after it. -/
def merged (x z : Segment) : Segment := ⟨x.addr, x.size + 56 + z.size, x.used⟩

theorem merged_lt (I : HeapInv s (l ++ x :: z :: r)) : (merged x z).size < 2 ^ 31 ∧
    (merged x z).stop = z.stop ∧ x.stop = z.addr := by
  obtain ⟨-, e, he, hr⟩ := I.split (k := [])
  have hstop : x.stop = z.addr := Eq.trans he hr.1.symm
  have hz := I.mem_bounds (x := z) (by simp)
  have hx := I.mem_bounds (x := x) (by simp)
  have htop : top s = s.base_break_ + 56 + (s.reserved_min_ - 56) % 2 ^ 31 := rfl
  have hmod := Nat.mod_lt (s.reserved_min_ - 56) (by decide : 2 ^ 31 > 0)
  unfold merged
  unfold Segment.stop at *
  simp only
  omega

/-- The memory once `z` is out of the list, but for what becomes of its header. -/
def unlinked (m : Memory) (x z : Segment) (r : List Segment) : Memory :=
  relink (store 8 (store 8 m (x.addr + 48) (merged x z).flag) (x.addr + 8) (headAddr r 0)) r x.addr

theorem unlinked_apart (hx : b < x.addr ∨ x.addr + 56 ≤ b) (hr : ¬HeaderByte r b) :
    unlinked m x z r b = m b :=
  (relink_apart hr).trans ((store_apart (by omega)).trans (store_apart (by omega)))

theorem HeapInv.unlinked_header (I : HeapInv s (l ++ x :: z :: r)) :
    Header (unlinked s.mem x z r) (merged x z) (lastAddr 0 l) (headAddr r 0) := by
  obtain ⟨hlt, -, hstop⟩ := merged_lt I
  have I' : HeapInv s ((l ++ [x]) ++ z :: r) := by simpa using I
  have hnext : headAddr r 0 < 2 ^ 64 := headAddr_lt I'
  have h₂ : Header _ (merged x z) (lastAddr 0 l) (headAddr r 0) :=
    (I.header.setFlag (y := merged x z) rfl (flag_lt hlt)).setNext hnext
  refine h₂.congr fun b _ hb => relink_apart ?_
  rintro ⟨w, hw, hlo, -⟩
  have hle := I'.behind hw
  have hb' : b < x.addr + 56 := hb
  unfold Segment.stop at hle hstop
  omega

theorem HeapInv.unlink {f : Memory} (I : HeapInv s (l ++ x :: z :: r))
    (hm : ∀ b, b < z.addr ∨ z.addr + 56 ≤ b → f b = unlinked s.mem x z r b) :
    Edited s { s with mem := f, last_ := if r = [] then x.addr else s.last_ }
      (l ++ merged x z :: r) (HeaderByte (l ++ x :: z :: r)) := by
  obtain ⟨hlt, hmstop, hstop⟩ := merged_lt I
  have I' : HeapInv s ((l ++ [x]) ++ z :: r) := by simpa using I
  have hx := I.mem_bounds (x := x) (by simp)
  have hbehind : ∀ w ∈ r, z.stop ≤ w.addr := fun w hw => I'.behind hw
  have hbefore : ∀ w ∈ l, w.stop ≤ x.addr := fun w hw => I.before hw
  have hnr : ∀ b, b < z.stop → ¬HeaderByte r b := by
    rintro b hb ⟨w, hw, hlo, -⟩
    have hle := hbehind w hw
    omega
  have hzstop : z.stop = z.addr + 56 + z.size := rfl
  have hxstop : x.stop = x.addr + 56 + x.size := rfl
  have hheader : Header f (merged x z) (lastAddr 0 l) (headAddr r 0) :=
    I.unlinked_header.congr fun b _ hb => hm b (.inl (by
      have hb' : b < x.addr + 56 := hb
      omega))
  refine ⟨I.replace (k := [z]) (j := []) ⟨_, _, rfl⟩ rfl ?_ ?_ ⟨hheader, trivial⟩ ?_ ?_ ?_,
    ⟨_, _, rfl⟩, ?_⟩
  · rintro e ⟨-, he⟩
    exact hmstop.trans he
  · intro w hw b _ hhi
    have hle := hbefore w hw
    unfold Segment.stop at hle
    exact (hm b (.inl (by omega))).trans (unlinked_apart (.inl (by omega)) (hnr b (by omega)))
  · obtain ⟨-, e, -, hr⟩ := I.split (k := [z])
    have hlinked : Linked (store 8 (store 8 s.mem (x.addr + 48) (merged x z).flag) (x.addr + 8)
        (headAddr r 0)) z.addr r 0 := by
      refine I'.linkedBehind.congr fun w hw b hlo _ => ?_
      have hle := hbehind w hw
      exact (store_apart (by omega)).trans (store_apart (by omega))
    refine (hlinked.relink hr (by omega : x.addr < 2 ^ 64)).congr fun w hw b hlo _ => hm b ?_
    have hle := hbehind w hw
    omega
  · cases r with
    | nil => rfl
    | cons w r =>
      have hlast := I.last
      rw [lastAddr_append] at hlast
      exact hlast
  · intro _ w hw
    obtain rfl : merged x z = w := by simpa using hw
    exact Nat.lt_of_lt_of_le (by decide : 0 < 56) (Nat.le_trans (Nat.le_add_left 56 _) (Nat.le_add_right _ _))
  · intro b hb
    have hout : ∀ w ∈ l ++ x :: z :: r, b < w.addr ∨ w.addr + 56 ≤ b := by
      intro w hw
      by_contra hin
      exact hb ⟨w, hw, by omega, by omega⟩
    have hbr : ¬HeaderByte r b := by
      rintro ⟨w, hw, hin⟩
      exact hb ⟨w, by simp [hw], hin⟩
    exact (hm b (hout z (by simp))).trans (unlinked_apart (hout x (by simp)) hbr)

theorem merged_flag (I : HeapInv s (l ++ x :: z :: r)) {v : ℕ}
    (hv : v % 2 ^ 31 = (56 + z.size) % 2 ^ 31) :
    ({ x with size := (x.size + v) % 2 ^ 31 } : Segment) = merged x z := by
  have hlt := (merged_lt I).1
  have hsize : (x.size + v) % 2 ^ 31 = x.size + 56 + z.size := by
    unfold merged at hlt
    simp only at hlt
    omega
  rw [merged, hsize]

theorem wp_mergeFollowing (I : HeapInv s (l ++ x :: z :: r)) (hz : z.used = false) :
    wp allowed (mergeWithFollowingFreeSegment x.addr) (fun _ t =>
      Edited s t (l ++ merged x z :: r) (HeaderByte (l ++ x :: z :: r)) ∧
      ∀ b, z.addr ≤ b → b < z.addr + 56 → t.mem b = 0) s := by
  obtain ⟨hlt, hmstop, hstop⟩ := merged_lt I
  have I' : HeapInv s ((l ++ [x]) ++ z :: r) := by simpa using I
  have hx := I.mem_bounds (x := x) (by simp)
  have hzb := I.mem_bounds (x := z) (by simp)
  have hxstop : x.stop = x.addr + 56 + x.size := rfl
  have hzz : ∀ {m : Memory}, (∀ b, z.addr ≤ b → b < z.addr + 56 → m b = s.mem b) →
      Header m z x.addr (headAddr r 0) := by
    intro m hm
    have hheader := I'.header
    rw [lastAddr_append] at hheader
    exact hheader.congr hm
  refine (wp_bind _ _ _).mpr (wp_checkMarker I.header rfl hx.2.2.2.1 ?_)
  refine (wp_bind _ _ _).mpr (wp_readNext I.header rfl ?_)
  refine wp_ite (fun hc => absurd hc hzb.2.2.2.1) fun _ => ?_
  refine (wp_bind _ _ _).mpr (wp_checkMarker I'.header rfl hzb.2.2.2.1 ?_)
  refine (wp_bind _ _ _).mpr (wp_getUsed I'.header rfl hzb.2.2.1 ?_)
  rw [hz, if_neg Bool.false_ne_true]
  refine (wp_bind _ _ _).mpr (wp_trueSize I' fun v hv => ?_)
  refine (wp_bind _ _ _).mpr (wp_getSize I.header rfl hx.2.2.1 ?_)
  refine (wp_bind _ _ _).mpr (wp_setSize I.header rfl hx.2.2.1 ?_)
  rw [merged_flag I hv]
  refine (wp_bind _ _ _).mpr (wp_readNext (hzz fun b _ _ => store_apart (by omega)) rfl ?_)
  refine (wp_bind _ _ _).mpr (wp_write.mpr ?_)
  refine (wp_bind _ _ _).mpr (wp_relinkNext (hzz fun b _ _ => ?_) rfl (n := z.addr) ?_ I'.ne_zero ?_)
  · exact (store_apart (by simp only [Field.offset]; omega)).trans (store_apart (by omega))
  · refine I'.linkedBehind.congr fun w hw b hlo _ => ?_
    have hle := I'.behind hw
    have hzstop : z.stop = z.addr + 56 + z.size := rfl
    exact (store_apart (by simp only [Field.offset]; omega)).trans (store_apart (by omega))
  refine (wp_bind _ _ _).mpr ((wp_modify _ _).mpr ?_)
  have hedit := I.unlink (f := fill (unlinked s.mem x z r) z.addr 56 0)
    fun b hb => fill_apart hb
  refine (wp_bind _ _ _).mpr (wp_setLast (x := merged x z) (r := r) (p := lastAddr 0 l) ?_ rfl
    I'.ne_zero ?_)
  · exact I.unlinked_header.congr fun b _ hb => fill_apart (.inl (by
      have hb' : b < x.addr + 56 := hb
      show b < z.addr
      omega))
  · exact (wp_pure _).mpr ⟨hedit, fun b hlo hhi => fill_inside hlo hhi⟩

/-- There is nothing to merge. -/
theorem wp_mergeFollowing_none (I : HeapInv s (l ++ x :: r)) (hr : ∀ z ∈ r.head?, z.used = true) :
    wp allowed (mergeWithFollowingFreeSegment x.addr) (fun _ t => t = s) s := by
  have hx := I.mem_bounds (x := x) (by simp)
  refine (wp_bind _ _ _).mpr (wp_checkMarker I.header rfl hx.2.2.2.1 ?_)
  refine (wp_bind _ _ _).mpr (wp_readNext I.header rfl ?_)
  cases r with
  | nil => exact wp_ite (fun _ => (wp_pure _).mpr rfl) fun hne => absurd rfl hne
  | cons z r =>
    have hz := I.mem_bounds (x := z) (by simp)
    have hheader := I.linkedBehind.1
    refine wp_ite (fun hc => absurd hc hz.2.2.2.1) fun _ => ?_
    refine (wp_bind _ _ _).mpr (wp_checkMarker hheader rfl hz.2.2.2.1 ?_)
    refine (wp_bind _ _ _).mpr (wp_getUsed hheader rfl hz.2.2.1 ?_)
    rw [hr z rfl, if_pos rfl]
    exact (wp_pure _).mpr rfl

theorem wp_mergeWithPrevious (I : HeapInv s (l ++ x :: z :: r)) (hx : x.used = false) :
    wp allowed (mergeWithPrevious z.addr) (fun a t => a = x.addr ∧
      Edited s t (l ++ merged x z :: r) (HeaderByte (l ++ x :: z :: r))) s := by
  obtain ⟨hlt, hmstop, hstop⟩ := merged_lt I
  have I' : HeapInv s ((l ++ [x]) ++ z :: r) := by simpa using I
  have hxb := I.mem_bounds (x := x) (by simp)
  have hzb := I.mem_bounds (x := z) (by simp)
  have hxstop : x.stop = x.addr + 56 + x.size := rfl
  have hheader : Header s.mem z x.addr (headAddr r 0) := by
    have hheader := I'.header
    rwa [lastAddr_append] at hheader
  have hzz : ∀ {m : Memory}, (∀ b, z.addr ≤ b → b < z.addr + 56 → m b = s.mem b) →
      Header m z x.addr (headAddr r 0) := fun hm => hheader.congr hm
  have hedit := I.unlink (f := unlinked s.mem x z r) fun _ _ => rfl
  refine (wp_bind _ _ _).mpr (wp_readPrev hheader rfl ?_)
  refine wp_ite (fun hc => absurd hc hxb.2.2.2.1) fun _ => ?_
  refine (wp_bind _ _ _).mpr (wp_checkMarker I.header rfl hxb.2.2.2.1 ?_)
  refine (wp_bind _ _ _).mpr (wp_getUsed I.header rfl hxb.2.2.1 ?_)
  rw [hx, if_neg Bool.false_ne_true]
  refine (wp_bind _ _ _).mpr (wp_trueSize I' fun v hv => ?_)
  refine (wp_bind _ _ _).mpr (wp_getSize I.header rfl hxb.2.2.1 ?_)
  refine (wp_bind _ _ _).mpr (wp_setSize I.header rfl hxb.2.2.1 ?_)
  rw [Nat.add_comm v, merged_flag I hv]
  refine (wp_bind _ _ _).mpr (wp_readNext (hzz fun b _ _ => store_apart (by omega)) rfl ?_)
  refine (wp_bind _ _ _).mpr (wp_write.mpr ?_)
  refine (wp_bind _ _ _).mpr (wp_relinkNext (hzz fun b _ _ => ?_) rfl (n := z.addr) ?_ I'.ne_zero ?_)
  · exact (store_apart (by simp only [Field.offset]; omega)).trans (store_apart (by omega))
  · refine I'.linkedBehind.congr fun w hw b hlo _ => ?_
    have hle := I'.behind hw
    have hzstop : z.stop = z.addr + 56 + z.size := rfl
    exact (store_apart (by simp only [Field.offset]; omega)).trans (store_apart (by omega))
  refine (wp_bind _ _ _).mpr (wp_readNext (hzz (m := unlinked s.mem x z r) fun b _ _ => ?_) rfl ?_)
  · refine unlinked_apart (.inr (by omega)) ?_
    rintro ⟨w, hw, hlo, -⟩
    have hle := I'.behind hw
    unfold Segment.stop at hle
    omega
  cases r with
  | nil =>
    have hlast := I.last
    rw [lastAddr_append] at hlast
    refine wp_ite (fun _ => ?_) fun hne => absurd rfl hne
    refine (wp_bind _ _ _).mpr ((wp_get _).mpr ((wp_bind _ _ _).mpr (wp_require hlast.symm ?_)))
    simp only [wp_bind, wp_modify, wp_pure]
    exact ⟨trivial, hedit⟩
  | cons w r =>
    refine wp_ite (fun hc => absurd hc (I'.ne_zero w List.mem_cons_self)) fun _ => ?_
    exact (wp_pure _).mpr ⟨rfl, hedit⟩

theorem wp_mergeWithPrevious_none (I : HeapInv s (l ++ x :: r))
    (hl : ∀ w ∈ l.getLast?, w.used = true) :
    wp allowed (mergeWithPrevious x.addr) (fun a t => a = x.addr ∧ t = s) s := by
  refine (wp_bind _ _ _).mpr (wp_readPrev I.header rfl ?_)
  obtain rfl | ⟨l', w, rfl⟩ := List.eq_nil_or_concat' l
  · exact wp_ite (fun _ => (wp_pure _).mpr ⟨rfl, rfl⟩) fun hne => absurd rfl hne
  · have I' : HeapInv s (l' ++ w :: (x :: r)) := by simpa using I
    have hw := I'.mem_bounds (x := w) (by simp)
    rw [lastAddr_append]
    refine wp_ite (fun hc => absurd hc hw.2.2.2.1) fun _ => ?_
    refine (wp_bind _ _ _).mpr (wp_checkMarker I'.header rfl hw.2.2.2.1 ?_)
    refine (wp_bind _ _ _).mpr (wp_getUsed I'.header rfl hw.2.2.1 ?_)
    rw [hl w (by simp), if_pos rfl]
    exact (wp_pure _).mpr ⟨rfl, rfl⟩

end KPanic.Heap
