import KPanic.Mm.HeapBlocks

/-!
# Coalesced and zeroed

Free segments are not neighbours and their bodies are zero. Allocating, freeing and growing keep
this. Cutting a block down keeps it only where what is cut off is zero and no free segment follows.
-/

namespace KPanic.Heap

open Bytes

variable {s t u : KernelMemoryManager} {m m' : Memory} {x y z : Segment}
  {l r l' r' segs segs' : List Segment} {new req ptr b : ℕ} {w : List (ℕ × ℕ)}

/-- Of two neighbours one is used. -/
def Coalesced (segs : List Segment) : Prop := segs.IsChain fun x y => x.used = true ∨ y.used = true

/-- The bytes in the bodies of the free segments. -/
def FreeByte (segs : List Segment) (b : ℕ) : Prop :=
  ∃ x ∈ segs, x.used = false ∧ x.addr + 56 ≤ b ∧ b < x.stop

def FreeZero (m : Memory) (segs : List Segment) : Prop := ∀ b, FreeByte segs b → m b = 0

/-! ### Neighbours -/

theorem coalesced_append : Coalesced (l ++ x :: r) ↔ Coalesced l ∧ Coalesced r ∧
    (∀ v ∈ l.getLast?, v.used = true ∨ x.used = true) ∧
    ∀ z ∈ r.head?, x.used = true ∨ z.used = true := by
  unfold Coalesced
  rw [List.isChain_append, List.isChain_cons]
  simp only [List.head?_cons, Option.mem_def, Option.some.injEq, forall_eq']
  tauto

theorem Coalesced.filled (hl : Coalesced l) (hr : Coalesced r)
    (hnext : x.size - req > 56 → ∀ z ∈ r.head?, z.used = true) :
    Coalesced (l ++ (filled x req ++ r)) := by
  unfold Heap.filled
  split
  · refine coalesced_append.mpr ⟨hl, ?_, fun _ _ => .inr rfl, fun _ _ => .inl rfl⟩
    exact List.isChain_cons.mpr ⟨fun z hz => .inr (hnext ‹_› z hz), hr⟩
  · exact coalesced_append.mpr ⟨hl, hr, fun _ _ => .inr rfl, fun _ _ => .inl rfl⟩

/-- The neighbours of a free segment are used. -/
theorem Coalesced.neighbours (h : Coalesced (l ++ x :: r)) (hx : x.used = false) :
    (∀ v ∈ l.getLast?, v.used = true) ∧ ∀ z ∈ r.head?, z.used = true := by
  obtain ⟨-, -, hl, hr⟩ := coalesced_append.mp h
  rw [hx] at hl hr
  exact ⟨fun v hv => (hl v hv).resolve_right Bool.false_ne_true,
    fun z hz => (hr z hz).resolve_left Bool.false_ne_true⟩

theorem Freed.coalesced (h : Freed s t l x r l' y r') (hc : Coalesced (l ++ x :: r)) :
    Coalesced (l' ++ y :: r') := by
  obtain ⟨hl, hr, -, -⟩ := coalesced_append.mp hc
  have hbefore : Coalesced l' ∧ ∀ v ∈ l'.getLast?, v.used = true := by
    obtain ⟨rfl, -, hlast⟩ | ⟨v, rfl, hv, -⟩ := h.before
    · exact ⟨hl, hlast⟩
    · exact ⟨(coalesced_append.mp hl).1, (hl.neighbours hv).1⟩
  have hbehind : Coalesced r' ∧ ∀ z ∈ r'.head?, z.used = true := by
    obtain ⟨rfl, -, hhead⟩ | ⟨z, rfl, hz, -⟩ := h.behind
    · exact ⟨hr, hhead⟩
    · have hr : Coalesced ([] ++ z :: r') := hr
      exact ⟨(coalesced_append.mp hr).2.1, (hr.neighbours hz).2⟩
  exact coalesced_append.mpr ⟨hbefore.1, hbehind.1, fun v hv => .inl (hbefore.2 v hv),
    fun z hz => .inr (hbehind.2 z hz)⟩

/-! ### Bodies -/

theorem HeapInv.not_headerByte_of_free (I : HeapInv s segs) (hb : FreeByte segs b) :
    ¬HeaderByte segs b := by
  obtain ⟨x, hx, -, hlo, hhi⟩ := hb
  exact I.not_headerByte hx hlo hhi

theorem freeByte_append : FreeByte (l ++ r) b ↔ FreeByte l b ∨ FreeByte r b := by
  constructor
  · rintro ⟨x, hx, hin⟩
    obtain hx | hx := List.mem_append.mp hx
    · exact .inl ⟨x, hx, hin⟩
    · exact .inr ⟨x, hx, hin⟩
  · rintro (⟨x, hx, hin⟩ | ⟨x, hx, hin⟩)
    · exact ⟨x, List.mem_append_left _ hx, hin⟩
    · exact ⟨x, List.mem_append_right _ hx, hin⟩

theorem freeByte_cons : FreeByte (x :: r) b ↔
    (x.used = false ∧ x.addr + 56 ≤ b ∧ b < x.stop) ∨ FreeByte r b := by
  constructor
  · rintro ⟨y, hy, hin⟩
    obtain rfl | hy := List.mem_cons.mp hy
    · exact .inl hin
    · exact .inr ⟨y, hy, hin⟩
  · rintro (hin | ⟨y, hy, hin⟩)
    · exact ⟨x, List.mem_cons_self, hin⟩
    · exact ⟨y, List.mem_cons_of_mem _ hy, hin⟩

/-- What is cut off starts a header after the part that is kept. -/
theorem freeByte_filled (h : FreeByte (filled x req) b) :
    x.size - req > 56 ∧ x.addr + 56 + req + 56 ≤ b ∧ b < x.stop := by
  obtain ⟨y, hy, hused, hlo, hhi⟩ := h
  unfold filled at hy
  split at hy
  · obtain rfl | hy := List.mem_cons.mp hy
    · cases hused
    · obtain rfl := List.mem_singleton.mp hy
      unfold Segment.stop at hhi ⊢
      simp only at hlo hhi
      omega
  · obtain rfl := List.mem_singleton.mp hy
    cases hused

theorem Allocated.freeZero (h : Allocated s t l x r req w) (hx : x.used = false)
    (hz : FreeZero s.mem (l ++ x :: r)) : FreeZero t.mem (l ++ (filled x req ++ r)) := by
  intro b hb
  have hold : FreeByte (l ++ x :: r) b := by
    rw [freeByte_append, freeByte_append] at hb
    rw [freeByte_append, freeByte_cons]
    obtain hb | hb | hb := hb
    · exact .inl hb
    · have hin := freeByte_filled hb
      exact .inr (.inl ⟨hx, by omega, hin.2.2⟩)
    · exact .inr (.inr hb)
  rw [h.1.bytes b (h.1.inv.not_headerByte_of_free hb)]
  show fill s.mem (x.addr + 56) req 0 b = 0
  unfold fill
  split
  · rfl
  · exact hz b hold

theorem Freed.freeZero (h : Freed s t l x r l' y r') (hz : FreeZero s.mem (l ++ x :: r)) :
    FreeZero t.mem (l' ++ y :: r') := by
  intro b hb
  rw [h.bytes b (h.inv.not_headerByte_of_free hb)]
  split
  · rfl
  · rename_i hout
    refine hz b ?_
    rw [freeByte_append, freeByte_cons] at hb ⊢
    obtain hb | ⟨-, hin⟩ | hb := hb
    · refine .inl ?_
      obtain ⟨rfl, -, -⟩ | ⟨v, rfl, -, -⟩ := h.before
      · exact hb
      · exact freeByte_append.mpr (.inl hb)
    · exact absurd hin hout
    · refine .inr (.inr ?_)
      obtain ⟨rfl, -, -⟩ | ⟨z, rfl, -, -⟩ := h.behind
      · exact hb
      · exact freeByte_cons.mpr (.inr hb)

theorem Grown.freeZero (I : HeapInv s (l ++ x :: z :: r)) (hzf : z.used = false)
    (hlt : x.size < new) (h : Grown s t l x z r new) (hz : FreeZero s.mem (l ++ x :: z :: r)) :
    FreeZero t.mem (l ++ (filled (merged x z) new ++ r)) := by
  intro b hb
  have hmerged := (merged_lt I).2
  have hxstop : x.stop = x.addr + 56 + x.size := rfl
  have hold : FreeByte (l ++ x :: z :: r) b ∧ ¬(z.addr ≤ b ∧ b < z.addr + 56) := by
    have I' : HeapInv s ((l ++ [x]) ++ z :: r) := by simpa using I
    rw [freeByte_append, freeByte_append] at hb
    rw [freeByte_append, freeByte_cons, freeByte_cons]
    have hout : FreeByte (l ++ [x] ++ r) b → ¬(z.addr ≤ b ∧ b < z.addr + 56) := by
      rintro ⟨v, hv, -, hlo, hhi⟩ hin
      have hapart := I'.apart hv
      unfold Segment.stop at hapart hhi
      omega
    rw [freeByte_append, freeByte_append] at hout
    obtain hb | hb | hb := hb
    · exact ⟨.inl hb, hout (.inl (.inl hb))⟩
    · obtain ⟨-, hlo, hhi⟩ := freeByte_filled hb
      have hlo : x.addr + 56 + new + 56 ≤ b := hlo
      exact ⟨.inr (.inr (.inl ⟨hzf, by omega, by omega⟩)), by omega⟩
    · exact ⟨.inr (.inr (.inr hb)), hout (.inr hb)⟩
  refine (h.bytes b ?_).trans (hz b hold.1)
  rintro (hp | hp)
  · exact h.inv.not_headerByte_of_free hb hp
  · exact hold.2 hp

/-- Cutting a block down leaves the heap as it should be: nothing is cut off, or no free segment
follows and what becomes the body of the new segment is zero. -/
def CutOk (m : Memory) (x : Segment) (r : List Segment) (new : ℕ) : Prop :=
  x.size - new > 56 → (∀ z ∈ r.head?, z.used = true) ∧
    ∀ b, x.addr + 56 + new + 56 ≤ b → b < x.stop → m b = 0

theorem Edited.freeZero_cut (h : Edited s t (l ++ (filled x new ++ r))
    (HeaderByte (l ++ (filled x new ++ r)))) (hcut : CutOk s.mem x r new)
    (hz : FreeZero s.mem (l ++ x :: r)) : FreeZero t.mem (l ++ (filled x new ++ r)) := by
  intro b hb
  rw [h.bytes b (h.inv.not_headerByte_of_free hb)]
  rw [freeByte_append, freeByte_append] at hb
  obtain hb | hb | hb := hb
  · exact hz b (freeByte_append.mpr (.inl hb))
  · obtain ⟨hgt, hlo, hhi⟩ := freeByte_filled hb
    exact (hcut hgt).2 b hlo hhi
  · exact hz b (freeByte_append.mpr (.inr (freeByte_cons.mpr (.inr hb))))

/-! ### The heap as it should be -/

structure Clean (s : KernelMemoryManager) (segs : List Segment) : Prop where
  coalesced : Coalesced segs
  zero : FreeZero s.mem segs
  warnings : s.warnings = []

theorem Clean.body (h : Clean s segs) : ∀ x ∈ segs, x.used = false →
    ∀ b, x.addr + 56 ≤ b → b < x.stop → s.mem b = 0 :=
  fun x hx hused b hlo hhi => h.zero b ⟨x, hx, hused, hlo, hhi⟩

theorem warnings_congr (h : ∃ mem last, t = { s with mem := mem, last_ := last }) :
    t.warnings = s.warnings := by
  obtain ⟨mem, last, rfl⟩ := h
  rfl

theorem Allocated.clean (h : Allocated s t l x r req w) (hx : x.used = false)
    (hreq : req ≤ x.size) (hc : Clean s (l ++ x :: r)) :
    Clean t (l ++ (filled x req ++ r)) := by
  obtain ⟨hl, hr, -, -⟩ := coalesced_append.mp hc.coalesced
  have hw : w = [] := by
    refine h.2 fun b hlo hhi => hc.body x (by simp) hx b hlo ?_
    unfold Segment.stop
    omega
  refine ⟨hl.filled hr fun _ => (hc.coalesced.neighbours hx).2, h.freeZero hx hc.zero, ?_⟩
  rw [warnings_congr h.1.same]
  show s.warnings ++ w = []
  rw [hc.warnings, hw]
  rfl

theorem Freed.clean (h : Freed s t l x r l' y r') (hc : Clean s (l ++ x :: r)) :
    Clean t (l' ++ y :: r') :=
  ⟨h.coalesced hc.coalesced, h.freeZero hc.zero, (warnings_congr h.same).trans hc.warnings⟩

theorem Clean.copied {n k : ℕ} (hc : Clean u (l ++ (filled y new ++ r)))
    (I : HeapInv u (l ++ (filled y new ++ r))) (hnew : new ≤ y.size) (hn : n ≤ new) :
    Clean (copied u (y.addr + 56) k n) (l ++ (filled y new ++ r)) := by
  refine ⟨hc.coalesced, fun b hb => (copy_apart ?_).trans (hc.zero b hb), hc.warnings⟩
  obtain ⟨y', rest, hfilled, haddr, hused, hle, -, -⟩ := filled_cons y hnew
  rw [hfilled, List.cons_append] at I hb
  obtain ⟨v, hv, hfree, hlo, hhi⟩ := hb
  have hmem : v ∈ l ++ (rest ++ r) := by
    rw [List.mem_append, List.mem_cons] at hv
    obtain hv | rfl | hv := hv
    · exact List.mem_append_left _ hv
    · rw [hused] at hfree
      cases hfree
    · exact List.mem_append_right _ hv
  have hapart := I.apart hmem
  unfold Segment.stop at hapart hhi
  omega

theorem Reallocated.clean (I : HeapInv s (l ++ x :: r)) (h : Reallocated s t l x r new ptr segs')
    (hc : Clean s (l ++ x :: r)) (hcut : CutOk s.mem x r new) : Clean t segs' := by
  obtain ⟨hl, hr, -, -⟩ := coalesced_append.mp hc.coalesced
  cases h with
  | same _ hst => exact hst ▸ hc
  | shrunk _ hedit =>
    exact ⟨hl.filled hr fun hgt => (hcut hgt).1, hedit.freeZero_cut hcut hc.zero,
      (warnings_congr hedit.same).trans hc.warnings⟩
  | grown heq hz hlt _ hgrown =>
    subst heq
    have hr' := coalesced_append (l := []) |>.mp hr
    exact ⟨hl.filled hr'.2.1 fun _ => (Coalesced.neighbours (l := []) hr hz).2,
      hgrown.freeZero I hz hlt hc.zero, (warnings_congr hgrown.same).trans hc.warnings⟩
  | moved hsegs hy hlt hnew halloc hlist hfreed =>
    have hclean := halloc.clean hy hnew (hsegs ▸ hc)
    have hcopied := hclean.copied (k := x.addr + 56) halloc.1.inv hnew hlt.le
    rw [hlist] at hcopied
    exact hfreed.clean hcopied

end KPanic.Heap
