import KPanic.Mm.HeapRuns

/-!
# Where the heap fails

A block that is cut down leaves a free segment that is neither merged nor cleared, and freeing the
only block that is left tries to move the break.
-/

namespace KPanic.Heap

open Bytes Machine Wp MallocSegment

variable {start min_pages max_pages : ℕ} {mem : Memory} {k₀ : KernelMemoryManager} {σ : System}
  {tr : List Block} {l r l' r' segs : List Segment} {x y : Segment} {s t : KernelMemoryManager}
  {c : Block}

/-! ### Cutting a block down -/

instance {ptr new_size : ℕ} : Decidable (cutOk s ptr new_size) :=
  inferInstanceAs (Decidable (_ → (_ ∨ _) ∧ ∀ i < _, s.mem (_ + i) = 0))

instance {call : Call} : Decidable (call.cutOk σ) :=
  match call with
  | .allocateMemory _ _ => isTrue trivial
  | .freeMemory _ _ => isTrue trivial
  | .write _ _ _ => isTrue trivial
  | .reallocateMemory ptr size _ =>
    inferInstanceAs (Decidable (ptr = 0 ∨ size = 0 ∨ cutOk σ.kmm ptr (align size.toNat)))

/-- As long as no call cuts off a free neighbour or bytes that are not zero, free segments are
apart and zero, new blocks are zero, and the check in `fillSegment` finds nothing. -/
theorem heap_zeroed (hstart : 0 < start) (hpages : 0 < min_pages)
    (hfits : start + min_pages * PAGE_SIZE < 2 ^ 64)
    (hk : construct start min_pages max_pages mem = .ok k₀)
    (h : Runs step (fun σ call => call.valid σ ∧ call.cutOk σ) ⟨k₀, []⟩ tr σ) :
    (∃ segs, Linked σ.kmm.mem 0 segs 0 ∧ σ.kmm.first_ = headAddr segs 0 ∧
      σ.kmm.last_ = lastAddr 0 segs ∧ Coalesced segs ∧ FreeZero σ.kmm.mem segs) ∧
    σ.kmm.warnings = [] ∧ (∀ c ∈ tr, ∀ i < c.size, c.bytes i = 0) ∧
    ∀ call, call.valid σ → step σ call ≠ .error .memoryNotZero := by
  obtain ⟨⟨segs, R, hclean⟩, htr⟩ := reached_clean (construct_ok hstart hpages hfits hk).1 h
  refine ⟨⟨segs, R.inv.linked, R.inv.head, R.inv.last, hclean.coalesced, hclean.zero⟩,
    hclean.warnings, htr, fun call hv herr => ?_⟩
  refine step_error (R.wp_act (E := fun e => e ≠ .memoryNotZero) hv nofun ?_
    (.inr hclean)) herr rfl
  rintro e he rfl
  cases he

/-- A block is cut down; another one follows and it was never written to. -/
theorem heap_zeroed_cut : ∃ k₀ σ tr, construct 4096 1 0 (fun _ => 7) = .ok k₀ ∧
    Runs step (fun σ call => call.valid σ ∧ call.cutOk σ) ⟨k₀, []⟩ tr σ ∧ σ.live.length = 2 ∧
    σ.kmm.warnings = [] := by
  have hrun : (match construct 4096 1 0 (fun _ => 7) with
      | .ok k => match execOk step (fun σ call => call.valid σ ∧ call.cutOk σ) ⟨k, []⟩
          [.allocateMemory 128 ⟨1, 2⟩, .allocateMemory 16 ⟨1, 2⟩, .write 4152 3 1,
            .reallocateMemory 4152 16 ⟨1, 2⟩] with
        | some (σ, _) => σ.live.length == 2
        | none => false
      | .error _ => false) = true := by decide +kernel
  split at hrun
  · rename_i k hk
    split at hrun
    · rename_i σ tr hexec
      have h := runs_of_execOk _ _ hexec
      obtain ⟨-, hwarnings, -⟩ := heap_zeroed (by decide) (by decide) (by decide) hk h
      exact ⟨k, σ, tr, hk, h, beq_iff_eq.mp hrun, hwarnings⟩
    · cases hrun
  · cases hrun

/-- A block of 128 bytes is written to and cut down to 16; the next allocation finds the byte. -/
theorem cut_not_zeroed : ∃ k₀ σ tr, construct 4096 1 0 (fun _ => 7) = .ok k₀ ∧
    Runs step (fun σ call => call.valid σ) ⟨k₀, []⟩ tr σ ∧ σ.kmm.warnings = [(4252, 1)] := by
  have hrun : (match construct 4096 1 0 (fun _ => 7) with
      | .ok k => match execOk step (fun σ call => call.valid σ) ⟨k, []⟩
          [.allocateMemory 128 ⟨1, 2⟩, .write 4152 100 1, .reallocateMemory 4152 16 ⟨1, 2⟩,
            .allocateMemory 48 ⟨1, 2⟩] with
        | some (σ, _) => σ.kmm.warnings == [(4252, 1)]
        | none => false
      | .error _ => false) = true := by decide +kernel
  split at hrun
  · rename_i k hk
    split at hrun
    · rename_i σ tr hexec
      exact ⟨k, σ, tr, hk, runs_of_execOk _ _ hexec, beq_iff_eq.mp hrun⟩
    · cases hrun
  · cases hrun

/-! ### Freeing the last block -/

/-- Neither `reallocateMemory` nor the free of the only block. -/
def Call.leavesOne (σ : System) : Call → Prop
  | .allocateMemory _ _ => True
  | .freeMemory ptr _ => ∃ c ∈ σ.live, c.ptr ≠ ptr
  | .reallocateMemory _ _ _ => False
  | .write _ _ _ => True

instance {call : Call} : Decidable (call.leavesOne σ) :=
  match call with
  | .allocateMemory _ _ => isTrue trivial
  | .freeMemory ptr _ => inferInstanceAs (Decidable (∃ c ∈ σ.live, c.ptr ≠ ptr))
  | .reallocateMemory _ _ _ => isFalse id
  | .write _ _ _ => isTrue trivial

/-- Segments that are all free are one segment. -/
theorem Coalesced.length_le (h : Coalesced segs) (hfree : ∀ x ∈ segs, x.used = false) :
    segs.length ≤ 1 := by
  cases segs with
  | nil => exact Nat.zero_le 1
  | cons x l =>
    cases l with
    | nil => exact le_rfl
    | cons y l =>
      have hneighbours := (h.neighbours (l := []) (hfree x List.mem_cons_self)).2 y rfl
      rw [hfree y (by simp)] at hneighbours
      cases hneighbours

/-- Without used segments there is the one segment of the constructor. -/
theorem HeapInv.eq_whole (I : HeapInv s segs) (hc : Coalesced segs) (hfree : usedOf segs = []) :
    segs = [whole s] := by
  have hall : ∀ x ∈ segs, x.used = false := fun x hx => Bool.eq_false_iff.mpr fun hused => by
    have hmem : x ∈ usedOf segs := mem_usedOf.mpr ⟨hx, hused⟩
    rw [hfree] at hmem
    cases hmem
  have hlength := hc.length_le hall
  have htiles := I.tiles
  have htop : top s = s.base_break_ + 56 + (s.reserved_min_ - 56) % 2 ^ 31 := rfl
  match segs, hall, hlength, htiles with
  | [], _, _, h =>
    have h : s.base_break_ = top s := h
    omega
  | [x], hall, _, h =>
    obtain ⟨addr, size, used⟩ := x
    obtain ⟨haddr, hstop⟩ := h
    have haddr : addr = s.base_break_ := haddr
    have hstop : addr + 56 + size = top s := hstop
    have hused : used = false := hall _ List.mem_cons_self
    subst haddr hused
    rw [whole, show size = (s.reserved_min_ - 56) % 2 ^ 31 by omega]
  | _ :: _ :: _, _, hlength, _ =>
    rw [List.length_cons, List.length_cons] at hlength
    omega

/-- With `x` the whole heap becomes one segment if nothing else is used. -/
theorem Freed.notUsed (h : Freed s t l x r l' y r') (hc : Coalesced (l ++ x :: r)) :
    ∃ v ∈ l ++ r, v.used = true := by
  by_contra hnone
  have hfree : ∀ v ∈ l ++ r, v.used = false := fun v hv =>
    Bool.eq_false_iff.mpr fun hused => hnone ⟨v, hv, hused⟩
  have hall : ∀ v ∈ l' ++ y :: r', v.used = false := by
    intro v hv
    rw [List.mem_append, List.mem_cons] at hv
    obtain hv | rfl | hv := hv
    · refine hfree v (List.mem_append_left _ ?_)
      obtain ⟨rfl, -, -⟩ | ⟨w, rfl, -, -⟩ := h.before
      · exact hv
      · exact List.mem_append_left _ hv
    · exact h.free
    · refine hfree v (List.mem_append_right _ ?_)
      obtain ⟨rfl, -, -⟩ | ⟨z, rfl, -, -⟩ := h.behind
      · exact hv
      · exact List.mem_cons_of_mem _ hv
  have hlength := (h.coalesced hc).length_le hall
  rw [List.length_append, List.length_cons] at hlength
  obtain hl | hr := h.notAlone
  · exact hl (List.length_eq_zero_iff.mp (by omega))
  · exact hr (List.length_eq_zero_iff.mp (by omega))

theorem Call.cutOk_of_leavesOne {call : Call} (h : call.leavesOne σ) : call.cutOk σ := by
  cases call with
  | reallocateMemory ptr size caller => cases h
  | _ => trivial

/-- The only block cannot be freed. -/
theorem wp_free_only {caller : Caller} {live : List Block} (I : HeapInv s segs)
    (ho : Owns s.mem (usedOf segs) live) (hcoal : Coalesced segs) (hc : c ∈ live)
    (honly : ¬∃ d ∈ live, d.ptr ≠ c.ptr) :
    wp (fun e => e.ofKsbrk = true) (freeMemory c.ptr caller) (fun _ _ => False) s := by
  obtain ⟨l, x, r, rfl, hx, hptr, -⟩ := ho.segment hc
  rw [← hptr]
  refine wp_mono (wp_freeMemory I hx fun _ _ he => he) ?_
  rintro _ t ⟨-, l', y, r', hfreed⟩
  obtain ⟨v, hv, hused⟩ := hfreed.notUsed hcoal
  have hmem : v ∈ usedOf (l ++ x :: r) := by
    refine mem_usedOf.mpr ⟨?_, hused⟩
    obtain hv | hv := List.mem_append.mp hv
    · exact List.mem_append_left _ hv
    · exact List.mem_append_right _ (List.mem_cons_of_mem _ hv)
  obtain ⟨d, hd, hdptr⟩ := ho.owned v hmem
  have hne := I.addr_ne hv
  exact honly ⟨d, hd, by omega⟩

theorem step_free {caller : Caller} {ok : Bool}
    (h : (freeMemory c.ptr caller).run σ.kmm = .ok (ok, t)) :
    step σ (.freeMemory c.ptr caller) = .ok (⟨t, eraseBlock σ.live c.ptr⟩, []) := by
  unfold step act
  simp only [StateT.run_bind, h]
  rfl

/-- As long as some block stays live, the break stays and every free succeeds. A block can be freed
exactly if there is another one; without blocks the heap is the segment of the constructor. -/
theorem free_keeps_break (hstart : 0 < start) (hpages : 0 < min_pages)
    (hfits : start + min_pages * PAGE_SIZE < 2 ^ 64)
    (hk : construct start min_pages max_pages mem = .ok k₀)
    (h : Runs step (fun σ call => call.valid σ ∧ call.leavesOne σ) ⟨k₀, []⟩ tr σ) :
    σ.kmm.kernel_break_ = σ.kmm.base_break_ + σ.kmm.reserved_min_ ∧
    (σ.live = [] → Linked σ.kmm.mem 0 [whole k₀] 0 ∧ σ.kmm.first_ = k₀.first_ ∧
      σ.kmm.last_ = k₀.last_) ∧
    ∀ c ∈ σ.live, ∀ caller,
      ((∃ τ, step σ (.freeMemory c.ptr caller) = .ok (τ, [])) ↔ ∃ d ∈ σ.live, d.ptr ≠ c.ptr) ∧
      ∀ e, step σ (.freeMemory c.ptr caller) = .error e → e.ofKsbrk = true := by
  have hcut : Runs step (fun σ call => call.valid σ ∧ call.cutOk σ) ⟨k₀, []⟩ tr σ :=
    h.mono fun _ _ hcall => ⟨hcall.1, Call.cutOk_of_leavesOne hcall.2⟩
  obtain ⟨hconstructed, -, -⟩ := construct_ok hstart hpages hfits hk
  obtain ⟨⟨segs, R, hclean⟩, -⟩ := reached_clean hconstructed hcut
  refine ⟨R.inv.break_, fun hempty => ?_, fun c hc caller => ⟨?_, fun e he => ?_⟩⟩
  · have hused : usedOf segs = [] := by
      refine List.eq_nil_iff_forall_not_mem.mpr fun x hx => ?_
      obtain ⟨c, hc, -⟩ := R.owns.owned x hx
      rw [hempty] at hc
      cases hc
    have hsegs := R.inv.eq_whole hclean.coalesced hused
    have hwhole : whole σ.kmm = whole k₀ := by
      obtain ⟨mem, last, w, heq⟩ := R.same
      rw [heq]
      rfl
    have hfirst : σ.kmm.first_ = k₀.first_ := by
      obtain ⟨mem, last, w, heq⟩ := R.same
      rw [heq]
    have hlast := R.inv.last
    have hlinked := R.inv.linked
    rw [hsegs, hwhole] at hlast hlinked
    exact ⟨hlinked, hfirst, hlast.trans hconstructed.inv.last.symm⟩
  · constructor
    · rintro ⟨τ, hs⟩
      by_contra honly
      have hwp : wp (fun e => e.ofKsbrk = true) (freeMemory c.ptr caller) (fun _ _ => False) σ.kmm :=
        wp_free_only R.inv R.owns hclean.coalesced hc honly
      exact step_ok (Q := fun _ _ => False) (wp_seq hwp fun _ _ hf => hf.elim) hs
    · intro hother
      have hwp : wp (fun _ => False) (freeMemory c.ptr caller) _ σ.kmm :=
        wp_free R.inv R.owns hc (.inl hother)
      obtain ⟨ok, t, hrun, -⟩ := returns_of_wp hwp
      exact ⟨_, step_free hrun⟩
  · refine step_error (Q := fun _ _ => True) (wp_seq (wp_free R.inv R.owns hc
      (.inr fun _ he => he)) fun _ _ _ => ?_) he
    exact (wp_pure _).mpr trivial

/-- Two blocks are allocated and the first is freed. -/
theorem free_keeps_break_two : ∃ k₀ σ tr, construct 4096 1 0 (fun _ => 7) = .ok k₀ ∧
    Runs step (fun σ call => call.valid σ ∧ call.leavesOne σ) ⟨k₀, []⟩ tr σ ∧
    σ.live.length = 1 ∧ σ.kmm.kernel_break_ = σ.kmm.base_break_ + σ.kmm.reserved_min_ := by
  have hrun : (match construct 4096 1 0 (fun _ => 7) with
      | .ok k => match execOk step (fun σ call => call.valid σ ∧ call.leavesOne σ) ⟨k, []⟩
          [.allocateMemory 16 ⟨1, 2⟩, .allocateMemory 16 ⟨1, 2⟩, .freeMemory 4152 ⟨1, 2⟩] with
        | some (σ, _) => σ.live.length == 1
        | none => false
      | .error _ => false) = true := by decide +kernel
  split at hrun
  · rename_i k hk
    split at hrun
    · rename_i σ tr hexec
      have h := runs_of_execOk _ _ hexec
      exact ⟨k, σ, tr, hk, h, beq_iff_eq.mp hrun,
        (free_keeps_break (by decide) (by decide) (by decide) hk h).1⟩
    · cases hrun
  · cases hrun

/-- One block is allocated and freed. -/
theorem free_only_fails : ∃ k₀ σ tr, construct 4096 1 0 (fun _ => 7) = .ok k₀ ∧
    Runs step (fun σ call => call.valid σ) ⟨k₀, []⟩ tr σ ∧
    (Call.freeMemory 4152 ⟨1, 2⟩).valid σ ∧
    step σ (.freeMemory 4152 ⟨1, 2⟩) = .error .notDynamic := by
  have hrun : (match construct 4096 1 0 (fun _ => 7) with
      | .ok k => match execOk step (fun σ call => call.valid σ) ⟨k, []⟩
          [.allocateMemory 16 ⟨1, 2⟩] with
        | some (σ, _) => decide ((Call.freeMemory 4152 ⟨1, 2⟩).valid σ) &&
          (match step σ (.freeMemory 4152 ⟨1, 2⟩) with
          | .ok _ => false
          | .error e => e == .notDynamic)
        | none => false
      | .error _ => false) = true := by decide +kernel
  split at hrun
  · rename_i k hk
    split at hrun
    · rename_i σ tr hexec
      rw [Bool.and_eq_true, decide_eq_true_iff] at hrun
      refine ⟨k, σ, tr, hk, runs_of_execOk _ _ hexec, hrun.1, ?_⟩
      have hfree := hrun.2
      split at hfree
      · cases hfree
      · rename_i e he
        rw [he, beq_iff_eq.mp hfree]
    · cases hrun
  · cases hrun

end KPanic.Heap
