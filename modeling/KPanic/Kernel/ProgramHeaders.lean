import KPanic.Kernel.Loader

/-!
# The loop of `Loader::prepareHeaders`

The loop erases from the list that it walks over, and steps its iterator back by hand, in front of the
list after the first header was erased. The headers behind the iterator are always the loadable ones of
those that were passed, and no two of them overlap.
-/

namespace KPanic.Loader

open Bytes (add64)

inductive HeadersError
  | outOfList
  | endless
  deriving DecidableEq

/-- The first loop, where `it` is how far the iterator is from `begin()`: what is returned, and `phdrs_`.
The loop of `it2` reads the elements in front of `it`. -/
def headersLoop : ℕ → List Phdr → ℤ → Except HeadersError (Bool × List Phdr)
  | 0, _, _ => .error .endless
  | passes + 1, phdrs_, it =>
    if it = phdrs_.length then .ok (phdrs_.length > 0, phdrs_)
    else if it < 0 then .error .outOfList
    else
      match phdrs_[it.toNat]? with
      | none => .error .outOfList
      | some p =>
        if p.p_type ≠ PT_LOAD ∨ p.p_memsz = 0 ∧ p.p_filesz = 0 then
          let it' := it - 1
          headersLoop passes (phdrs_.eraseIdx it.toNat) (it' + 1)
        else if (phdrs_.take it.toNat).any fun q => Overlap p q then .ok (false, phdrs_)
        else headersLoop passes phdrs_ (it + 1)

def prepareHeadersList (phdrs_ : List Phdr) : Except HeadersError (Bool × List Phdr) :=
  headersLoop (phdrs_.length + 1) phdrs_ 0

variable {p q : Phdr} {kept rest phdrs ps : List Phdr} {passes : ℕ}

/-- The header is that of a segment which `loadPage` loads from somewhere. -/
def Loadable (p : Phdr) : Prop := p.p_type = PT_LOAD ∧ (p.p_memsz ≠ 0 ∨ p.p_filesz ≠ 0)

instance (p : Phdr) : Decidable (Loadable p) := inferInstanceAs (Decidable (_ ∧ _))

theorem not_loadable : ¬Loadable p ↔ p.p_type ≠ PT_LOAD ∨ p.p_memsz = 0 ∧ p.p_filesz = 0 := by
  rw [Loadable]
  tauto

/-! ### Overlaps -/

/-- The addresses of the segment that are in the file. -/
def Phdr.FileBacked (p : Phdr) (address : ℕ) : Prop :=
  p.p_vaddr ≤ address ∧ address < p.p_vaddr + p.p_filesz

def Phdr.NoWrap (p : Phdr) : Prop := p.p_vaddr + p.p_filesz < 2 ^ 64

instance (p : Phdr) : Decidable p.NoWrap := inferInstanceAs (Decidable (_ < _))

def Meet (p q : Phdr) : Prop := ∃ address, p.FileBacked address ∧ q.FileBacked address

theorem overlap_iff_meet (hp : p.NoWrap) (hq : q.NoWrap) : Overlap p q ↔ Meet p q := by
  have hpend : add64 p.p_vaddr p.p_filesz = p.p_vaddr + p.p_filesz := Bytes.add64_of_lt hp
  have hqend : add64 q.p_vaddr q.p_filesz = q.p_vaddr + q.p_filesz := Bytes.add64_of_lt hq
  rw [Overlap, hpend, hqend]
  constructor
  · intro h
    refine ⟨max p.p_vaddr q.p_vaddr, ?_, ?_⟩
    · exact ⟨le_max_left _ _, h.trans_le (min_le_left _ _)⟩
    · exact ⟨le_max_right _ _, h.trans_le (min_le_right _ _)⟩
  · rintro ⟨address, hp, hq⟩
    exact (max_le hp.1 hq.1).trans_lt (lt_min hp.2 hq.2)

theorem Meet.symm (h : Meet p q) : Meet q p := by
  obtain ⟨address, hp, hq⟩ := h
  exact ⟨address, hq, hp⟩

/-- No two of the headers share an address in the file. -/
def Apart (phdrs : List Phdr) : Prop := phdrs.Pairwise fun p q => ¬Meet p q

/-! ### The loop -/

theorem headersLoop_eq (kept : List Phdr) (hpasses : rest.length < passes) :
    ∃ left, headersLoop passes (kept ++ rest) kept.length = .ok ((prepareLoop kept rest).any (·.length > 0), left) ∧
      ∀ ps, prepareLoop kept rest = some ps → left = ps := by
  induction rest generalizing kept passes with
  | nil =>
    cases passes with
    | zero => cases hpasses
    | succ passes =>
      refine ⟨kept, ?_, ?_⟩
      · simp [headersLoop, prepareLoop]
      · intro ps hps
        exact Option.some.inj hps
  | cons p rest ih =>
    cases passes with
    | zero => cases hpasses
    | succ passes =>
      have hpasses' : rest.length < passes := Nat.lt_of_succ_lt_succ hpasses
      have hmore : ¬(kept.length : ℤ) = (kept ++ p :: rest).length := by
        rw [List.length_append, List.length_cons]
        omega
      have hinside : ¬(kept.length : ℤ) < 0 := by omega
      have hat : (kept ++ p :: rest)[kept.length]? = some p := by simp
      rw [headersLoop, if_neg hmore, if_neg hinside, Int.toNat_natCast, hat, prepareLoop]
      dsimp only
      by_cases hload : p.p_type ≠ PT_LOAD ∨ p.p_memsz = 0 ∧ p.p_filesz = 0
      · have herase : (kept ++ p :: rest).eraseIdx kept.length = kept ++ rest := by
          simp [List.eraseIdx_append_of_length_le]
        rw [if_pos hload, if_pos hload, herase, Int.sub_add_cancel]
        exact ih _ hpasses'
      · have htake : (kept ++ p :: rest).take kept.length = kept := by simp
        rw [if_neg hload, if_neg hload, htake]
        by_cases hover : kept.any (fun q => Overlap p q) = true
        · rw [if_pos hover, if_pos hover]
          exact ⟨_, rfl, by simp⟩
        · have hnext : (kept.length : ℤ) + 1 = (kept ++ [p]).length := by simp
          rw [if_neg hover, if_neg hover, hnext, List.append_cons kept p rest]
          exact ih _ hpasses'

/-! ### What is left -/

theorem prepareLoop_iff (hwrap : ∀ p ∈ kept ++ rest, p.NoWrap) (hkept : Apart kept) :
    prepareLoop kept rest = some ps ↔
      Apart (kept ++ rest.filter fun p => Loadable p) ∧ ps = kept ++ rest.filter fun p => Loadable p := by
  induction rest generalizing kept with
  | nil =>
    rw [prepareLoop, List.filter_nil, List.append_nil, Option.some.injEq]
    constructor
    · rintro rfl
      exact ⟨hkept, rfl⟩
    · rintro ⟨-, rfl⟩
      rfl
  | cons p rest ih =>
    have hrest : ∀ q ∈ kept ++ rest, q.NoWrap := by
      intro q hq
      apply hwrap q
      simp only [List.mem_append, List.mem_cons] at hq ⊢
      tauto
    have hmeet : ∀ q ∈ kept, Overlap p q ↔ Meet p q := fun q hq =>
      overlap_iff_meet (hwrap p (by simp)) (hwrap q (by simp [hq]))
    rw [prepareLoop]
    by_cases hload : Loadable p
    · rw [if_neg (mt not_loadable.mpr (not_not_intro hload)), List.filter_cons_of_pos (by simpa using hload)]
      by_cases hover : kept.any (fun q => Overlap p q) = true
      · obtain ⟨q, hq, hpq⟩ := List.any_eq_true.mp hover
        have hmeets : Meet p q := (hmeet q hq).mp (of_decide_eq_true hpq)
        rw [if_pos hover]
        constructor
        · intro h
          cases h
        · rintro ⟨hapart, -⟩
          exact absurd hmeets.symm ((List.pairwise_append.mp hapart).2.2 q hq p List.mem_cons_self)
      · have hfree : ∀ q ∈ kept, ¬Meet q p := by
          intro q hq hmeets
          exact hover (List.any_eq_true.mpr ⟨q, hq, decide_eq_true ((hmeet q hq).mpr hmeets.symm)⟩)
        have hkept' : Apart (kept ++ [p]) := by
          apply List.pairwise_append.mpr
          refine ⟨hkept, List.pairwise_singleton _ _, ?_⟩
          intro q hq r hr
          obtain rfl := List.mem_singleton.mp hr
          exact hfree q hq
        rw [if_neg hover, ih (by simpa using hwrap) hkept', List.append_assoc, List.singleton_append]
    · rw [if_pos (not_loadable.mp hload), List.filter_cons_of_neg (by simpa using hload)]
      exact ih hrest hkept

theorem prepareHeaders_eq_some :
    prepareHeaders phdrs = some ps ↔ prepareLoop [] phdrs = some ps ∧ 0 < ps.length := by
  rw [prepareHeaders]
  cases prepareLoop [] phdrs with
  | none => simp
  | some kept =>
    dsimp only
    by_cases hpos : kept.length > 0
    · rw [if_pos hpos]
      constructor
      · intro h
        obtain rfl := Option.some.inj h
        exact ⟨rfl, hpos⟩
      · exact And.left
    · rw [if_neg hpos]
      constructor
      · intro h
        cases h
      · rintro ⟨h, hps⟩
        obtain rfl := Option.some.inj h
        exact absurd hps hpos

/-- What `prepareHeaders` returns is what `loadPage` is then called with. -/
theorem prepareHeadersList_eq (phdrs : List Phdr) :
    ∃ left, prepareHeadersList phdrs = .ok ((prepareHeaders phdrs).isSome, left) ∧
      ∀ ps, prepareHeaders phdrs = some ps → left = ps := by
  obtain ⟨left, hloop, hleft⟩ := headersLoop_eq [] (Nat.lt_succ_self phdrs.length)
  refine ⟨left, ?_, fun ps hps => hleft ps (prepareHeaders_eq_some.mp hps).1⟩
  have hret : (prepareHeaders phdrs).isSome = (prepareLoop [] phdrs).any (·.length > 0) := by
    rw [Bool.eq_iff_iff, Option.isSome_iff_exists, Option.any_eq_true]
    simp only [prepareHeaders_eq_some, decide_eq_true_iff, gt_iff_lt]
  rw [prepareHeadersList, hret]
  exact hloop

/-- `prepareHeaders` comes to an end. It returns true if and only if there are loadable headers and no
two of them load data from the binary to the same address, and then it leaves these in their order. -/
theorem prepareHeaders_exact (phdrs : List Phdr) (hwrap : ∀ p ∈ phdrs, p.NoWrap) :
    ∃ ret left, prepareHeadersList phdrs = .ok (ret, left) ∧
      (ret = true → left = phdrs.filter fun p => Loadable p) ∧
      (ret = true ↔ (∃ p ∈ phdrs, Loadable p) ∧ Apart (phdrs.filter fun p => Loadable p)) := by
  obtain ⟨left, hrun, hleft⟩ := prepareHeadersList_eq phdrs
  have hiff : ∀ ps, prepareHeaders phdrs = some ps ↔ (∃ p ∈ phdrs, Loadable p) ∧
      Apart (phdrs.filter fun p => Loadable p) ∧ ps = phdrs.filter fun p => Loadable p := by
    intro ps
    rw [prepareHeaders_eq_some, prepareLoop_iff hwrap List.Pairwise.nil, List.nil_append]
    constructor
    · rintro ⟨⟨hapart, rfl⟩, hpos⟩
      obtain ⟨p, hp⟩ := List.exists_mem_of_length_pos hpos
      obtain ⟨hmem, hload⟩ := List.mem_filter.mp hp
      exact ⟨⟨p, hmem, of_decide_eq_true hload⟩, hapart, rfl⟩
    · rintro ⟨⟨p, hmem, hload⟩, hapart, rfl⟩
      exact ⟨⟨hapart, rfl⟩, List.length_pos_of_mem (List.mem_filter.mpr ⟨hmem, decide_eq_true hload⟩)⟩
  refine ⟨_, left, hrun, ?_, ?_⟩
  · intro hret
    obtain ⟨ps, hps⟩ := Option.isSome_iff_exists.mp hret
    rw [hleft ps hps]
    exact ((hiff ps).mp hps).2.2
  · rw [Option.isSome_iff_exists]
    constructor
    · rintro ⟨ps, hps⟩
      obtain ⟨hsome, hapart, -⟩ := (hiff ps).mp hps
      exact ⟨hsome, hapart⟩
    · rintro ⟨hsome, hapart⟩
      exact ⟨_, (hiff _).mpr ⟨hsome, hapart, rfl⟩⟩

/-- A header with 64-bit fields. -/
def header (p_type : ℕ) (p_offset p_vaddr p_filesz p_memsz : Fin (2 ^ 64)) : Phdr :=
  ⟨p_type, p_offset, p_vaddr, p_filesz, p_memsz, p_offset.isLt, p_vaddr.isLt, p_filesz.isLt, p_memsz.isLt⟩

/-- A segment of text and one of data, behind a header that is erased. -/
def textAndData : List Phdr := [header 6 64 64 56 56, header 1 0 4096 300 300, header 1 512 8192 100 500]

theorem prepareHeaders_exact_textAndData : (∀ p ∈ textAndData, p.NoWrap) ∧
    ∃ ret left, prepareHeadersList textAndData = .ok (ret, left) ∧
      (ret = true → left = textAndData.filter fun p => Loadable p) ∧
      (ret = true ↔ (∃ p ∈ textAndData, Loadable p) ∧ Apart (textAndData.filter fun p => Loadable p)) :=
  ⟨by decide, prepareHeaders_exact textAndData (by decide)⟩

end KPanic.Loader
