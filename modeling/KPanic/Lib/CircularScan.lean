import Mathlib.Data.List.Range
import Mathlib.Tactic.Common

/-!
# Searching in a circle

A search among `n` slots begins behind `cur`, goes on at 0 behind the last slot, and stops at `cur`.
The stop is tested before a step and the way back to 0 is inside it, so 0 is never compared with
`cur`, unless the step `guards` itself.
-/

namespace CircularScan

inductive Outcome
  | found (pos : ℕ)
  | stopped
  | endless
  deriving DecidableEq

/-- At most `passes` passes from `pos` on. -/
def scan (free : ℕ → Bool) (guards : Bool) (n cur : ℕ) : ℕ → ℕ → Outcome
  | 0, _ => .endless
  | passes + 1, pos =>
    if pos = cur then .stopped
    else if guards = true ∧ n ≤ pos ∧ 0 = cur then .stopped
    else
      let pos := if n ≤ pos then 0 else pos
      if free pos then .found pos else scan free guards n cur passes (pos + 1)

/-- The slots that are still to be looked at. -/
def rest (n cur pos : ℕ) : List ℕ :=
  if cur < pos then List.range' pos (n - pos) ++ List.range cur else List.range' pos (cur - pos)

variable {free : ℕ → Bool} {guards : Bool} {n cur pos passes i : ℕ}

theorem mem_rest (h : cur < n) : i ∈ rest n cur (cur + 1) ↔ i < n ∧ i ≠ cur := by
  rw [rest, if_pos (Nat.lt_succ_self cur), List.mem_append, List.mem_range'_1, List.mem_range]
  omega

theorem length_rest (h : cur < n) : (rest n cur (cur + 1)).length = n - 1 := by
  rw [rest, if_pos (Nat.lt_succ_self cur), List.length_append, List.length_range', List.length_range]
  omega

theorem rest_self : rest n cur cur = [] := by
  rw [rest, if_neg (Nat.lt_irrefl cur), Nat.sub_self, List.range'_zero]

/-- Behind the last slot comes the first. -/
theorem rest_end (h : cur < n) : rest n cur n = rest n cur 0 := by
  rw [rest, if_pos h, Nat.sub_self, List.range'_zero, List.nil_append, rest, if_neg (Nat.not_lt_zero cur),
    Nat.sub_zero, List.range_eq_range']

theorem rest_cons (hne : pos ≠ cur) (hlt : pos < n) (h : cur < n) :
    rest n cur pos = pos :: rest n cur (pos + 1) := by
  unfold rest
  by_cases hpos : cur < pos
  · obtain ⟨k, hk⟩ : ∃ k, n - pos = k + 1 := ⟨n - pos - 1, by omega⟩
    rw [if_pos hpos, if_pos (Nat.lt_succ_of_lt hpos), hk, List.range'_succ, List.cons_append]
    congr 3
    omega
  · obtain ⟨k, hk⟩ : ∃ k, cur - pos = k + 1 := ⟨cur - pos - 1, by omega⟩
    rw [if_neg hpos, if_neg (by omega), hk, List.range'_succ]
    congr 2
    omega

/-- One pass at a slot that is not `cur`. -/
theorem scan_slot (hne : pos ≠ cur) (hlt : pos < n) :
    scan free guards n cur (passes + 1) pos =
      if free pos then .found pos else scan free guards n cur passes (pos + 1) := by
  rw [scan, if_neg hne, if_neg (by omega), if_neg (Nat.not_le.mpr hlt)]

/-- One pass behind the last slot is one at 0. -/
theorem scan_end (h : cur < n) (hcur : cur ≠ 0) :
    scan free guards n cur (passes + 1) n = scan free guards n cur (passes + 1) 0 := by
  have hguard : ¬(guards = true ∧ n ≤ n ∧ 0 = cur) := fun hg => hcur hg.2.2.symm
  have hguard' : ¬(guards = true ∧ n ≤ 0 ∧ 0 = cur) := fun hg => hcur hg.2.2.symm
  rw [scan, if_neg (Nat.ne_of_gt h), if_neg hguard, if_pos (Nat.le_refl n), scan, if_neg (Ne.symm hcur),
    if_neg hguard', ite_self]

/-- With enough passes, the first free slot of the rest is found; without one, the search stops at
`cur`, if that is tested. -/
theorem scan_eq (h : cur < n) (hpos : pos ≤ n) (hpasses : (rest n cur pos).length < passes)
    (hstop : guards = true ∨ cur ≠ 0 ∨ (rest n cur pos).find? free ≠ none) :
    scan free guards n cur passes pos = ((rest n cur pos).find? free).elim .stopped .found := by
  induction passes generalizing pos with
  | zero => exact absurd hpasses (Nat.not_lt_zero _)
  | succ passes ih =>
    -- the pass at a slot that is not `cur`
    have hslot : ∀ p, p ≠ cur → p < n → (rest n cur p).length < passes + 1 →
        (guards = true ∨ cur ≠ 0 ∨ (rest n cur p).find? free ≠ none) →
        scan free guards n cur (passes + 1) p = ((rest n cur p).find? free).elim .stopped .found := by
      intro p hne hlt hlen hp
      rw [rest_cons hne hlt h, List.length_cons] at hlen
      rw [rest_cons hne hlt h, List.find?_cons] at hp ⊢
      rw [scan_slot hne hlt]
      cases hfree : free p with
      | true => rfl
      | false =>
        rw [hfree] at hp
        exact ih hlt (Nat.lt_of_succ_lt_succ hlen) hp
    by_cases hcur : pos = cur
    · rw [hcur, rest_self, scan, if_pos rfl]
      rfl
    · by_cases hlt : pos < n
      · exact hslot pos hcur hlt hpasses hstop
      · have heq : pos = n := Nat.le_antisymm hpos (Nat.not_lt.mp hlt)
        subst heq
        rw [rest_end h] at hpasses hstop ⊢
        by_cases hzero : cur = 0
        · subst hzero
          rw [rest_self] at hstop ⊢
          have hguards : guards = true := by
            rcases hstop with hg | hne | hfind
            · exact hg
            · exact absurd rfl hne
            · exact absurd rfl hfind
          rw [scan, if_neg hcur, if_pos ⟨hguards, Nat.le_refl pos, rfl⟩]
          rfl
        · rw [scan_end h hzero]
          exact hslot 0 (Ne.symm hzero) (Nat.zero_lt_of_lt h) hpasses hstop

/-- The search that begins at 0, does not guard, and finds no free slot does not end. -/
theorem scan_endless (hfree : ∀ i < n, free i = false) (hpos : 0 < pos) (hle : pos ≤ n) :
    scan free false n 0 passes pos = .endless := by
  induction passes generalizing pos with
  | zero => rfl
  | succ passes ih =>
    have hguard : ¬(false = true ∧ n ≤ pos ∧ 0 = 0) := fun hg => Bool.false_ne_true hg.1
    rw [scan, if_neg (Nat.ne_of_gt hpos), if_neg hguard]
    by_cases hlt : n ≤ pos
    · rw [if_pos hlt]
      dsimp only
      rw [hfree 0 (by omega)]
      exact ih (Nat.succ_pos 0) (by omega)
    · rw [if_neg hlt]
      dsimp only
      rw [hfree pos (by omega)]
      exact ih (Nat.succ_pos pos) (by omega)

/-- What is found is free, and lies in the circle, or is 0 behind the end of an empty one. -/
theorem found_free (hfound : scan free guards n cur passes pos = .found i) :
    (i < n ∨ i = 0) ∧ free i = true := by
  induction passes generalizing pos with
  | zero => cases hfound
  | succ passes ih =>
    rw [scan] at hfound
    split at hfound
    · cases hfound
    · split at hfound
      · cases hfound
      · dsimp only at hfound
        obtain ⟨pos', hback⟩ : ∃ pos', (if n ≤ pos then 0 else pos) = pos' := ⟨_, rfl⟩
        rw [hback] at hfound
        split at hfound
        · rename_i hfree
          cases hfound
          refine ⟨?_, hfree⟩
          split at hback
          · exact .inr hback.symm
          · omega
        · exact ih hfound

theorem found_lt (h : 0 < n) (hfound : scan free guards n cur passes pos = .found i) : i < n := by
  obtain ⟨hlt | rfl, -⟩ := found_free hfound
  · exact hlt
  · exact h

theorem find_rest_eq_none (h : cur < n) :
    (rest n cur (cur + 1)).find? free = none ↔ ∀ i < n, i ≠ cur → free i = false := by
  rw [List.find?_eq_none]
  constructor
  · intro hnone i hi hne
    exact Bool.eq_false_iff.mpr (hnone i ((mem_rest h).mpr ⟨hi, hne⟩))
  · intro hfree i hi
    obtain ⟨hlt, hne⟩ := (mem_rest h).mp hi
    exact Bool.eq_false_iff.mp (hfree i hlt hne)

theorem of_find_rest (h : cur < n) (hfind : (rest n cur (cur + 1)).find? free = some i) :
    i < n ∧ i ≠ cur ∧ free i = true := by
  obtain ⟨hlt, hne⟩ := (mem_rest h).mp (List.mem_of_find?_eq_some hfind)
  exact ⟨hlt, hne, List.find?_some hfind⟩

end CircularScan
