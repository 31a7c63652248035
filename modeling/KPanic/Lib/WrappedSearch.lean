import Mathlib.Tactic.Common

/-!
# Searching with a counter that wraps

A search visits the positions from a start on, with a counter that goes on at 0 behind the last number it can hold,
until a visit has a result.
-/

namespace WrappedSearch

/-- At most `passes` visits; `out` says that they had no result. -/
def search {ε α : Type} (size : ℕ) (visit : ℕ → Except ε (Option α)) (out : ε) : ℕ → ℕ → Except ε α
  | 0, _ => .error out
  | passes + 1, pos => visit pos >>= fun
    | some a => .ok a
    | none => search size visit out passes ((pos + 1) % size)

variable {ε α : Type} {size : ℕ} {visit : ℕ → Except ε (Option α)} {out : ε} {passes pos k : ℕ} {a : α}

theorem search_hit (h : visit pos = .ok (some a)) : search size visit out (passes + 1) pos = .ok a := by
  rw [search, h]
  rfl

theorem search_next (h : visit pos = .ok none) :
    search size visit out (passes + 1) pos = search size visit out passes ((pos + 1) % size) := by
  rw [search, h]
  rfl

/-- The first visit with a result decides, and no one before it fails. -/
theorem search_eq_ok (hpos : pos < size) : search size visit out passes pos = .ok a ↔
    ∃ k < passes, visit ((pos + k) % size) = .ok (some a) ∧ ∀ j < k, visit ((pos + j) % size) = .ok none := by
  induction passes generalizing pos with
  | zero => exact ⟨fun h => (by cases h), fun ⟨k, hk, _⟩ => absurd hk (Nat.not_lt_zero k)⟩
  | succ passes ih =>
    have hstart : (pos + 0) % size = pos := Nat.mod_eq_of_lt hpos
    have hnext : ∀ j, ((pos + 1) % size + j) % size = (pos + (j + 1)) % size := by
      intro j
      rw [Nat.mod_add_mod, Nat.add_assoc, Nat.add_comm 1 j]
    have hlt : (pos + 1) % size < size := Nat.mod_lt _ (by omega)
    constructor
    · intro h
      match hvisit : visit pos with
      | .error e =>
        rw [search, hvisit] at h
        cases h
      | .ok (some b) =>
        rw [search_hit hvisit] at h
        obtain rfl := Except.ok.inj h
        exact ⟨0, Nat.succ_pos _, by rw [hstart, hvisit], fun j hj => absurd hj (Nat.not_lt_zero j)⟩
      | .ok none =>
        rw [search_next hvisit] at h
        obtain ⟨k, hk, hfound, hbefore⟩ := (ih hlt).mp h
        refine ⟨k + 1, Nat.succ_lt_succ hk, by rwa [← hnext], fun j hj => ?_⟩
        cases j with
        | zero => rw [hstart, hvisit]
        | succ j => rw [← hnext]; exact hbefore j (Nat.lt_of_succ_lt_succ hj)
    · rintro ⟨k, hk, hfound, hbefore⟩
      cases k with
      | zero =>
        rw [hstart] at hfound
        exact search_hit hfound
      | succ k =>
        have hvisit : visit pos = .ok none := by
          rw [← hbefore 0 (Nat.succ_pos k), hstart]
        rw [search_next hvisit]
        refine (ih hlt).mpr ⟨k, Nat.lt_of_succ_lt_succ hk, by rwa [hnext], fun j hj => ?_⟩
        rw [hnext]
        exact hbefore (j + 1) (Nat.succ_lt_succ hj)

/-- A result that is reached before the counter wraps. -/
theorem search_found (hlt : pos + k < size) (hpasses : k < passes) (hfound : visit (pos + k) = .ok (some a))
    (hbefore : ∀ j < k, visit (pos + j) = .ok none) : search size visit out passes pos = .ok a := by
  refine (search_eq_ok (by omega)).mpr ⟨k, hpasses, ?_, fun j hj => ?_⟩
  · rw [Nat.mod_eq_of_lt hlt]
    exact hfound
  · rw [Nat.mod_eq_of_lt (by omega)]
    exact hbefore j hj

/-- A visit that does not let the search go on is reached at the latest, when those before it have no result. -/
theorem search_stop (hpos : pos < size) (h : search size visit out passes pos = .ok a)
    (hstop : visit ((pos + k) % size) ≠ .ok none) (hbefore : ∀ j < k, ∀ b, visit ((pos + j) % size) ≠ .ok (some b)) :
    visit ((pos + k) % size) = .ok (some a) := by
  obtain ⟨i, _, hfound, hquiet⟩ := (search_eq_ok hpos).mp h
  obtain hlt | heq | hgt := Nat.lt_trichotomy i k
  · exact absurd hfound (hbefore i hlt a)
  · rw [← heq]
    exact hfound
  · exact absurd (hquiet k hgt) hstop

/-- Without a result at any position, there is none. -/
theorem search_endless (hpos : pos < size) (hquiet : ∀ i < size, ∀ b, visit i ≠ .ok (some b)) :
    search size visit out passes pos ≠ .ok a := by
  intro h
  obtain ⟨k, _, hfound, _⟩ := (search_eq_ok hpos).mp h
  exact hquiet _ (Nat.mod_lt _ (by omega)) a hfound

end WrappedSearch
