import KPanic.Lib.Bytes
import Mathlib.Data.List.GetD

/-!
# Byte strings

Little-endian words in a list of bytes, read at a position that may lie outside, and C strings.
-/

namespace Bytes

/-- The low `n` bytes of `v`. -/
def leBytes (n v : ℕ) : List UInt8 := (List.range n).map fun i => UInt8.ofNat (v / 256 ^ i)

/-- The `n` bytes at `a`, as a number, when all of them are there. -/
def word (n : ℕ) (l : List UInt8) (a : ℕ) : Option ℕ :=
  if a + n ≤ l.length then some (load n (fun i => l.getD i 0) a) else none

/-- The string up to the first zero, when there is one. -/
def cString : List UInt8 → Option (List UInt8)
  | [] => none
  | c :: s => if c = 0 then some [] else (cString s).map (c :: ·)

/-- The first `n` bytes of the array that `strncpy` fills. -/
def strncpy (n : ℕ) (s : List UInt8) : List UInt8 := s.take n ++ List.replicate (n - s.length) 0

variable {n a v : ℕ} {l l' s : List UInt8}

@[simp] theorem length_leBytes : (leBytes n v).length = n := by
  unfold leBytes
  rw [List.length_map, List.length_range]

theorem word_append (l l' : List UInt8) (n a : ℕ) : word n (l ++ l') (l.length + a) = word n l' a := by
  have hload : load n (fun i => (l ++ l').getD i 0) (l.length + a) = load n (fun i => l'.getD i 0) a := by
    rw [← load_shift]
    refine load_congr fun b _ _ => ?_
    rw [List.getD_append_right _ _ _ _ (Nat.le_add_right _ _), Nat.add_sub_cancel_left]
  have hiff : l.length + a + n ≤ (l ++ l').length ↔ a + n ≤ l'.length := by
    rw [List.length_append]
    omega
  unfold word
  by_cases hle : a + n ≤ l'.length
  · rw [if_pos hle, if_pos (hiff.mpr hle), hload]
  · rw [if_neg hle, if_neg (mt hiff.mp hle)]

theorem word_append_left (h : a + n ≤ l.length) (l' : List UInt8) : word n (l ++ l') a = word n l a := by
  have hle : a + n ≤ (l ++ l').length := by
    rw [List.length_append]
    omega
  unfold word
  rw [if_pos h, if_pos hle]
  refine congrArg some (load_congr fun b _ hb => ?_)
  exact List.getD_append _ _ _ _ (by omega)

theorem word_leBytes (n v : ℕ) : word n (leBytes n v) 0 = some (v % 256 ^ n) := by
  have hle : 0 + n ≤ (leBytes n v).length := by
    rw [length_leBytes, Nat.zero_add]
  unfold word
  rw [if_pos hle]
  refine congrArg some (load_of_bytes fun i hi => ?_)
  rw [Nat.zero_add, List.getD_eq_getElem _ _ (by rw [length_leBytes]; exact hi)]
  simp [leBytes]

/-- A word behind `l`. -/
theorem word_at (l s : List UInt8) (n v : ℕ) : word n (l ++ (leBytes n v ++ s)) l.length = some (v % 256 ^ n) := by
  have hword := word_append l (leBytes n v ++ s) n 0
  rw [Nat.add_zero] at hword
  rw [hword, word_append_left (by rw [length_leBytes, Nat.zero_add]), word_leBytes]

theorem cString_eq_some : cString l = some s ↔ 0 ∉ s ∧ ∃ l', l = s ++ 0 :: l' := by
  induction l generalizing s with
  | nil =>
    refine ⟨(fun h => by cases h), fun ⟨_, l', hl⟩ => ?_⟩
    exact absurd hl.symm (List.append_ne_nil_of_right_ne_nil s (List.cons_ne_nil 0 l'))
  | cons c l ih =>
    rw [cString]
    by_cases hc : c = 0
    · rw [if_pos hc, hc]
      constructor
      · intro h
        rw [← Option.some.inj h]
        exact ⟨List.not_mem_nil, l, rfl⟩
      · rintro ⟨hs, l', hl⟩
        cases s with
        | nil => rfl
        | cons d s =>
          rw [List.cons_append, List.cons.injEq] at hl
          exact absurd (hl.1 ▸ List.mem_cons_self) hs
    · rw [if_neg hc, Option.map_eq_some_iff]
      constructor
      · rintro ⟨t, ht, rfl⟩
        obtain ⟨hzero, l', rfl⟩ := ih.mp ht
        refine ⟨?_, l', rfl⟩
        rw [List.mem_cons, not_or]
        exact ⟨Ne.symm hc, hzero⟩
      · rintro ⟨hs, l', hl⟩
        cases s with
        | nil => exact absurd (List.cons.inj hl).1 hc
        | cons d s =>
          rw [List.cons_append, List.cons.injEq] at hl
          rw [List.mem_cons, not_or] at hs
          exact ⟨s, ih.mpr ⟨hs.2, l', hl.2⟩, by rw [hl.1]⟩

/-- Bytes that are not 0 do not end a string, and what is behind its end does not belong to it. -/
theorem cString_append_of_notMem (h : 0 ∉ l') : cString (l ++ l') = some s ↔ cString l = some s := by
  constructor
  · intro hs
    obtain ⟨hzero, r, hr⟩ := cString_eq_some.mp hs
    obtain ⟨t, hl, hrest⟩ | ⟨t, hl, hrest⟩ := List.append_eq_append_iff.mp hr
    · exact absurd (hrest ▸ List.mem_append_right t List.mem_cons_self) h
    · cases t with
      | nil =>
        have hl' : l' = 0 :: r := hrest.symm
        exact absurd (hl' ▸ List.mem_cons_self) h
      | cons d t =>
        obtain ⟨rfl, -⟩ := List.cons.inj hrest
        exact cString_eq_some.mpr ⟨hzero, t, hl⟩
  · intro hs
    obtain ⟨hzero, r, rfl⟩ := cString_eq_some.mp hs
    exact cString_eq_some.mpr ⟨hzero, r ++ l', by rw [List.append_assoc, List.cons_append]⟩

theorem cString_append (h : 0 ∉ s) (l : List UInt8) : cString (s ++ l) = (cString l).map (s ++ ·) := by
  induction s with
  | nil => exact (congrFun Option.map_id (cString l)).symm
  | cons c s ih =>
    rw [List.mem_cons, not_or] at h
    rw [List.cons_append, cString, if_neg (Ne.symm h.1), ih h.2, Option.map_map]
    rfl

theorem cString_terminated (h : 0 ∉ s) (l : List UInt8) : cString (s ++ 0 :: l) = some s := by
  rw [cString_append h, cString, if_pos rfl, Option.map_some, List.append_nil]

/-- The byte behind a string that has no zero ends it or belongs to it. -/
theorem cString_behind {c : UInt8} (h : 0 ∉ s) (l : List UInt8) : cString (s ++ c :: l) = some s ↔ c = 0 := by
  constructor
  · intro hs
    by_contra hc
    rw [cString_append h, cString, if_neg hc, Option.map_map] at hs
    obtain ⟨t, _, heq⟩ := Option.map_eq_some_iff.mp hs
    have hlength := congrArg List.length heq
    rw [Function.comp_apply, List.length_append, List.length_cons] at hlength
    omega
  · intro hc
    rw [hc]
    exact cString_terminated h l

end Bytes
