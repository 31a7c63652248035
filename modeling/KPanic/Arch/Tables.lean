import KPanic.Lib.SlotUpdate
import KPanic.Lib.CopyOnWrite
import KPanic.Arch.ArchMemory

/-!
# The page tables in physical memory

`Tables kept own s`: the pages in use are those that the ownership map `own` places in a page
table tree, and those in `kept`, which the kernel holds outside of the trees. The entries have the
flags that `insert` and `insertCopy` write. `space` reads off what the trees map.
-/

namespace KPanic

open BitField (Word)
open Function
open PageTree
open CopyOnWrite
open Wp

/-- Four levels; the lower half of the table at level 4 is the user's. -/
def paging : Shape where
  B := PAGE_TABLE_ENTRIES
  top := PAGE_MAP_LEVEL_4_ENTRIES / 2
  H := 4
  top_pos := by decide
  top_le := by decide
  two_le := by decide

@[simp] theorem paging_B : paging.B = PAGE_TABLE_ENTRIES := rfl
@[simp] theorem paging_H : paging.H = 4 := rfl

abbrev Own := ℕ → Option (Role ℕ)

/-- What an entry points to. -/
def target (w : Word) : Option ℕ :=
  if present.get w = 0 then none else some (page_ppn.get w)

def link (memory : ℕ → Page) (t i : ℕ) : Option ℕ := target (memory t i)

/-- A page table entry: the page, and whether it may be written. -/
def leaf (w : Word) : Option (ℕ × Bool) :=
  if present.get w = 0 then none else some (page_ppn.get w, writeable.get w = 1)

/-- An entry of a table at level `l`; `users` are the values of `user_access` for pages. -/
structure EntryOk (users : ℕ → Prop) (l : ℕ) (w : Word) : Prop where
  zero : present.get w = 0 → w = 0
  flags : present.get w ≠ 0 → size.get w = 0 ∧
    (l ≠ 1 → user_access.get w = 1 ∧ writeable.get w = 1) ∧ (l = 1 → users (user_access.get w))

structure TablesOf (users : ℕ → Prop) (kept : ℕ → Prop) (own : Own) (s : Kernel) : Prop where
  pm : PmInv (fun p => own p ≠ none ∨ kept p) s.pm s.memory
  zero : kept 0
  apart : ∀ {p}, kept p → own p = none
  tree : Tree paging (link s.memory) own
  words : ∀ {t r l x i}, own t = some (.table r l x) → i < paging.width l →
    EntryOk users l (s.memory t i)

/-- All pages are the user's. -/
abbrev Tables (kept : ℕ → Prop) (own : Own) (s : Kernel) : Prop := TablesOf (· = 1) kept own s

open Classical in
/-- What the tree at `r` maps the virtual page `v` to. -/
noncomputable def space (own : Own) (memory : ℕ → Page) (r v : ℕ) : Option (ℕ × Bool) :=
  if IsRoot paging own r ∧ paging.InRange v then
    (walk paging (link memory) r v 3).bind fun t => leaf (memory t (v % PAGE_TABLE_ENTRIES))
  else none

theorem entryOk_zero (users : ℕ → Prop) (l : ℕ) : EntryOk users l 0 :=
  ⟨fun _ => rfl, fun h => absurd (BitField.get_zero present) h⟩

theorem target_of_leaf {w : Word} {p : ℕ} {b : Bool} (h : leaf w = some (p, b)) :
    target w = some p := by
  unfold leaf at h
  split at h
  · cases h
  · rename_i hp
    cases h
    rw [target, if_neg hp]

theorem leaf_of_target {w : Word} {p : ℕ} (h : target w = some p) : ∃ b, leaf w = some (p, b) := by
  unfold target at h
  split at h
  · cases h
  · rename_i hp
    cases h
    exact ⟨_, if_neg hp⟩

theorem leaf_none {w : Word} : leaf w = none ↔ target w = none := by
  unfold leaf target
  split <;> simp

@[simp] theorem target_zero : target 0 = none := by
  rw [target, BitField.get_zero, if_pos rfl]

section Space

variable {own own' : Own} {memory memory' : ℕ → Page} {r l x t i v : ℕ} {w : Word}

theorem inRange_of_table (T : Tree paging (link memory) own)
    (h : own t = some (.table r 1 (v / PAGE_TABLE_ENTRIES))) : paging.InRange v := by
  have hlt := T.index_lt h
  have hB : PAGE_TABLE_ENTRIES = 512 := rfl
  have htop : paging.top = 256 := rfl
  rw [Shape.InRange]
  simp only [paging_B, paging_H, hB, htop, Nat.reduceSub, Nat.reducePow, pow_one] at hlt ⊢
  omega

/-- `space`, by the page table that holds the entry. -/
theorem space_iff (T : Tree paging (link memory) own) {y : ℕ × Bool} :
    space own memory r v = some y ↔ ∃ t, own t = some (.table r 1 (v / PAGE_TABLE_ENTRIES)) ∧
      leaf (memory t (v % PAGE_TABLE_ENTRIES)) = some y := by
  constructor
  · intro h
    unfold space at h
    split at h
    · rename_i hc
      obtain ⟨t, ht, hleaf⟩ := Option.bind_eq_some_iff.mp h
      have hown := T.walk_own hc.1 hc.2 (by decide) ht
      rw [paging_H, paging_B, pow_one] at hown
      exact ⟨t, hown, hleaf⟩
    · cases h
  · intro ⟨t, hown, hleaf⟩
    have hw := T.walk_of_own (v := v) hown (by rw [paging_B, pow_one])
    rw [space, if_pos ⟨T.isRoot_of_table hown, inRange_of_table T hown⟩]
    exact Option.bind_eq_some_iff.mpr ⟨t, hw, hleaf⟩

theorem space_eq (T : Tree paging (link memory) own)
    (h : own t = some (.table r 1 (v / PAGE_TABLE_ENTRIES))) :
    space own memory r v = leaf (memory t (v % PAGE_TABLE_ENTRIES)) := by
  apply Option.ext
  intro y
  rw [space_iff T]
  constructor
  · rintro ⟨t', h', hleaf⟩
    rwa [T.table_unique h h']
  · exact fun hleaf => ⟨t, h, hleaf⟩

/-- The pages that `space` maps are the pages of the trees. -/
theorem space_own (T : Tree paging (link memory) own) {p : ℕ} {b : Bool}
    (h : space own memory r v = some (p, b)) : own p = some (.leaf v) := by
  obtain ⟨t, ht, hleaf⟩ := (space_iff T).mp h
  have hB : paging.width 1 = PAGE_TABLE_ENTRIES := rfl
  have hc := T.child ht (by rw [hB]; exact Nat.mod_lt _ (by decide)) (target_of_leaf hleaf)
  rw [childRole_one, paging_B, Nat.div_add_mod'] at hc
  exact hc

theorem own_space (T : Tree paging (link memory) own) {p : ℕ} (h : own p = some (.leaf v)) :
    ∃ r b, space own memory r v = some (p, b) := by
  obtain ⟨r, t, ht, hlink⟩ := T.leafParent h
  obtain ⟨b, hleaf⟩ := leaf_of_target hlink
  exact ⟨r, b, (space_iff T).mpr ⟨t, ht, hleaf⟩⟩

/-- The memory of page tables decides `space`. -/
theorem space_congr {m : ℕ → Page} (T : Tree paging (link memory) own)
    (T' : Tree paging (link m) own)
    (h : ∀ {t r l x}, own t = some (.table r l x) → m t = memory t) :
    space own m = space own memory := by
  funext r v
  apply Option.ext
  intro y
  rw [space_iff T, space_iff T']
  constructor
  · intro ⟨t, ht, hleaf⟩
    exact ⟨t, ht, by rwa [h ht] at hleaf⟩
  · intro ⟨t, ht, hleaf⟩
    exact ⟨t, ht, by rwa [h ht]⟩

/-- Setting an entry of a page table sets one mapping. -/
theorem space_setAt (T : Tree paging (link memory) own) (T' : Tree paging (link memory') own')
    (hown : ∀ {u r l x}, own' u = some (.table r l x) ↔ own u = some (.table r l x))
    (ht : own t = some (.table r 1 x)) (hi : i < PAGE_TABLE_ENTRIES)
    (hm : memory' = update memory t (update (memory t) i w)) :
    space own' memory' = setAt (space own memory) r (x * PAGE_TABLE_ENTRIES + i) (leaf w) := by
  funext r' v'
  unfold setAt
  split
  · rename_i hit
    obtain ⟨rfl, rfl⟩ := hit
    have hx : (x * PAGE_TABLE_ENTRIES + i) / PAGE_TABLE_ENTRIES = x := mul_add_div_self hi
    rw [space_eq T' (t := t) (by rwa [hx, hown]), mul_add_mod_self hi, hm, update_self, update_self]
  · rename_i miss
    apply Option.ext
    intro y
    rw [space_iff T, space_iff T']
    have hsame : ∀ {u}, own u = some (.table r' 1 (v' / PAGE_TABLE_ENTRIES)) →
        memory' u (v' % PAGE_TABLE_ENTRIES) = memory u (v' % PAGE_TABLE_ENTRIES) := by
      intro u hu
      rw [hm]
      by_cases hut : u = t
      · subst hut
        rw [ht] at hu
        cases hu
        rw [update_self, update_of_ne]
        rintro rfl
        exact miss ⟨rfl, (Nat.div_add_mod' _ _).symm⟩
      · rw [update_of_ne hut]
    constructor
    · intro ⟨u, hu, hleaf⟩
      rw [hown] at hu
      exact ⟨u, hu, by rwa [hsame hu] at hleaf⟩
    · intro ⟨u, hu, hleaf⟩
      exact ⟨u, hown.mpr hu, by rwa [hsame hu]⟩

end Space

end KPanic
