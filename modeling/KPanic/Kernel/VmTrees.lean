import KPanic.Kernel.VmAccess

/-!
# Address spaces come and go

The constructor of `ArchMemory` adds a tree that maps nothing; the destructor removes a tree, and
with it the pages that no other tree maps.
-/

namespace KPanic

open Function
open PageTree
open CopyOnWrite
open Wp

variable {users kept : ℕ → Prop} {own own' : Own} {s s' : Kernel} {r p v : ℕ}

/-! ### A new tree -/

/-- `own` with an empty tree at `r`. -/
abbrev withRoot (own : Own) (r : ℕ) : Own := update own r (some (.table r 4 0))

theorem withRoot_table {t r' l x : ℕ} (h : withRoot own r t = some (.table r' l x)) :
    t = r ∧ r' = r ∧ l = 4 ∨ own t = some (.table r' l x) := by
  by_cases ht : t = r
  · rw [withRoot, ht, update_self] at h
    cases h
    exact .inl ⟨ht, rfl, rfl⟩
  · rw [withRoot, update_of_ne ht] at h
    exact .inr h

theorem withRoot_isRoot {u : ℕ} : IsRoot paging (withRoot own r) u ↔ u = r ∨ IsRoot paging own u := by
  unfold IsRoot withRoot
  by_cases hu : u = r
  · rw [hu, update_self]
    exact iff_of_true rfl (.inl rfl)
  · rw [update_of_ne hu]
    exact (or_iff_right hu).symm

theorem not_isRoot (h : own r = none) : ¬IsRoot paging own r := by
  intro hr
  rw [IsRoot, h] at hr
  cases hr

theorem space_of_new (h : own r = none) {memory : ℕ → Page} (u : ℕ) : space own memory r u = none := by
  rw [space, if_neg]
  exact fun hr => not_isRoot h hr.1

/-- A page that the kernel holds becomes a root. -/
theorem TablesOf.newRoot (T : TablesOf users (fun q => kept q ∨ q = r) own s) (hr : ¬kept r) (hzero : kept 0)
    (hlow : ∀ i < PAGE_MAP_LEVEL_4_ENTRIES / 2, s.memory r i = 0) :
    TablesOf users kept (withRoot own r) s ∧ space (withRoot own r) s.memory = space own s.memory := by
  have hnone : own r = none := T.apart (.inr rfl)
  have hkeep : ∀ {t r' l x}, own t = some (.table r' l x) → withRoot own r t = some (.table r' l x) := by
    intro t r' l x ht
    rwa [withRoot, update_of_ne]
    rintro rfl
    rw [hnone] at ht
    cases ht
  have htree : Tree paging (link s.memory) (withRoot own r) := by
    refine T.tree.addRoot hnone (fun _ _ => rfl) fun j hj => ?_
    rw [link, hlow j hj, target_zero]
  refine ⟨⟨T.pm.congr fun q => ?_, hzero, fun {q} hq => ?_, htree, fun {t r' l x i} ht hi => ?_⟩, ?_⟩
  · by_cases hq : q = r
    · simp [withRoot, hq]
    · simp [withRoot, hq]
  · rw [withRoot, update_of_ne]
    · exact T.apart (.inl hq)
    · rintro rfl
      exact hr hq
  · obtain ⟨rfl, -, rfl⟩ | ht := withRoot_table ht
    · rw [hlow i hi]
      exact entryOk_zero users 4
    · exact T.words ht hi
  · funext r' u
    apply Option.ext
    intro y
    rw [space_iff T.tree, space_iff htree]
    constructor
    · rintro ⟨t, ht, hleaf⟩
      obtain ⟨-, -, hl⟩ | ht := withRoot_table ht
      · omega
      · exact ⟨t, ht, hleaf⟩
    · rintro ⟨t, ht, hleaf⟩
      exact ⟨t, hkeep ht, hleaf⟩

theorem VmInv.wp_new (V : VmInv kept own s) {Q : ℕ → Kernel → Prop}
    (hQ : ∀ r s', VmInv kept (withRoot own r) s' → own r = none → Quiet own (withRoot own r) s s' → Q r s') :
    wp OutOfMemory ArchMemory.new Q s := by
  unfold ArchMemory.new
  rw [wp_bind]
  refine V.wp_alloc fun r s₁ H₁ hq₁ _ _ => ?_
  rw [wp_bind, wp_get, wp_bind]
  refine H₁.wp_setPage fun s₂ H₂ hq₂ _ => ?_
  rw [wp_bind]
  refine H₂.wp_setPage fun s₃ H₃ hq₃ hpage => ?_
  rw [wp_pure]
  have hq := (hq₁.trans hq₂).trans hq₃
  obtain ⟨T, hspace⟩ := H₃.inv.tables.newRoot H₃.new H₃.zero fun i hi => by rw [hpage]; exact if_pos hi
  have hquiet : Quiet own (withRoot own r) s s₃ := ⟨hspace.trans hq.space, hq.mem, hq.rest⟩
  refine hQ r s₃ (hquiet.inv V T fun {u} hu => ?_) H₁.own_none hquiet
  rw [IsRoot, withRoot, update_of_ne]
  · exact hu
  · rintro rfl
    rw [IsRoot, H₁.own_none] at hu
    cases hu

/-! ### A tree that is deleted -/

theorem mappedBy_iff (T : Tree paging (link s.memory) own) {K : ℕ → Prop} :
    MappedBy paging (link s.memory) own K p ↔ ∃ r v b, K r ∧ space own s.memory r v = some (p, b) := by
  constructor
  · intro ⟨r, t, x, i, hK, ht, hi, hlink⟩
    have hi : i < PAGE_TABLE_ENTRIES := hi
    obtain ⟨b, hleaf⟩ := leaf_of_target hlink
    refine ⟨r, x * PAGE_TABLE_ENTRIES + i, b, hK, (space_iff T).mpr ⟨t, ?_, ?_⟩⟩
    · rw [mul_add_div_self hi]
      exact ht
    · rw [mul_add_mod_self hi]
      exact hleaf
  · intro ⟨r, v, b, hK, hm⟩
    obtain ⟨t, ht, hleaf⟩ := (space_iff T).mp hm
    exact ⟨r, t, _, _, hK, ht, Nat.mod_lt _ (by decide), target_of_leaf hleaf⟩

/-- The trees but the one at `r`, and the one at `r`. -/
noncomputable abbrev othersOf (own : Own) (s : Kernel) (r : ℕ) : Own := only paging (link s.memory) own (· ≠ r)
noncomputable abbrev treeAt (own : Own) (s : Kernel) (r : ℕ) : Own := only paging (link s.memory) own (· = r)

/-- Each page in use is in the tree at `r` or in another one. -/
theorem own_split (T : Tree paging (link s.memory) own) :
    own p ≠ none ↔ othersOf own s r p ≠ none ∨ treeAt own s r p ≠ none := by
  constructor
  · intro h
    obtain ⟨role, hrole⟩ := Option.ne_none_iff_exists'.mp h
    cases role with
    | table r' l x =>
      by_cases hr : r' = r
      · right
        rw [treeAt, only_table.mpr ⟨hrole, hr⟩]
        exact Option.some_ne_none _
      · left
        rw [othersOf, only_table.mpr ⟨hrole, hr⟩]
        exact Option.some_ne_none _
    | leaf v =>
      obtain ⟨r', b, hm⟩ := own_space T hrole
      by_cases hr : r' = r
      · right
        rw [treeAt, only_leaf.mpr ⟨hrole, (mappedBy_iff T).mpr ⟨r', v, b, hr, hm⟩⟩]
        exact Option.some_ne_none _
      · left
        rw [othersOf, only_leaf.mpr ⟨hrole, (mappedBy_iff T).mpr ⟨r', v, b, hr, hm⟩⟩]
        exact Option.some_ne_none _
  · rintro (h | h) hnone
    · exact h (only_none hnone)
    · exact h (only_none hnone)

variable {sharers : ℕ → List ℕ} {root root' : ℕ → Option ℕ}

/-- A page of the tree is shared exactly if another tree maps it. -/
theorem shared_iff (S : Sharing (space own s.memory) sharers root)
    (S' : Sharing (drop (space own s.memory) r) s.cow_map_ root') {b : Bool}
    (hm : space own s.memory r v = some (p, b)) :
    s.cow_map_ p ≠ [] ↔ ∃ r' v' b', r' ≠ r ∧ space own s.memory r' v' = some (p, b') := by
  constructor
  · intro h
    obtain ⟨k, hk⟩ := List.exists_mem_of_ne_nil _ h
    obtain ⟨r', v', b', -, hm'⟩ := S'.sharer hk
    obtain ⟨hr, hm'⟩ := drop_eq_some.mp hm'
    exact ⟨r', v', b', hr, hm'⟩
  · intro ⟨r', v', b', hr, hm'⟩ hempty
    have hb := (S'.sole (drop_eq_some.mpr ⟨hr, hm'⟩) hempty).1
    rw [(S.mapper hm' (S.shared_of_two hm hm' hr.symm)).1] at hb
    cases hb

theorem dying (T : Tables kept own s) (S : Sharing (space own s.memory) sharers root)
    (S' : Sharing (drop (space own s.memory) r) s.cow_map_ root') :
    Dying kept (othersOf own s r) (treeAt own s r) r s where
  tables := by
    refine ⟨T.pm.congr fun q => ?_, .inl T.zero, ?_, T.tree.only _, fun ht hi => T.words (only_table.mp ht).1 hi⟩
    · unfold heldBy
      rw [own_split (r := r) T.tree]
      tauto
    · rintro q (hq | hq)
      · exact only_none (T.apart hq)
      · exact hq.2
  tree := T.tree.only _
  sole ht := (only_table.mp ht).2
  zero := T.zero
  apart hq := only_none (T.apart hq)
  table {t r' l x} ht := by
    obtain ⟨htable, rfl⟩ := only_table.mp ht
    constructor
    · by_contra hne
      obtain ⟨role, hrole⟩ := Option.ne_none_iff_exists'.mp hne
      have hown := own_of_only hrole
      rw [htable] at hown
      cases hown
      exact (only_table.mp hrole).2 rfl
    · refine S'.fresh_sharers fun r₁ v₁ b₁ hm => ?_
      have hleaf := space_own T.tree (drop_eq_some.mp hm).2
      rw [htable] at hleaf
      cases hleaf
  leaf {p v} hleaf := by
    obtain ⟨hp, hby⟩ := only_leaf.mp hleaf
    obtain ⟨r', u, b, rfl, hm⟩ := (mappedBy_iff T.tree).mp hby
    rw [← not_iff_not, ← Ne, ← Ne, shared_iff S S' hm]
    constructor
    · intro hne
      obtain ⟨role, hrole⟩ := Option.ne_none_iff_exists'.mp hne
      have hown := own_of_only hrole
      rw [hp] at hown
      cases hown
      obtain ⟨r₁, v₁, b₁, hr, hm'⟩ := (mappedBy_iff T.tree).mp (only_leaf.mp hrole).2
      exact ⟨r₁, v₁, b₁, hr, hm'⟩
    · intro ⟨r₁, v₁, b₁, hr, hm'⟩
      rw [othersOf, only_leaf.mpr ⟨hp, (mappedBy_iff T.tree).mpr ⟨r₁, v₁, b₁, hr, hm'⟩⟩]
      exact Option.some_ne_none _
  sizes ht hi hp := ((T.words (only_table.mp ht).1 hi).flags hp).1

/-- What the destructor leaves. -/
structure Deleted (kept : ℕ → Prop) (own own' : Own) (s s' : Kernel) (r : ℕ) : Prop where
  tables : Tables kept own' s'
  space : space own' s'.memory = drop (space own s.memory) r
  roots : ∀ u, IsRoot paging own' u ↔ u ≠ r ∧ IsRoot paging own u
  mem : ∀ {r' u q b}, r' ≠ r → KPanic.space own s.memory r' u = some (q, b) → s'.memory q = s.memory q
  rest : SameRest s s'

theorem wp_deleteTree (T : Tables kept own s) (hr : IsRoot paging own r)
    (S : Sharing (space own s.memory) sharers root)
    (S' : Sharing (drop (space own s.memory) r) s.cow_map_ root') {Q : PUnit → Kernel → Prop}
    (hQ : ∀ own' s', Deleted kept own own' s s' r → Q ⟨⟩ s') :
    wp OutOfMemory (ArchMemory.delete r) Q s := by
  refine wp_delete (dying T S S') (only_table.mpr ⟨hr, rfl⟩) fun s' T' hpages hrest =>
    hQ (othersOf own s r) s' ⟨T', ?_, fun u => ?_, fun {r' u q b} hr' hm => ?_, hrest⟩
  · funext r' u
    apply Option.ext
    intro y
    rw [space_iff T'.tree, drop_eq_some, space_iff T.tree]
    constructor
    · intro ⟨t, ht, hleaf⟩
      rw [hpages t (.inl (by rw [ht]; exact Option.some_ne_none _))] at hleaf
      exact ⟨(only_table.mp ht).2, t, (only_table.mp ht).1, hleaf⟩
    · intro ⟨hr', t, ht, hleaf⟩
      have ht' : othersOf own s r t = some (.table r' 1 (u / PAGE_TABLE_ENTRIES)) := only_table.mpr ⟨ht, hr'⟩
      refine ⟨t, ht', ?_⟩
      rwa [hpages t (.inl (by rw [ht']; exact Option.some_ne_none _))]
  · unfold IsRoot
    rw [only_table, and_comm]
  · refine hpages q (.inl ?_)
    rw [othersOf, only_leaf.mpr ⟨space_own T.tree hm, (mappedBy_iff T.tree).mpr ⟨r', u, b, hr', hm⟩⟩]
    exact Option.some_ne_none _

end KPanic
